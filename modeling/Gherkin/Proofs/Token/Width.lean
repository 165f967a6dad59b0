import Gherkin.Proofs.Text.Runs
import Gherkin.Token.Lexeme
/-!
A lexeme lies within its text: however far ahead it looks, it takes no more characters than there
are. So a lexer consumes exactly the widths of the lexemes that it reads.
-/
namespace Gherkin

namespace Language

theorem synonym_length_le {text synonym : Text} {length : Nat}
    (taken : synonymLength? text synonym = some length) : length ≤ text.length := by
  unfold synonymLength? at taken
  split at taken
  · next opens =>
    cases taken
    exact (List.isPrefixOf_iff_prefix.mp opens).length_le
  · dsimp only at taken
    split at taken
    · cases taken
      exact Text.trim_end_length_le Text.isSpace text
    · cases taken

theorem resolve_length_le {language : Language} {text : Text} {found : ScopeMatch}
    (resolved : language.resolve text = some found) : found.length ≤ text.length := by
  unfold resolve at resolved
  dsimp only at resolved
  split at resolved
  · next entry listed =>
    cases resolved
    have same := List.find?_some listed
    rw [beq_iff_eq] at same
    exact same ▸ Text.trim_end_length_le Text.isSpace text
  · obtain ⟨entry, _, matched⟩ := List.mem_filterMap.mp (longest_mem resolved)
    obtain ⟨length, taken, rfl⟩ := Option.map_eq_some_iff.mp matched
    exact synonym_length_le taken

end Language

theorem Cell.of_text_width_le (fence : HeaderFence) (text : Text) :
    (Cell.ofText fence text).width ≤ text.length := by
  fun_induction Cell.ofText fence text with
  | case1 => exact Nat.le_refl 0
  | case2 fence c rest decoded escaped ih =>
    simp only [Cell.push, List.length_cons]
    omega
  | case3 fence c rest plain ih =>
    simp only [Cell.push, List.length_cons] at ih ⊢
    omega
  | case4 => exact Nat.zero_le _
  | case5 fence c rest notEscape goes ih =>
    simp only [Cell.push, List.length_cons]
    omega

theorem DocString.Body.of_text_raw_length_le (fence text : Text) :
    (DocString.Body.ofText fence text).raw.length ≤ text.length := by
  fun_induction DocString.Body.ofText fence text with
  | case1 => exact Nat.le_refl 0
  | case2 c rest escaped ih =>
    simp only [DocString.Body.escaped, List.length_cons]
    omega
  | case3 c rest plain ih =>
    simp only [DocString.Body.plain, List.length_cons] at ih ⊢
    omega
  | case4 => exact Nat.zero_le _
  | case5 c rest notEscape goes ih =>
    simp only [DocString.Body.plain, List.length_cons]
    omega

namespace Lexeme

theorem comment_width_le (state : LineState) (rest : Text) :
    (comment state rest).width ≤ rest.length + 1 := by
  have body : (Text.restOfLine rest).length ≤ rest.length := Text.run_length_le _ rest
  simp only [comment]
  split
  · next takes =>
    have next := beq_iff_eq.mp (Bool.and_eq_true_iff.mp takes).2
    have inside := Text.length_lt_of_head_drop next
    omega
  · omega

theorem placeholder_width_le (state : LineState) (rest : Text) :
    (placeholder state rest).width ≤ rest.length + 1 := by
  have name : (Text.lineUntil (· == '>') rest).length ≤ rest.length := Text.run_length_le _ rest
  unfold placeholder
  dsimp only
  split
  · next closed =>
    have inside := Text.length_lt_of_head_drop closed
    simp only
    omega
  · simp only
    omega

theorem doc_string_width_le (state : LineState) (text : Text) :
    (docString state text).width ≤ text.length := by
  have opening : (Text.fenceRun text).length ≤ text.length := Text.run_length_le _ text
  unfold docString
  dsimp only
  split
  · have body := DocString.Body.of_text_raw_length_le (Text.fenceRun text)
      (text.drop (Text.fenceRun text).length)
    simp only [List.length_drop, List.length_take] at body ⊢
    omega
  · exact opening

theorem keyword_width_le (kind : TokenKind) (state : LineState) {length : Nat} {text : Text}
    (inside : length ≤ text.length) : (keyword kind state length text).width ≤ text.length := by
  have spaces := Text.run_length_le Text.isSpace (text.drop length)
  simp only [keyword, List.length_drop] at spaces ⊢
  omega

theorem stretch_width_le (kind : Text → TokenKind) (state : LineState) (stop : Char → Bool)
    (c : Char) (rest : Text) :
    (stretch kind state stop (c :: rest)).width ≤ rest.length + 1 := by
  have read : (Text.lineUntil stop (c :: rest)).length ≤ rest.length + 1 :=
    Text.run_length_le _ (c :: rest)
  unfold stretch
  dsimp only
  split
  · exact Nat.le_add_left 1 rest.length
  · exact read

theorem escape_width_le (state : LineState) (rest : Text) :
    (escape state rest).width ≤ rest.length + 1 := by
  unfold escape
  split
  · next c hidden =>
    cases rest with
    | nil => cases hidden
    | cons d after =>
      have read : (Text.lineUntil Text.isSymbol after).length ≤ after.length :=
        Text.run_length_le _ after
      simp only [List.tail_cons, List.length_cons]
      split
      · simp only [List.length_nil]
        omega
      · omega
  · have read : (Text.lineUntil Text.isSymbol rest).length ≤ rest.length :=
      Text.run_length_le _ rest
    simp only
    omega

theorem width_le_of_reads {language : Language} {state : LineState} {text : Text}
    {lexeme : Lexeme} (reads : Reads language state text lexeme) :
    lexeme.width ≤ text.length := by
  cases reads with
  | newLine rest => exact Nat.le_add_left 1 rest.length
  | comment rest => exact comment_width_le state rest
  | tag rest =>
    have name := Text.run_length_le Text.isTagChar rest
    simp only [tag, List.length_cons]
    omega
  | cell rest =>
    have text := Cell.of_text_width_le {} rest
    simp only [cell, List.length_cons]
    omega
  | placeholder rest => exact placeholder_width_le state rest
  | spaces rest => exact Text.run_length_le Text.isSpace _
  | docString rest => exact doc_string_width_le state _
  | step rest _ _ resolved =>
    have named := Language.resolve_length_le resolved
    exact keyword_width_le _ _ (named.trans (Text.run_length_le _ _))
  | scope rest _ _ _ colon =>
    exact keyword_width_le _ _ (Text.length_lt_of_head_drop colon)
  | description rest => exact Text.run_length_le _ _
  | title rest => exact stretch_width_le .title state _ _ rest
  | escape rest => exact escape_width_le state rest
  | matchText rest => exact stretch_width_le .matchText state _ _ rest
  | skip rest => exact Nat.le_add_left 1 rest.length

end Lexeme
end Gherkin
