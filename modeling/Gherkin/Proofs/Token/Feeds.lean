import Gherkin.Proofs.Token.Locality
/-!
Line feeds in lexemes. A line break takes the line feed that it is, a comment on a line of its own
the one that ends its line, and a doc string those of its body. No other lexeme takes one, however
far it reads: all that is read on a line ends at its line feed at the latest.
-/
namespace Gherkin

def TokenKind.docString? : TokenKind → Option DocString
  | .docString content => some content
  | _ => none

/-- The line feeds of the text that a token stands for. -/
def TokenKind.lineFeeds (kind : TokenKind) : Nat :=
  kind.isNewLine.toNat + (kind.docString?.map (·.raw.count '\n')).getD 0

def LexemeKind.lineFeeds : LexemeKind → Nat
  | .token kind => kind.lineFeeds
  | .comment _ breaksLine => breaksLine.toNat
  | .trivia => 0

namespace DocString.Body

theorem of_text_raw_initial (fence text : Text) : (ofText fence text).raw <+: text := by
  fun_induction ofText fence text with
  | case1 => exact List.prefix_rfl
  | case2 c rest escapable ih =>
    exact List.prefix_cons_inj _ |>.mpr (List.prefix_cons_inj _ |>.mpr ih)
  | case3 c rest mark ih => exact List.prefix_cons_inj _ |>.mpr ih
  | case4 => exact List.nil_prefix
  | case5 c rest notEscape goes ih => exact List.prefix_cons_inj _ |>.mpr ih

-- Behind the body the text has come to its end or to the fence that closes it.
theorem of_text_ends (fence text : Text) :
    text.drop (ofText fence text).raw.length = [] ∨
      Text.fenceRun (text.drop (ofText fence text).raw.length) = fence := by
  fun_induction ofText fence text with
  | case1 => exact Or.inl rfl
  | case2 c rest escapable ih => exact ih
  | case3 c rest mark ih => exact ih
  | case4 c rest notEscape closes =>
    exact Or.inr (beq_iff_eq.mp (Bool.and_eq_true_iff.mp closes).2)
  | case5 c rest notEscape goes ih => exact ih

end DocString.Body

namespace Lexeme
variable {language : Language} {state : LineState} {text : Text} {lexeme : Lexeme}

theorem closing_unbroken {behind opening : Text}
    (ends : behind = [] ∨ Text.fenceRun behind = opening) :
    '\n' ∉ behind.take (behind.take opening.length).length := by
  rcases ends with rfl | rfl
  · simp
  · apply Text.take_unbroken (Text.run_unbroken (p := Text.isFenceMark) (by decide) behind)
    exact List.length_take_le _ _

theorem comment_feeds (state : LineState) (rest : Text) :
    (('#' :: rest).take (comment state rest).width).count '\n' =
      (comment state rest).kind.lineFeeds := by
  have unbroken : '\n' ∉ ('#' :: rest).take (1 + (Text.restOfLine rest).length) :=
    Text.take_cons_unbroken (by decide) (Text.rest_of_line_unbroken rest)
  simp only [comment, LexemeKind.lineFeeds]
  rw [List.take_add, List.count_append, List.count_eq_zero.mpr unbroken, Nat.zero_add,
    Nat.add_comm 1, List.drop_succ_cons]
  cases takes : state.atStart && (rest.drop (Text.restOfLine rest).length).head? == some '\n' with
  | false => rfl
  | true =>
    have next := beq_iff_eq.mp (Bool.and_eq_true_iff.mp takes).2
    obtain ⟨behind, ahead⟩ := List.head?_eq_some_iff.mp next
    rw [ahead]
    rfl

theorem doc_string_feeds (state : LineState) (text : Text) :
    (text.take (docString state text).width).count '\n' =
      (docString state text).kind.lineFeeds := by
  have opening : '\n' ∉ text.take (Text.fenceRun text).length :=
    Text.run_unbroken (by decide) text
  unfold docString
  dsimp only
  split
  · let body := DocString.Body.ofText (Text.fenceRun text) (text.drop (Text.fenceRun text).length)
    have raw : (text.drop (Text.fenceRun text).length).take body.raw.length = body.raw :=
      (List.prefix_iff_eq_take.mp (DocString.Body.of_text_raw_initial _ _)).symm
    have ends := DocString.Body.of_text_ends (Text.fenceRun text)
      (text.drop (Text.fenceRun text).length)
    rw [List.drop_drop] at ends
    rw [List.take_add, List.take_add, List.count_append, List.count_append, raw,
      List.count_eq_zero.mpr opening, List.count_eq_zero.mpr (closing_unbroken ends)]
    simp [LexemeKind.lineFeeds, TokenKind.lineFeeds, TokenKind.isNewLine, TokenKind.docString?,
      DocString.layout, body]
  · exact List.count_eq_zero.mpr opening

theorem placeholder_unbroken (state : LineState) (rest : Text) :
    '\n' ∉ ('<' :: rest).take (placeholder state rest).width := by
  have name := Text.line_until_unbroken (· == '>') rest
  unfold placeholder
  dsimp only
  split
  · next closed =>
    rw [Nat.add_assoc]
    exact Text.take_cons_unbroken (by decide) (Text.take_succ_unbroken name closed (by decide))
  · exact Text.take_cons_unbroken (by decide) name

theorem keyword_unbroken (kind : TokenKind) (state : LineState) {length : Nat}
    (unbroken : '\n' ∉ text.take length) :
    '\n' ∉ text.take (keyword kind state length text).width :=
  Text.take_add_unbroken unbroken (Text.run_unbroken (by decide) _)

theorem escape_unbroken (state : LineState) (rest : Text) :
    '\n' ∉ ('\\' :: rest).take (escape state rest).width := by
  unfold escape
  split
  · next c hidden =>
    obtain ⟨head, symbol⟩ := Option.filter_eq_some_iff.mp hidden
    obtain ⟨tail, rfl⟩ := List.head?_eq_some_iff.mp head
    have notFeed : c ≠ '\n' := by simpa using (Bool.and_eq_true_iff.mp symbol).2
    have read : '\n' ∉ tail.take
        (if c = '#' then [] else Text.lineUntil Text.isSymbol tail).length := by
      split
      · simp
      · exact Text.line_until_unbroken Text.isSymbol tail
    have both := Text.take_cons_unbroken (by decide : '\\' ≠ '\n')
      (Text.take_cons_unbroken notFeed read)
    rwa [← Nat.add_assoc] at both
  · exact Text.take_cons_unbroken (by decide) (Text.line_until_unbroken Text.isSymbol rest)

theorem stretch_unbroken (kind : Text → TokenKind) (state : LineState) {stop : Char → Bool}
    {c : Char} (rest : Text) (notFeed : c ≠ '\n') (goes : stop c = false) :
    '\n' ∉ (c :: rest).take (stretch kind state stop (c :: rest)).width := by
  rw [stretch_width kind state rest notFeed goes]
  exact Text.line_until_unbroken stop (c :: rest)

/-- A lexeme takes as many line feeds as the text has that it stands for. -/
theorem feeds_of_reads (reads : Reads language state text lexeme) :
    (text.take lexeme.width).count '\n' = lexeme.kind.lineFeeds := by
  -- Where the text taken has none, it is enough that what it stands for has none.
  have of_unbroken (unbroken : '\n' ∉ text.take lexeme.width)
      (none : lexeme.kind.lineFeeds = 0) :
      (text.take lexeme.width).count '\n' = lexeme.kind.lineFeeds :=
    (List.count_eq_zero.mpr unbroken).trans none.symm
  cases reads with
  | newLine rest => rfl
  | comment rest => exact comment_feeds state rest
  | tag rest =>
    exact of_unbroken (Text.take_cons_unbroken (by decide) (Text.run_unbroken (by decide) rest)) rfl
  | cell rest =>
    apply of_unbroken (Text.take_cons_unbroken (by decide) (Cell.feed_not_mem_taken {} rest))
    rcases cell_kind state rest with none | ⟨_, some⟩ | ⟨_, some⟩
    · rw [none]; rfl
    · rw [some]; rfl
    · rw [some]; rfl
  | placeholder rest =>
    apply of_unbroken (placeholder_unbroken state rest)
    rcases placeholder_kind state rest with ⟨_, some⟩ | ⟨_, some⟩
    · rw [some]; rfl
    · rw [some]; rfl
  | spaces rest => exact of_unbroken (Text.run_unbroken (by decide) _) rfl
  | docString rest => exact doc_string_feeds state _
  | step rest _ _ resolved =>
    have named := Language.resolve_length_le resolved
    exact of_unbroken (keyword_unbroken _ _
      (Text.take_unbroken (Text.line_until_unbroken _ _) named)) rfl
  | scope rest _ _ _ colon =>
    exact of_unbroken (keyword_unbroken _ _
      (Text.take_succ_unbroken (Text.line_until_unbroken _ _) colon (by decide))) rfl
  | description rest => exact of_unbroken (Text.rest_of_line_unbroken _) rfl
  | title rest _ _ notFeed notBracket =>
    apply of_unbroken (stretch_unbroken .title state rest notFeed (by simpa using notBracket))
    rcases stretch_kind .title state (· == '<') (_ :: rest) with none | ⟨_, some⟩
    · rw [none]; rfl
    · rw [some]; rfl
  | escape rest =>
    obtain ⟨_, some⟩ := escape_kind state rest
    exact of_unbroken (escape_unbroken state rest) (by rw [some]; rfl)
  | matchText rest _ _ _ plain =>
    have notFeed := Text.ne_feed_of_not_symbol plain
    apply of_unbroken (stretch_unbroken .matchText state rest notFeed plain)
    rcases stretch_kind .matchText state Text.isSymbol (_ :: rest) with none | ⟨_, some⟩
    · rw [none]; rfl
    · rw [some]; rfl
  | skip rest _ _ _ plain =>
    have notFeed := Text.ne_feed_of_not_symbol plain
    exact of_unbroken (List.not_mem_cons_of_ne_of_not_mem (Ne.symm notFeed) List.not_mem_nil) rfl

end Lexeme
end Gherkin
