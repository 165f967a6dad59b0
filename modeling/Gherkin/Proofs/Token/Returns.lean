import Mathlib.Data.List.Basic
import Gherkin.Language.Find
import Gherkin.Proofs.Text.Returns
import Gherkin.Proofs.Token.Locality
import Gherkin.Token.Comment
/-!
What a carriage return at the end of a line does to a lexeme of the line. Mostly it is one more
space there: it is passed over, trimmed off, or no part of what is read. Text to be matched keeps
it when nothing trims that text, which is so behind a bracket that the line does not close and
behind a backslash. Doc strings keep it too.
-/
namespace Gherkin

namespace Comment

theorem opens_append_last {opening : Text} {last : Char} (absent : last ∉ opening) (text : Text) :
    opening.isPrefixOf? (text ++ [last]) = (opening.isPrefixOf? text).map (· ++ [last]) := by
  induction opening generalizing text with
  | nil => simp [List.isPrefixOf?]
  | cons c rest ih =>
    obtain ⟨notLast, later⟩ := List.ne_and_not_mem_of_not_mem_cons absent
    cases text with
    | nil => simp [List.isPrefixOf?, Ne.symm notLast]
    | cons d more =>
      by_cases same : c = d
      · simpa [List.isPrefixOf?, same] using ih later more
      · simp [List.isPrefixOf?, same]

theorem after_opening_append_last {opening : Text} {last : Char} (named : opening ≠ [])
    (absent : last ∉ opening) (blank : Text.isBlank last = true) (text : Text) :
    afterOpening? opening (text ++ [last]) = (afterOpening? opening text).map (· ++ [last]) := by
  rw [afterOpening?, afterOpening?, Text.drop_while_append_last blank]
  split
  · next all =>
    rw [List.dropWhile_eq_nil_iff.mpr (by simpa using all)]
    cases opening with
    | nil => exact absurd rfl named
    | cons c rest => rfl
  · exact opens_append_last absent _

theorem code_append_last {last : Char} (absent : last ∉ directiveWord) (notColon : last ≠ ':')
    (blank : Text.isBlank last = true) (body : Text) : codeOf? (body ++ [last]) = codeOf? body := by
  rw [codeOf?, codeOf?, after_opening_append_last (by decide) absent blank]
  cases afterOpening? directiveWord body with
  | none => rfl
  | some rest =>
    simp only [Option.map_some]
    rw [after_opening_append_last (by decide) (by simpa using notColon) blank, Option.map_map]
    exact congrArg (Option.map · _) (funext fun _ => Text.trim_append_last blank _)

theorem code_append_return (body behind : Text) :
    codeOf? (body ++ Text.returnBefore behind) = codeOf? body := by
  unfold Text.returnBefore
  split
  · exact code_append_last (by decide) (by decide) (by decide) body
  · rw [List.append_nil]

end Comment

namespace Language

/-- Whether no step synonym of the language has a carriage return in it. -/
def NoReturns (language : Language) : Prop := ∀ entry ∈ language.steps, '\r' ∉ entry.2

theorem no_returns_of_mem_all {language : Language} (member : language ∈ all) :
    language.NoReturns := by
  have every : ∀ language ∈ all, ∀ entry ∈ language.steps, '\r' ∉ entry.2 := by decide +kernel
  exact every language member

theorem with_code_mem {code : Text} {language : Language} (found : withCode? code = some language) :
    language ∈ all := List.mem_of_find?_eq_some found

theorem find_mem {code : Text} {language : Language} (found : find? code = some language) :
    language ∈ all := by
  simp only [find?, Option.orElse_eq_orElse, Option.orElse_eq_or, Option.or_eq_some_iff] at found
  rcases found with found | ⟨_, found | ⟨_, found⟩⟩
  · exact with_code_mem found
  · exact with_code_mem found
  · unfold withTag? at found
    split at found
    · exact with_code_mem found
    · cases found

theorem synonym_length_append_return {synonym : Text} (absent : '\r' ∉ synonym) (head : Text) :
    synonymLength? (head ++ ['\r']) synonym = synonymLength? head synonym := by
  have opens : synonym.isPrefixOf (head ++ ['\r']) = synonym.isPrefixOf head := by
    rw [Bool.eq_iff_iff, List.isPrefixOf_iff_prefix, List.isPrefixOf_iff_prefix,
      List.prefix_concat_iff]
    refine or_iff_right fun whole => absent ?_
    rw [whole]
    exact List.mem_append_right head List.mem_cons_self
  rw [synonymLength?, synonymLength?, opens, Text.trim_end_append_last (by decide)]

theorem resolve_append_return {language : Language} (free : language.NoReturns)
    (head behind : Text) :
    language.resolve (head ++ Text.returnBefore behind) = language.resolve head := by
  unfold Text.returnBefore
  split
  · have steps : language.stepMatches (head ++ ['\r']) = language.stepMatches head := by
      refine List.filterMap_congr fun entry member => ?_
      rw [synonym_length_append_return (free entry member)]
    rw [resolve, resolve, steps, Text.trim_end_append_last (by decide)]
  · rw [List.append_nil]

end Language

@[simp] theorem HeaderFence.plain_return (fence : HeaderFence) : fence.plain '\r' = fence :=
  if_pos (by decide)

theorem Cell.of_text_backslash (fence : HeaderFence) {text : Text}
    (plain : text.head?.bind escape? = none) :
    ofText fence ('\\' :: text) = (ofText (fence.plain '\\') text).push 1 '\\' := by
  cases text with
  | nil => rfl
  | cons c rest =>
    have plain : escape? c = none := plain
    rw [ofText, plain]

-- A cell that ends at a line feed gets the return as its last character.
theorem Cell.of_text_returns (fence : HeaderFence) (text : Text) :
    let cell := Cell.ofText fence text
    let extra := Text.returnBefore (text.drop cell.width)
    Cell.ofText fence (Text.withReturns text) =
      ⟨cell.width + extra.length, cell.text ++ extra, cell.fence⟩ := by
  fun_induction Cell.ofText fence text with
  | case1 => rfl
  | case2 fence c rest decoded escaped ih =>
    have notFeed : c ≠ '\n' := by
      rintro rfl
      cases escaped
    rw [Text.with_returns_cons _ (by decide), Text.with_returns_cons rest notFeed]
    simp only [ofText, escaped, ih, push, List.cons_append, Nat.add_assoc, Nat.add_comm 2,
      List.drop_succ_cons]
  | case3 fence c rest plain ih =>
    have unescaped : (Text.withReturns (c :: rest)).head?.bind escape? = none := by
      by_cases feed : c = '\n'
      · rw [feed]
        rfl
      · rw [Text.with_returns_cons rest feed]
        exact plain
    rw [Text.with_returns_cons _ (by decide), of_text_backslash fence unescaped]
    simp only [ih, push, List.cons_append, Nat.add_assoc, Nat.add_comm 1, List.drop_succ_cons]
  | case4 fence c rest notEscape ends =>
    rcases ends with rfl | rfl <;>
      simp [Cell.ofText, Cell.push, Text.withReturns, Text.returnBefore]
  | case5 fence c rest notEscape goes ih =>
    have notFeed : c ≠ '\n' := fun same => goes (Or.inl same)
    rw [Text.with_returns_cons rest notFeed, Cell.ofText]
    · rw [if_neg goes]
      simp only [ih, push, List.cons_append, Nat.add_assoc, Nat.add_comm 1, List.drop_succ_cons]
    · intro d tail same split
      cases rest with
      | nil => cases split
      | cons e others => exact notEscape e others same rfl

/-- What a lexeme stands for when line feeds have returns before them, and whether text to be
matched then ends in one. -/
inductive LexemeKind.Returned : Bool → LexemeKind → LexemeKind → Prop
  | token (kind : TokenKind) : Returned false (.token kind) (.token kind)
  | kept (text : Text) :
      Returned true (.token (.matchText text)) (.token (.matchText (text ++ ['\r'])))
  | comment {body other : Text} (breaksLine : Bool)
      (code : Comment.codeOf? other = Comment.codeOf? body) :
      Returned false (.comment body breaksLine) (.comment other breaksLine)
  | trivia : Returned false .trivia .trivia

theorem LexemeKind.matched_returned (kept : Bool) (text : Text) :
    Returned kept (.token (.matchText text))
      (.token (.matchText (text ++ if kept then ['\r'] else []))) := by
  cases kept with
  | true => exact Returned.kept text
  | false => simpa using Returned.token (.matchText text)

theorem LexemeKind.returned_self (kind : LexemeKind) : Returned false kind kind := by
  cases kind with
  | token kind => exact Returned.token kind
  | comment body breaksLine => exact Returned.comment breaksLine rfl
  | trivia => exact Returned.trivia

theorem LexemeKind.same_iff_of_returned {kept : Bool} {kind other : TokenKind}
    (returned : Returned kept (.token kind) (.token other)) : other = kind ↔ kept = false := by
  cases returned with
  | token => simp
  | kept text => simp

theorem LexemeKind.structural_of_returned {kept : Bool} {kind other : TokenKind}
    (returned : Returned kept (.token kind) (.token other)) :
    other.isStructural = kind.isStructural := by
  cases returned <;> rfl

/-- A lexeme of a text and that of the text with returns. They leave the line in one state, and
each leaves its own text. -/
structure Lexeme.Returned (kept : Bool) (text : Text) (lexeme other : Lexeme) : Prop where
  kind : LexemeKind.Returned kept lexeme.kind other.kind
  state : other.state = lexeme.state
  behind : Text.Returned (text.drop lexeme.width) ((Text.pastReturn text).drop other.width)

/-- A lexeme is as with returns unless it is a doc string, of which nothing is said. -/
def Lexeme.ReturnedOrDocString (kept : Bool) (text : Text) (lexeme other : Lexeme) : Prop :=
  (∃ content, lexeme.kind = .token (.docString content)) ∨ Returned kept text lexeme other

theorem Lexeme.returned_ite {p : Prop} [Decidable p] {kept : Bool} {text : Text}
    {first second firstOther secondOther : Lexeme}
    (yes : p → ReturnedOrDocString kept text first firstOther)
    (no : ¬p → ReturnedOrDocString kept text second secondOther) :
    ReturnedOrDocString kept text (if p then first else second)
      (if p then firstOther else secondOther) := by
  split_ifs with holds
  · exact yes holds
  · exact no holds

/-- Whether a backslash before a text is text to be matched up to a line feed. -/
def Text.escapesLine : Text → Bool
  | [] => false
  | c :: rest => c == '\n' || c != '#' && endsLine isSymbol rest

/-- Whether the next lexeme is text to be matched that goes up to a line feed untrimmed. -/
def LineState.keepsReturn (state : LineState) : Text → Bool
  | [] => false
  | c :: rest =>
    if c = '<' then Text.endsLine (· == '>') rest
    else if c = '\\' && !state.atStart && state.scope.isNone then Text.escapesLine rest
    else false

namespace Lexeme

theorem drop_behind (c : Char) (text : Text) (read more : Nat) :
    (c :: text).drop (1 + read + more) = (text.drop read).drop more := by
  rw [List.drop_drop, Nat.add_assoc, Nat.add_comm 1, List.drop_succ_cons]

theorem comment_returned (state : LineState) (rest : Text) :
    Returned false ('#' :: rest) (comment state rest) (comment state (Text.withReturns rest)) := by
  have behind := Text.drop_line_returns rest
  refine ⟨?_, rfl, ?_⟩
  · simp only [comment, behind, Text.past_return_head]
    rw [Text.rest_of_line_returns]
    exact LexemeKind.Returned.comment _ (Comment.code_append_return _ _)
  · simp only [comment, Text.past_return_cons, drop_behind, behind, Text.past_return_head]
    split
    · exact Text.returned_behind _
    · exact Or.inr rfl

theorem tag_returned (state : LineState) (rest : Text) :
    Returned false ('@' :: rest) (tag state rest) (tag state (Text.withReturns rest)) := by
  have name : (Text.withReturns rest).takeWhile Text.isTagChar = rest.takeWhile Text.isTagChar :=
    Text.take_while_before_returns (by decide) (by decide) rest
  refine ⟨?_, rfl, ?_⟩
  · simp only [tag, name]
    exact LexemeKind.Returned.token _
  · simp only [tag, name, Text.past_return_cons, Nat.add_comm 1, List.drop_succ_cons]
    exact Or.inl (Text.drop_with_returns (Text.run_unbroken (by decide) rest))

theorem cell_returned (state : LineState) (rest : Text) :
    Returned false ('|' :: rest) (cell state rest) (cell state (Text.withReturns rest)) := by
  have behind := Text.drop_past_return (Cell.feed_not_mem_taken {} rest)
  refine ⟨?_, rfl, ?_⟩
  · simp only [cell, Cell.of_text_returns, behind, Text.past_return_head]
    split
    · next closed =>
      rw [Text.return_before_of_head (beq_iff_eq.mp closed) (by decide), List.append_nil]
      exact LexemeKind.Returned.token _
    · exact LexemeKind.Returned.trivia
  · simp only [cell, Cell.of_text_returns, Text.past_return_cons, Nat.add_comm 1,
      List.drop_succ_cons]
    exact Or.inr behind

theorem placeholder_returned (state : LineState) (rest : Text) :
    Returned (Text.endsLine (· == '>') rest) ('<' :: rest) (placeholder state rest)
      (placeholder state (Text.withReturns rest)) := by
  have name := Text.line_until_returns (· == '>') (by decide) rest
  have behind := Text.drop_line_until_returns (· == '>') (by decide) rest
  unfold placeholder
  dsimp only
  rw [behind, Text.past_return_head]
  split_ifs with closed
  · have same := name
    rw [Text.return_before_of_head closed (by decide), List.append_nil] at same
    rw [Text.not_ends_line_of_head closed (by decide), same]
    refine ⟨LexemeKind.Returned.token _, rfl, ?_⟩
    rw [same] at behind
    simp only [Text.past_return_cons, drop_behind, behind]
    exact Text.returned_behind _
  · refine ⟨?_, rfl, ?_⟩
    · rw [name, Text.return_before_stop]
      exact LexemeKind.matched_returned _ _
    · simp only [Text.past_return_cons, Nat.add_comm 1, List.drop_succ_cons, behind]
      exact Or.inr rfl

section
variable {text : Text} (whole : Text.pastReturn text = Text.withReturns text)
include whole

theorem fence_run_returned : Text.fenceRun (Text.pastReturn text) = Text.fenceRun text := by
  rw [whole]
  exact Text.take_while_before_returns (by decide) (by decide) text

theorem doc_string_returned (state : LineState) :
    ReturnedOrDocString false text (docString state text)
      (docString state (Text.pastReturn text)) := by
  unfold docString
  rw [fence_run_returned whole]
  dsimp only
  split_ifs with fence
  · exact Or.inl ⟨_, rfl⟩
  · refine Or.inr ⟨LexemeKind.Returned.token _, rfl, ?_⟩
    rw [whole]
    exact Or.inl (Text.drop_with_returns (Text.run_unbroken (by decide) text))

theorem description_returned (state : LineState) :
    Returned false text (description state text) (description state (Text.pastReturn text)) := by
  refine ⟨?_, rfl, ?_⟩
  · simp only [description, whole, Text.rest_of_line_returns, Text.trim_append_return]
    exact LexemeKind.Returned.token _
  · simp only [description, whole, Text.drop_line_returns]
    exact Or.inr rfl

theorem keyword_returned (kind : TokenKind) (state : LineState) {length : Nat}
    (unbroken : '\n' ∉ text.take length) :
    Returned false text (keyword kind state length text)
      (keyword kind state length (Text.pastReturn text)) := by
  refine ⟨LexemeKind.Returned.token kind, rfl, ?_⟩
  simp only [keyword, whole, ← List.drop_drop, Text.drop_with_returns unbroken]
  rw [Text.drop_run_returns (by decide) (by decide)]
  exact Or.inr rfl

theorem resolve_returned {language : Language} (free : language.NoReturns) :
    language.resolve (Text.lineUntil (· == ':') (Text.pastReturn text)) =
      language.resolve (Text.lineUntil (· == ':') text) := by
  rw [whole, Text.line_until_returns _ (by decide), Language.resolve_append_return free]

theorem line_start_returned {language : Language} (free : language.NoReturns) (state : LineState) :
    ReturnedOrDocString false text (lineStart language state text)
      (lineStart language state (Text.pastReturn text)) := by
  unfold lineStart
  rw [fence_run_returned whole]
  split_ifs with fence
  · exact doc_string_returned whole state
  have unbroken : '\n' ∉ text.take (Text.lineUntil (· == ':') text).length :=
    Text.run_unbroken (by simp) text
  have behind := Text.drop_line_until_returns (· == ':') (by decide) text
  rw [← whole] at behind
  refine Or.inr ?_
  dsimp only
  rw [resolve_returned whole free, behind, Text.past_return_head]
  split
  · next step length found =>
    have inside := Language.resolve_length_le found
    exact keyword_returned whole _ _ (Text.take_unbroken unbroken inside)
  · next scope _ _ found =>
    split_ifs with counts
    · have colon := beq_iff_eq.mp (Bool.and_eq_true_iff.mp counts).2
      have head := Text.line_until_returns (· == ':') (by decide) text
      rw [Text.return_before_of_head colon (by decide), List.append_nil, ← whole] at head
      rw [head]
      exact keyword_returned whole _ _ (Text.take_succ_unbroken unbroken colon (by decide))
    · exact description_returned whole state
  · exact description_returned whole state

theorem open_line_returned {language : Language} (free : language.NoReturns) (state : LineState) :
    ReturnedOrDocString false text (openLine language state text)
      (openLine language state (Text.pastReturn text)) := by
  have spaces := Text.take_while_returns (p := Text.isSpace) (by decide) (by decide) text
  have behind := Text.drop_run_returns (p := Text.isSpace) (by decide) (by decide) text
  rw [← whole] at spaces behind
  have empty : ((Text.pastReturn text).takeWhile Text.isSpace).isEmpty =
      (text.takeWhile Text.isSpace).isEmpty := by
    rw [spaces]
    cases none : text.takeWhile Text.isSpace with
    | nil => exact List.isEmpty_iff.mpr (Text.return_before_of_whole whole)
    | cons c rest => rfl
  unfold openLine
  dsimp only
  rw [empty]
  split_ifs with none
  · exact line_start_returned whole free state
  · refine Or.inr ⟨LexemeKind.Returned.trivia, rfl, ?_⟩
    rw [behind]
    exact Or.inr rfl

theorem stretch_returned (kind : Text → TokenKind) (state : LineState) {stop : Char → Bool}
    (goes : stop '\r' = false) (some : Text.lineUntil stop text ≠ []) :
    Returned false text (stretch kind state stop text)
      (stretch kind state stop (Text.pastReturn text)) := by
  have read := Text.line_until_returns stop goes text
  have behind := Text.drop_line_until_returns stop goes text
  rw [← whole] at read behind
  have shown :
      (if Text.atLineEnd (text.drop (Text.lineUntil stop text).length) then
        Text.trimEnd Text.isSpace (Text.lineUntil stop (Text.pastReturn text))
      else Text.lineUntil stop (Text.pastReturn text)) =
      if Text.atLineEnd (text.drop (Text.lineUntil stop text).length) then
        Text.trimEnd Text.isSpace (Text.lineUntil stop text)
      else Text.lineUntil stop text := by
    rw [read]
    split_ifs with ended
    · exact Text.trim_end_append_return _ _
    · rw [Text.return_before_of_not_ended (Bool.not_eq_true _ ▸ ended), List.append_nil]
  have someAgain : Text.lineUntil stop (Text.pastReturn text) ≠ [] := by simp [read, some]
  unfold stretch
  simp only [List.isEmpty_eq_false_iff.mpr some, List.isEmpty_eq_false_iff.mpr someAgain,
    Bool.false_and, Bool.false_eq_true, ↓reduceIte, behind, Text.at_line_end_past_return, shown]
  refine ⟨LexemeKind.returned_self _, rfl, ?_⟩
  rw [behind]
  exact Or.inr rfl

end

-- Behind a backslash one character is read whatever it means, and then text up to a symbol.
theorem escape_cons (state : LineState) {c : Char} (rest : Text) (notFeed : c ≠ '\n')
    (notMark : c ≠ '#') :
    escape state (c :: rest) =
      ⟨.token (.matchText ((if Text.isSymbol c then [c] else ['\\', c]) ++
        Text.lineUntil Text.isSymbol rest)),
        2 + (Text.lineUntil Text.isSymbol rest).length, state⟩ := by
  cases symbol : Text.isSymbol c with
  | true => simp [escape, Option.filter, symbol, notFeed, notMark]
  | false =>
    have read := Text.line_until_cons rest notFeed symbol
    simp [escape, Option.filter, symbol, read, Nat.add_comm, ← Nat.add_assoc]

theorem escape_returned (state : LineState) (rest : Text) :
    Returned (Text.escapesLine rest) ('\\' :: rest) (escape state rest)
      (escape state (Text.withReturns rest)) := by
  cases rest with
  | nil => exact ⟨LexemeKind.Returned.token _, rfl, Or.inl rfl⟩
  | cons c tail =>
    by_cases feed : c = '\n'
    · subst feed
      exact ⟨LexemeKind.Returned.kept ['\\'], rfl, Or.inr rfl⟩
    rw [Text.with_returns_cons tail feed]
    by_cases mark : c = '#'
    · subst mark
      exact ⟨LexemeKind.Returned.token _, rfl, Or.inl rfl⟩
    have flag : Text.escapesLine (c :: tail) = Text.endsLine Text.isSymbol tail := by
      rw [Text.escapesLine, beq_eq_false_iff_ne.mpr feed, bne_iff_ne.mpr mark, Bool.false_or,
        Bool.true_and]
    have read := Text.line_until_returns Text.isSymbol (by decide) tail
    have behind := Text.drop_line_until_returns Text.isSymbol (by decide) tail
    rw [escape_cons state _ feed mark, escape_cons state _ feed mark, flag]
    refine ⟨?_, rfl, ?_⟩
    · rw [read, Text.return_before_stop, ← List.append_assoc]
      exact LexemeKind.matched_returned _ _
    · simp only [Text.past_return_cons, Text.with_returns_cons tail feed, Nat.add_comm 2,
        List.drop_succ_cons, behind]
      exact Or.inr rfl

theorem keeps_return_of_plain {state : LineState} {c : Char} (rest : Text) (notBracket : c ≠ '<')
    (notEscape : c ≠ '\\' ∨ state.atStart = true ∨ state.scope.isSome = true) :
    state.keepsReturn (c :: rest) = false := by
  rw [LineState.keepsReturn, if_neg notBracket, if_neg]
  intro escapes
  rcases notEscape with plain | unread | titled <;> simp_all

theorem keeps_return_of_escape {state : LineState} (rest : Text) (read : ¬state.atStart = true)
    (untitled : ¬state.scope.isSome = true) :
    state.keepsReturn ('\\' :: rest) = Text.escapesLine rest := by
  rw [LineState.keepsReturn, if_neg (by decide), if_pos (by simp_all)]

theorem read_returned {language : Language} (free : language.NoReturns) (state : LineState)
    (c : Char) (rest : Text) :
    ReturnedOrDocString (state.keepsReturn (c :: rest)) (c :: rest) (read language state c rest)
      (read language state c (Text.withReturns rest)) := by
  unfold read
  refine returned_ite (fun feed => Or.inr ?_) fun notFeed => ?_
  · subst feed
    exact ⟨LexemeKind.returned_self _, rfl, Or.inl rfl⟩
  have whole : Text.pastReturn (c :: rest) = Text.withReturns (c :: rest) :=
    (Text.with_returns_cons rest notFeed).symm
  refine returned_ite (fun mark => Or.inr ?_) fun notMark => ?_
  · subst mark
    exact comment_returned state rest
  refine returned_ite (fun tagged => Or.inr ?_) fun notTag => ?_
  · subst tagged
    exact tag_returned state rest
  refine returned_ite (fun bar => Or.inr ?_) fun notBar => ?_
  · subst bar
    exact cell_returned state rest
  refine returned_ite (fun bracket => Or.inr ?_) fun notBracket => ?_
  · subst bracket
    exact placeholder_returned state rest
  refine returned_ite (fun unread => ?_) fun read => ?_
  · rw [keeps_return_of_plain rest notBracket (Or.inr (Or.inl unread))]
    exact open_line_returned whole free state
  refine returned_ite (fun titled => Or.inr ?_) fun untitled => ?_
  · rw [keeps_return_of_plain rest notBracket (Or.inr (Or.inr titled))]
    apply stretch_returned whole .title state (by decide)
    simp [Text.line_until_cons rest notFeed, notBracket]
  refine returned_ite (fun fence => ?_) fun notFence => ?_
  · have notEscape : c ≠ '\\' := by
      rintro rfl
      cases fence
    rw [keeps_return_of_plain rest notBracket (Or.inl notEscape)]
    exact doc_string_returned whole state
  refine returned_ite (fun escapes => Or.inr ?_) fun notEscape => ?_
  · subst escapes
    rw [keeps_return_of_escape rest read untitled]
    exact escape_returned state rest
  rw [keeps_return_of_plain rest notBracket (Or.inl notEscape)]
  refine returned_ite (fun _ => Or.inr ?_) fun _ => Or.inr ?_
  · have plain : Text.isSymbol c = false := by
      simp [Text.isSymbol, notFeed, notMark, notTag, notBar, notBracket, notFence, notEscape]
    apply stretch_returned whole .matchText state (by decide)
    simp [Text.line_until_cons rest notFeed plain]
  · exact ⟨LexemeKind.Returned.trivia, rfl, Or.inl rfl⟩

end Lexeme
end Gherkin
