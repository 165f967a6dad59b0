import Gherkin.Proofs.Scan.DocString
import Gherkin.Proofs.Scan.StepText
import Gherkin.Proofs.Scan.WholeLines
import Gherkin.Proofs.Token.Payload
/-!
Step text as it stands. Behind a step keyword, text without escapes and fences is cut into text to
be matched and placeholders, and nothing of it is lost but spaces at either end: what is cut, with
the brackets of its placeholders, is the text again. A bracket that is not closed takes the rest of
the line, and a run of quotes and backticks that is no fence is a piece of its own.
-/
namespace Gherkin

/-- A token of a step's text as it is written on the line. -/
def TokenKind.written? : TokenKind → Option Text
  | .matchText text => some text
  | .tableHeader name => some ('<' :: name ++ ['>'])
  | _ => none

/-- Whether tokens stand for a text, each for a piece of it and in order; behind the last piece are
only spaces. -/
def Spells (kinds : List TokenKind) (text : Text) : Prop :=
  ∃ (pieces : List Text) (back : Text), kinds.map TokenKind.written? = pieces.map some ∧
    pieces.flatten ++ back = text ∧ ∀ c ∈ back, Text.isSpace c = true

theorem spells_nil {spaces : Text} (blank : ∀ c ∈ spaces, Text.isSpace c = true) :
    Spells [] spaces := ⟨[], spaces, rfl, rfl, blank⟩

theorem Spells.cons {kinds : List TokenKind} {kind : TokenKind} {piece text : Text}
    (written : kind.written? = some piece) (later : Spells kinds text) :
    Spells (kind :: kinds) (piece ++ text) := by
  obtain ⟨pieces, back, same, rfl, blank⟩ := later
  refine ⟨piece :: pieces, back, ?_, ?_, blank⟩
  · rw [List.map_cons, written, same, List.map_cons]
  · rw [List.flatten_cons, List.append_assoc]

namespace Text

/-- Whether a step's text holds nothing but text and placeholders: it has no mark of a comment, a
tag, a cell or an escape, and no run of quotes and backticks that nothing goes on at either end is a
fence. -/
@[mk_iff] structure IsVerbatim (text : Text) : Prop where
  unmarked : '#' ∉ text ∧ '@' ∉ text ∧ '|' ∉ text ∧ '\\' ∉ text
  unfenced : ∀ place < text.length, (text.take place).getLast?.any isFenceMark = false →
    isFence (fenceRun (text.drop place)) = false

instance (text : Text) : Decidable text.IsVerbatim :=
  decidable_of_iff' _ (isVerbatim_iff text)

variable {text piece later more : Text} {c : Char}

theorem no_fence_of_unmarked (unmarked : text.head?.any isFenceMark = false) :
    isFence (fenceRun text) = false := by
  cases text with
  | nil => rfl
  | cons c rest =>
    have none : fenceRun (c :: rest) = [] := List.takeWhile_cons_of_neg (by simpa using unmarked)
    rw [none]
    rfl

-- A run of a text is a run of what it ends in, unless the text is cut within it.
theorem IsVerbatim.behind (verbatim : IsVerbatim (piece ++ later))
    (cut : piece.getLast?.any isFenceMark = false ∨ later.head?.any isFenceMark = false) :
    IsVerbatim later where
  unmarked := by
    have unmarked := verbatim.unmarked
    simp only [List.mem_append, not_or] at unmarked
    exact ⟨unmarked.1.2, unmarked.2.1.2, unmarked.2.2.1.2, unmarked.2.2.2.2⟩
  unfenced := by
    intro place inside before
    have whole := verbatim.unfenced (piece.length + place) (by simpa using inside)
    rw [List.take_length_add_append, List.drop_length_add_append, List.getLast?_append] at whole
    cases place with
    | zero =>
      rcases cut with ends | begins
      · exact whole ends
      · exact no_fence_of_unmarked begins
    | succ place =>
      obtain ⟨first, rest, rfl⟩ := List.exists_cons_of_length_pos (Nat.zero_lt_of_lt inside)
      rw [List.take_succ_cons, List.getLast?_cons] at before whole
      exact whole before

theorem IsVerbatim.cases (verbatim : IsVerbatim text) (begins : text.head? = some c)
    (notFeed : c ≠ '\n') : c = '<' ∨ isFenceMark c = true ∨ isSymbol c = false := by
  have member := List.mem_of_head? begins
  obtain ⟨comment, tag, cell, escape⟩ := verbatim.unmarked
  have others : c ≠ '#' ∧ c ≠ '@' ∧ c ≠ '|' ∧ c ≠ '\\' :=
    ⟨ne_of_mem_of_not_mem member comment, ne_of_mem_of_not_mem member tag,
      ne_of_mem_of_not_mem member cell, ne_of_mem_of_not_mem member escape⟩
  by_cases bracket : c = '<'
  · exact Or.inl bracket
  · cases mark : isFenceMark c with
    | true => exact Or.inr (Or.inl rfl)
    | false => exact Or.inr (Or.inr (by simp [isSymbol, notFeed, others, bracket, mark]))

-- Spaces at the start of a line are on the line.
theorem drop_spaces_append_ended (ended : atLineEnd more = true) (text : Text) :
    (text ++ more).dropWhile isSpace = text.dropWhile isSpace ++ more := by
  have stays : more.dropWhile isSpace = more := by
    cases more with
    | nil => rfl
    | cons c rest =>
      obtain rfl := feed_of_at_line_end ended c rfl
      rfl
  rw [List.dropWhile_append, stays]
  split
  · next none => rw [List.isEmpty_iff.mp none, List.nil_append]
  · rfl

theorem IsVerbatim.past_spaces (verbatim : IsVerbatim text) :
    IsVerbatim (text.dropWhile isSpace) := by
  rw [← @List.takeWhile_append_dropWhile _ isSpace text] at verbatim
  refine verbatim.behind (Or.inl ?_)
  cases last : (text.takeWhile isSpace).getLast? with
  | none => rfl
  | some c =>
    have space := List.mem_takeWhile_imp (List.mem_of_getLast? last)
    exact (marks_of_not_symbol (not_symbol_of_space space)).2.2.2.2.2.1

theorem rest_of_line_parts (text : Text) :
    ∃ more, text = restOfLine text ++ more ∧ atLineEnd more = true := by
  refine ⟨text.drop (restOfLine text).length, ?_, rest_of_line_ends text⟩
  rw [restOfLine, drop_run, List.takeWhile_append_dropWhile]

end Text

namespace Lexeme
variable {language : Language} {state : LineState} {text name run later rest more : Text}

theorem first_placeholder (closed : '>' ∉ name) (unbroken : '\n' ∉ name)
    (read : state.atStart = false) (rest : Text) :
    First language state ('<' :: name ++ ['>'] ++ rest)
      ⟨.token (.tableHeader name), ('<' :: name ++ ['>']).length, state⟩ := by
  have ahead : Text.lineUntil (· == '>') (name ++ '>' :: rest) = name :=
    Text.line_until_exact (Text.unstopped_of_not_mem unbroken closed) fun c first => by
      cases first
      exact Or.inr rfl
  refine ⟨'<', name ++ '>' :: rest, by simp, ?_⟩
  have passed : Lexeme.read language state '<' (name ++ '>' :: rest) =
      placeholder state (name ++ '>' :: rest) := rfl
  rw [passed, placeholder]
  simp only [ahead, List.drop_left, List.head?_cons, if_true, LineState.opened_of_read read]
  simp [Nat.add_comm]

theorem first_bracket (opened : '>' ∉ rest) (unbroken : '\n' ∉ rest) (read : state.atStart = false)
    (ended : Text.atLineEnd more = true) :
    First language state ('<' :: rest ++ more)
      ⟨.token (.matchText ('<' :: rest)), ('<' :: rest).length, state⟩ := by
  have stopped := Text.feed_of_at_line_end ended
  have ahead : Text.lineUntil (· == '>') (rest ++ more) = rest :=
    Text.line_until_exact (Text.unstopped_of_not_mem unbroken opened)
      fun c first => Or.inl (stopped c first)
  have unclosed : more.head? ≠ some '>' := fun first => absurd (stopped '>' first) (by decide)
  refine ⟨'<', rest ++ more, rfl, ?_⟩
  have passed : Lexeme.read language state '<' (rest ++ more) = placeholder state (rest ++ more) :=
    rfl
  rw [passed, placeholder]
  simp only [ahead, List.drop_left]
  rw [if_neg unclosed, LineState.opened_of_read read]
  simp [Nat.add_comm]

theorem first_fence_run {c : Char} (mark : Text.isFenceMark c = true)
    (ahead : Text.fenceRun (c :: rest) = run) (unfenced : Text.isFence run = false)
    (read : state.atStart = false) (untitled : state.scope = none) :
    First language state (c :: rest) ⟨.token (.matchText run), run.length, state⟩ := by
  refine ⟨c, rest, rfl, ?_⟩
  rw [read_of_mark language rest mark (by rw [read]; exact untitled), docString]
  simp only [ahead, unfenced, LineState.opened_of_read read]
  rfl

/-- Whether a step's text begins with a token that stands for what it takes of the text, and is cut
behind it where no run of quotes and backticks goes on. -/
def FirstWritten (language : Language) (state : LineState) (text : Text) : Prop :=
  ∃ front later kind, front ≠ [] ∧ text = front ++ later ∧ TokenKind.written? kind = some front ∧
    later.IsVerbatim ∧ ∀ more, Text.atLineEnd more = true →
      First language state (front ++ (later ++ more)) ⟨.token kind, front.length, state⟩

section Step
variable (read : state.atStart = false) (verbatim : text.IsVerbatim) (unbroken : '\n' ∉ text)
include read verbatim unbroken

theorem first_written_bracket (begins : text.head? = some '<') :
    FirstWritten language state text := by
  obtain ⟨rest, rfl⟩ := List.head?_eq_some_iff.mp begins
  have unbrokenRest := (List.ne_and_not_mem_of_not_mem_cons unbroken).2
  by_cases closed : '>' ∈ rest
  · obtain ⟨name, later, rfl, apart⟩ := List.eq_append_cons_of_mem closed
    have whole : '<' :: (name ++ '>' :: later) = '<' :: name ++ ['>'] ++ later := by simp
    have inName : '\n' ∉ name := fun member => unbrokenRest (List.mem_append_left _ member)
    have cut : ('<' :: name ++ ['>']).getLast?.any Text.isFenceMark = false := by
      rw [List.getLast?_concat]
      rfl
    rw [whole] at verbatim ⊢
    exact ⟨_, later, .tableHeader name, List.cons_ne_nil _ _, rfl, rfl,
      verbatim.behind (Or.inl cut), fun more _ => first_placeholder apart inName read (later ++ more)⟩
  · exact ⟨'<' :: rest, [], .matchText ('<' :: rest), List.cons_ne_nil _ _,
      (List.append_nil _).symm, rfl, by decide,
      fun more ended => first_bracket closed unbrokenRest read ended⟩

variable (untitled : state.scope = none)
include untitled

omit unbroken in
theorem first_written_run {c : Char} (begins : text.head? = some c)
    (mark : Text.isFenceMark c = true) : FirstWritten language state text := by
  obtain ⟨rest, rfl⟩ := List.head?_eq_some_iff.mp begins
  have whole := @List.takeWhile_append_dropWhile _ Text.isFenceMark (c :: rest)
  have opens : Text.fenceRun (c :: rest) ≠ [] := by simp [Text.fenceRun, mark]
  have unfenced := verbatim.unfenced 0 (Nat.zero_lt_succ _) rfl
  refine ⟨Text.fenceRun (c :: rest), (c :: rest).dropWhile Text.isFenceMark,
    .matchText (Text.fenceRun (c :: rest)), opens, whole.symm, rfl, ?_, fun more ended => ?_⟩
  · rw [← whole] at verbatim
    exact verbatim.behind (Or.inr (Text.unmarked_behind_run _))
  · rw [← List.append_assoc, Text.fenceRun, whole]
    exact first_fence_run mark (Text.run_append_ended rfl ended (c :: rest)) unfenced read untitled

-- Plain text in front of a symbol is not trimmed.
theorem first_written_plain (stepped : state.keyword.isSome = true) {c symbol : Char}
    (begins : text.head? = some c) (plain : Text.isSymbol c = false) (member : symbol ∈ text)
    (isSymbol : Text.isSymbol symbol = true) : FirstWritten language state text := by
  obtain ⟨run, later, rfl, plainRun, stopped⟩ := Text.plain_front text
  have opens : run ≠ [] := by
    rintro rfl
    exact Bool.noConfusion (plain.symm.trans (stopped c begins))
  have goesOn : later ≠ [] := by
    rintro rfl
    rw [List.append_nil] at member
    exact Bool.noConfusion ((plainRun symbol member).symm.trans isSymbol)
  obtain ⟨d, others, rfl⟩ := List.exists_cons_of_ne_nil goesOn
  have stops : Text.isSymbol d = true := stopped d rfl
  have notFeed : d ≠ '\n' := by
    rintro rfl
    exact unbroken (by simp)
  have cut : run.getLast?.any Text.isFenceMark = false := by
    cases last : run.getLast? with
    | none => rfl
    | some e =>
      exact (Text.marks_of_not_symbol (plainRun e (List.mem_of_getLast? last))).2.2.2.2.2.1
  refine ⟨run, d :: others, .matchText run, opens, rfl, rfl, verbatim.behind (Or.inl cut),
    fun more _ => first_run read untitled stepped opens plainRun ?_ ?_⟩
  · refine Text.line_until_exact (fun e inside => ?_) fun e first => ?_
    · exact ⟨Text.ne_feed_of_not_symbol (plainRun e inside), plainRun e inside⟩
    · cases first
      exact Or.inr stops
  · intro ended
    exact absurd (Text.feed_of_at_line_end ended d rfl) notFeed

theorem first_written (stepped : state.keyword.isSome = true)
    (marked : ∃ c ∈ text, Text.isSymbol c = true) : FirstWritten language state text := by
  obtain ⟨symbol, member, isSymbol⟩ := marked
  obtain ⟨c, rest, whole⟩ := List.exists_cons_of_ne_nil (List.ne_nil_of_mem member)
  have begins : text.head? = some c := by rw [whole]; rfl
  have notFeed : c ≠ '\n' := by
    rintro rfl
    exact unbroken (List.mem_of_head? begins)
  rcases verbatim.cases begins notFeed with rfl | mark | plain
  · exact first_written_bracket read verbatim unbroken begins
  · exact first_written_run read verbatim untitled begins mark
  · exact first_written_plain read verbatim unbroken untitled stepped begins plain member isSymbol

end Step

-- Spaces that end the line stand for nothing.
theorem stretch_blank (make : Text → TokenKind) (state : LineState) {stop : Char → Bool}
    (begun : text ≠ []) (inside : ∀ c ∈ text, c ≠ '\n' ∧ stop c = false)
    (blank : ∀ c ∈ text, Text.isSpace c = true) (ended : Text.atLineEnd more = true) :
    stretch make state stop (text ++ more) = ⟨.trivia, text.length, state⟩ := by
  have ahead : Text.lineUntil stop (text ++ more) = text :=
    Text.line_until_exact inside fun c first => Or.inl (Text.feed_of_at_line_end ended c first)
  have none : Text.trimEnd Text.isSpace text = [] := by
    rw [← List.nil_append text, Text.trim_end_append blank]
    rfl
  have opened : text.isEmpty = false := List.isEmpty_eq_false_iff.mpr begun
  simp [stretch, ahead, opened, ended, none]

end Lexeme

namespace LineState
variable {context : ScanContext} {state after : LineState} {front rest : Text}
  {kinds : List TokenKind}

section Step
variable (read : state.atStart = false) (untitled : state.scope = none)
include read untitled

-- Plain text that ends the line is trimmed, and when it is all spaces it gives no token at all.
theorem gives_last_run (stepped : state.keyword.isSome = true) {run : Text} (shown : run ≠ [])
    (plain : ∀ c ∈ run, Text.isSymbol c = false) :
    ∃ kinds, Spells kinds run ∧ Gives context state run kinds := by
  have inside : ∀ c ∈ run, c ≠ '\n' ∧ Text.isSymbol c = false := fun c member =>
    ⟨Text.ne_feed_of_not_symbol (plain c member), plain c member⟩
  have first {lexeme : Lexeme} {more : Text}
      (stretched : Lexeme.stretch .matchText state Text.isSymbol (run ++ more) = lexeme) :
      Lexeme.First context.language state (run ++ more) lexeme := by
    obtain ⟨c, others, rfl⟩ := List.exists_cons_of_ne_nil shown
    refine ⟨c, others ++ more, rfl, ?_⟩
    rw [Lexeme.read_plain _ _ read untitled stepped (plain c List.mem_cons_self)]
    exact stretched
  obtain ⟨back, whole, blank⟩ := Text.trim_end_parts Text.isSpace run
  by_cases visible : Text.trimEnd Text.isSpace run = []
  · rw [visible, List.nil_append] at whole
    rw [← whole] at blank
    refine ⟨[], spells_nil blank, ?_⟩
    rw [← List.append_nil run]
    exact gives_behind_trivia (fun more ended =>
      first (Lexeme.stretch_blank .matchText state shown inside blank ended))
      (gives_nil context state)
  · have written : TokenKind.written? (.matchText (Text.trimEnd Text.isSpace run)) =
        some (Text.trimEnd Text.isSpace run) := rfl
    have spells := (spells_nil blank).cons written
    rw [← whole] at spells
    have stretched (more : Text) (ended : Text.atLineEnd more = true) :=
      Lexeme.stretch_to_line_end .matchText state visible (whole ▸ inside) blank
        (fun _ => Text.trim_end_last) ended
    rw [← whole] at stretched
    exact ⟨_, spells, gives_one fun more ended => first (stretched more ended)⟩

-- By recursion on what is left of the text behind its first piece.
theorem gives_verbatim (stepped : state.keyword.isSome = true) (text : Text)
    (verbatim : text.IsVerbatim) (unbroken : '\n' ∉ text) :
    ∃ kinds, Spells kinds text ∧ Gives context state text kinds := by
  by_cases marked : ∃ c ∈ text, Text.isSymbol c = true
  · obtain ⟨front, later, kind, opens, rfl, written, verbatimLater, first⟩ :=
      @Lexeme.first_written context.language _ _ read verbatim unbroken untitled stepped marked
    have shorter : later.length < (front ++ later).length := by
      rw [List.length_append]
      exact Nat.lt_add_of_pos_left (List.length_pos_iff.mpr opens)
    obtain ⟨kinds, spells, gives⟩ := gives_verbatim stepped later verbatimLater
      fun member => unbroken (List.mem_append_right _ member)
    exact ⟨kind :: kinds, spells.cons written, gives_cons first gives⟩
  · have plain : ∀ c ∈ text, Text.isSymbol c = false := fun c member =>
      Bool.eq_false_iff.mpr fun symbol => marked ⟨c, member, symbol⟩
    by_cases shown : text = []
    · subst shown
      exact ⟨[], spells_nil (List.forall_mem_nil _), gives_nil context state⟩
    · exact gives_last_run read untitled stepped shown plain
termination_by text.length

end Step

end LineState

theorem Spells.inline {kinds : List TokenKind} {text : Text} (spells : Spells kinds text) :
    ∀ kind ∈ kinds, kind.isNewLine = false := by
  obtain ⟨pieces, back, written, _⟩ := spells
  intro kind member
  have image : kind.written? ∈ pieces.map some := written ▸ List.mem_map_of_mem member
  obtain ⟨piece, _, same⟩ := List.mem_map.mp image
  cases kind <;> first | rfl | cases same

theorem step_text_verbatim {text : Text} {source : Option Text} {context reached : ScanContext}
    {lexer after : Lexer} {position : Position} {keyword : StepKeyword}
    (way : (Lexer.ofText text source).Reaches context reached lexer)
    (found : lexer.read reached.language = some (.token ⟨position, .keyword keyword⟩, after)) :
    ∃ length,
      reached.language.resolve (Text.lineUntil (· == ':') lexer.cursor.ahead) =
        some ⟨.step keyword, length⟩ ∧
      let rest := Text.restOfLine (lexer.cursor.ahead.drop length)
      let line := ((after.drain reached).tokens.map (·.kind)).takeWhile (!·.isNewLine)
      (rest.IsVerbatim → Spells line (rest.dropWhile Text.isSpace)) := by
  have fresh := Lexer.reaches_invariant Lexer.Fresh Lexer.read_fresh way fun _ => rfl
  obtain ⟨lexeme, reads, isStep, _, rfl⟩ := Lexer.read_token_inversion found
  obtain ⟨unread, length, resolved, rfl⟩ := Lexeme.step_of_reads reads isStep
  refine ⟨length, resolved, fun verbatim => ?_⟩
  let behind := lexer.cursor.ahead.drop length
  obtain ⟨more, whole, ended⟩ := Text.rest_of_line_parts behind
  have untitled : lexer.state.scope = none := by rw [fresh unread]
  have unbroken : '\n' ∉ (Text.restOfLine behind).dropWhile Text.isSpace := fun member =>
    Text.feed_not_mem_rest_of_line behind ((List.dropWhile_suffix _).subset member)
  obtain ⟨kinds, spells, gives⟩ :=
    @LineState.gives_verbatim reached { lexer.state.opened with keyword := some keyword }
      rfl untitled rfl _ verbatim.past_spaces unbroken
  have ahead : (lexer.cursor.advanceBy (length + (behind.takeWhile Text.isSpace).length)).ahead =
      (Text.restOfLine behind).dropWhile Text.isSpace ++ more := by
    rw [Cursor.advance_by_ahead, ← List.drop_drop, Text.drop_run,
      ← Text.drop_spaces_append_ended ended, ← whole]
  have line := gives.before_break spells.inline ended ahead
  rw [← line] at spells
  exact spells

theorem step_text_verbatim_unclosed :
    let text := Text.ofString "Given  a <b>\"\"\"\" > <<c> ' `<d \"\n"
    let start := Lexer.ofText text none
    let after : Lexer :=
      ⟨start.cursor.advanceBy 7, { atStart := false, keyword := some .context }⟩
    let line := ((after.drain .standard).tokens.map (·.kind)).takeWhile (!·.isNewLine)
    start.read ScanContext.standard.language =
        some (.token ⟨start.position, .keyword .context⟩, after) ∧
      (Text.restOfLine (text.drop 6)).IsVerbatim ∧
      Spells line (Text.ofString "a <b>\"\"\"\" > <<c> ' `<d \"") := by
  intro text start after line
  have found : start.read ScanContext.standard.language =
      some (.token ⟨start.position, .keyword .context⟩, after) := by decide +kernel
  have verbatim : (Text.restOfLine (text.drop 6)).IsVerbatim := by decide +kernel
  obtain ⟨length, resolved, spells⟩ := step_text_verbatim (Lexer.Reaches.here _ start) found
  have six : ScanContext.standard.language.resolve (Text.lineUntil (· == ':') text) =
      some ⟨.step .context, 6⟩ := by decide +kernel
  cases six.symm.trans resolved
  exact ⟨found, verbatim, spells verbatim⟩

end Gherkin
