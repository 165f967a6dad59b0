import Gherkin.Proofs.Scan.KeywordLine
/-!
Step text with a backslash in front of every mark. A step gives it back as it was before it was
escaped, in pieces: each is read from one mark to the next, and a comment mark is read alone. Only
where the line ends is a piece trimmed, so a text that ends in no space loses nothing.
-/
namespace Gherkin

namespace Text
variable {text piece later more : Text} {c : Char}

/-- The characters of a step's text that do not stand for themselves. -/
def marks : List Char := ['#', '@', '|', '<', '"', '\x60', '\\']

def escapedChar (c : Char) : Text := if c ∈ marks then ['\\', c] else [c]

/-- A text with a backslash in front of every mark. -/
def escaped (text : Text) : Text := text.flatMap escapedChar

theorem mem_marks_iff (notFeed : c ≠ '\n') : c ∈ marks ↔ isSymbol c = true := by
  simp [marks, isSymbol, isFenceMark, notFeed, or_assoc]

theorem escaped_append (front back : Text) :
    escaped (front ++ back) = escaped front ++ escaped back := List.flatMap_append

theorem escaped_mark (mark : c ∈ marks) (rest : Text) :
    escaped (c :: rest) = '\\' :: c :: escaped rest := by
  simp [escaped, escapedChar, mark]

theorem escaped_plain (plain : ∀ c ∈ text, isSymbol c = false) : escaped text = text := by
  induction text with
  | nil => rfl
  | cons c rest ih =>
    obtain ⟨first, others⟩ := List.forall_mem_cons.mp plain
    have unmarked : c ∉ marks := by
      rw [mem_marks_iff (ne_feed_of_not_symbol first), first]
      exact Bool.false_ne_true
    have kept : escapedChar c = [c] := if_neg unmarked
    have goesOn : escaped rest = rest := ih others
    calc escaped (c :: rest) = escapedChar c ++ escaped rest := List.flatMap_cons
      _ = c :: rest := by rw [kept, goesOn]; rfl

theorem escaped_ne_nil (shown : text ≠ []) : escaped text ≠ [] := by
  obtain ⟨c, rest, rfl⟩ := List.exists_cons_of_ne_nil shown
  by_cases mark : c ∈ marks <;> simp [escaped, escapedChar, mark]

-- An escaped text begins with a backslash or with what the text begins with.
theorem escaped_head (head : (escaped text).head? = some c) : c = '\\' ∨ text.head? = some c := by
  cases text with
  | nil => cases head
  | cons d rest =>
    by_cases mark : d ∈ marks
    · rw [escaped_mark mark] at head
      cases head
      exact Or.inl rfl
    · rw [escaped, List.flatMap_cons, escapedChar, if_neg mark] at head
      exact Or.inr head

-- A text is cut where its first symbol is.
theorem plain_front (text : Text) :
    ∃ run later, text = run ++ later ∧ (∀ c ∈ run, isSymbol c = false) ∧
      ∀ c, later.head? = some c → isSymbol c = true := by
  refine ⟨text.takeWhile (!isSymbol ·), text.dropWhile (!isSymbol ·),
    List.takeWhile_append_dropWhile.symm, ?_, ?_⟩
  · intro c member
    simpa using List.mem_takeWhile_imp member
  · intro c head
    have stopped := List.head?_dropWhile_not (!isSymbol ·) text
    simpa [head] using stopped

theorem escaped_stopped (stopped : ∀ c, later.head? = some c → isSymbol c = true)
    (unbroken : '\n' ∉ later) : later = [] ∨ ∃ rest, escaped later = '\\' :: rest := by
  cases later with
  | nil => exact Or.inl rfl
  | cons c rest =>
    have notFeed : c ≠ '\n' := ne_of_mem_of_not_mem List.mem_cons_self unbroken
    have mark : c ∈ marks := (mem_marks_iff notFeed).mpr (stopped c rfl)
    exact Or.inr ⟨c :: escaped rest, escaped_mark mark rest⟩

-- A run of plain characters in an escaped text goes on to the next mark or to the end of the line.
theorem run_of_escaped {run : Text} (plain : ∀ c ∈ run, isSymbol c = false)
    (behind : later = [] ∨ ∃ rest, escaped later = '\\' :: rest) (ended : atLineEnd more = true) :
    lineUntil isSymbol (run ++ (escaped later ++ more)) = run := by
  refine line_until_exact (fun c inside => ⟨ne_feed_of_not_symbol (plain c inside), plain c inside⟩)
    fun c head => ?_
  rcases behind with rfl | ⟨rest, mark⟩
  · exact Or.inl (feed_of_at_line_end ended c head)
  · rw [mark] at head
    cases head
    exact Or.inr rfl

theorem last_of_suffix (last : later.getLast? = some c) : (piece ++ later).getLast? = some c := by
  rw [List.getLast?_append, last]
  rfl

end Text

namespace Lexeme
variable {language : Language} {state : LineState} {text run later rest more : Text}

section Step
variable (read : state.atStart = false) (untitled : state.scope = none)
include read untitled

theorem first_escape (rest : Text) : First language state ('\\' :: rest) (escape state rest) :=
  ⟨'\\', rest, rfl, by simp [Lexeme.read, read, untitled, Text.isFenceMark]⟩

theorem first_comment_mark (rest : Text) :
    First language state ('\\' :: '#' :: rest) ⟨.token (.matchText ['#']), 2, state⟩ :=
  first_escape read untitled ('#' :: rest)

theorem first_mark {c : Char} (mark : c ∈ Text.marks) (notComment : c ≠ '#')
    (ahead : Text.lineUntil Text.isSymbol rest = run) :
    First language state ('\\' :: c :: rest)
      ⟨.token (.matchText (c :: run)), ('\\' :: c :: run).length, state⟩ := by
  have notFeed : c ≠ '\n' := by rintro rfl; exact absurd mark (by decide)
  have symbol := (Text.mem_marks_iff notFeed).mp mark
  have hidden : (some c).filter (fun c => Text.isSymbol c && c != '\n') = some c := by
    simp [Option.filter, symbol, notFeed]
  have first : First language state ('\\' :: c :: rest) (escape state (c :: rest)) :=
    first_escape read untitled (c :: rest)
  have width : 2 + run.length = ('\\' :: c :: run).length := Nat.add_comm 2 run.length
  rw [escape, List.head?_cons, hidden] at first
  simpa only [if_neg notComment, List.tail_cons, ahead, width] using first

theorem first_run (stepped : state.keyword.isSome = true) (shown : run ≠ [])
    (plain : ∀ c ∈ run, Text.isSymbol c = false)
    (ahead : Text.lineUntil Text.isSymbol (run ++ rest) = run)
    (last : Text.atLineEnd rest = true → ∀ c, run.getLast? = some c → Text.isSpace c = false) :
    First language state (run ++ rest) ⟨.token (.matchText run), run.length, state⟩ := by
  have kept : (if Text.atLineEnd ((run ++ rest).drop run.length) then
      Text.trimEnd Text.isSpace run else run) = run := by
    rw [List.drop_left]
    split
    · next ended => exact Text.trim_end_of_last (last ended)
    · rfl
  obtain ⟨c, others, rfl⟩ := List.exists_cons_of_ne_nil shown
  refine ⟨c, others ++ rest, rfl, ?_⟩
  rw [read_plain language _ read untitled stepped (plain c List.mem_cons_self)]
  exact stretch_shown .matchText state ahead kept shown

-- A mark takes the plain characters behind it along, unless it is that of a comment.
theorem first_marked_piece {c : Char} (mark : c ∈ Text.marks) (unbroken : '\n' ∉ rest) :
    ∃ run later, rest = run ++ later ∧ ∀ more, Text.atLineEnd more = true →
      First language state (Text.escaped (c :: run) ++ (Text.escaped later ++ more))
        ⟨.token (.matchText (c :: run)), (Text.escaped (c :: run)).length, state⟩ := by
  by_cases comment : c = '#'
  · subst comment
    refine ⟨[], rest, rfl, fun more _ => ?_⟩
    exact first_comment_mark read untitled (Text.escaped rest ++ more)
  · obtain ⟨run, later, rfl, plain, stopped⟩ := Text.plain_front rest
    have behind := Text.escaped_stopped stopped fun member =>
      unbroken (List.mem_append_right _ member)
    have written : Text.escaped (c :: run) = '\\' :: c :: run := by
      rw [Text.escaped_mark mark, Text.escaped_plain plain]
    refine ⟨run, later, rfl, fun more ended => ?_⟩
    rw [written]
    exact first_mark read untitled mark comment (Text.run_of_escaped plain behind ended)

theorem first_piece (stepped : state.keyword.isSome = true) (shown : text ≠ [])
    (unbroken : '\n' ∉ text) (last : ∀ c, text.getLast? = some c → Text.isSpace c = false) :
    ∃ piece later, piece ≠ [] ∧ text = piece ++ later ∧
      ∀ more, Text.atLineEnd more = true →
        First language state (Text.escaped piece ++ (Text.escaped later ++ more))
          ⟨.token (.matchText piece), (Text.escaped piece).length, state⟩ := by
  obtain ⟨run, later, rfl, plain, stopped⟩ := Text.plain_front text
  by_cases opens : run = []
  · subst opens
    obtain ⟨c, rest, rfl⟩ := List.exists_cons_of_ne_nil shown
    obtain ⟨feed, unbrokenRest⟩ := List.ne_and_not_mem_of_not_mem_cons unbroken
    have mark : c ∈ Text.marks := (Text.mem_marks_iff (Ne.symm feed)).mpr (stopped c rfl)
    obtain ⟨run, later, rfl, first⟩ := first_marked_piece read untitled mark unbrokenRest
    exact ⟨c :: run, later, List.cons_ne_nil c run, rfl, first⟩
  · have behind := Text.escaped_stopped stopped fun member =>
      unbroken (List.mem_append_right _ member)
    refine ⟨run, later, opens, rfl, fun more ended => ?_⟩
    rw [Text.escaped_plain plain]
    apply first_run read untitled stepped opens plain (Text.run_of_escaped plain behind ended)
    -- The run is only trimmed when nothing of the text is left, so it ends as the text does.
    intro atEnd c final
    rcases behind with rfl | ⟨rest, mark⟩
    · exact last c ((List.append_nil run).symm ▸ final)
    · rw [mark] at atEnd
      exact absurd atEnd (by simp [Text.atLineEnd])

end Step
end Lexeme

namespace LineState
variable {context : ScanContext} {state : LineState}

-- By recursion on what is left of the text behind its first piece.
theorem gives_escaped (read : state.atStart = false) (untitled : state.scope = none)
    (stepped : state.keyword.isSome = true) (text : Text) (unbroken : '\n' ∉ text)
    (last : ∀ c, text.getLast? = some c → Text.isSpace c = false) :
    ∃ pieces : List Text, pieces.flatten = text ∧
      Gives context state (Text.escaped text) (pieces.map .matchText) := by
  by_cases shown : text = []
  · subst shown
    exact ⟨[], rfl, gives_nil context state⟩
  · obtain ⟨piece, later, opens, whole, first⟩ :=
      @Lexeme.first_piece context.language _ _ read untitled stepped shown unbroken last
    subst whole
    have shorter : later.length < (piece ++ later).length := by
      rw [List.length_append]
      exact Nat.lt_add_of_pos_left (List.length_pos_iff.mpr opens)
    obtain ⟨pieces, same, gives⟩ := gives_escaped read untitled stepped later
      (fun member => unbroken (List.mem_append_right _ member))
      fun c final => last c (Text.last_of_suffix final)
    refine ⟨piece :: pieces, ?_, ?_⟩
    · rw [List.flatten_cons, same]
    · rw [Text.escaped_append]
      exact gives_cons first gives
termination_by text.length

/-- A step of a bundled language gives the text that is escaped behind its keyword, in pieces. -/
theorem gives_escaped_step (bundled : context.language ∈ Language.all) {keyword : StepKeyword}
    {synonym text : Text} (listed : synonym ∈ context.language.steps.map (·.2)) (shown : text ≠ [])
    (unbroken : '\n' ∉ text) (trimmed : Text.IsTrimmed Text.isSpace text)
    (resolved :
      context.language.resolve (Text.lineUntil (· == ':') (synonym ++ Text.escaped text)) =
        some ⟨.step keyword, synonym.length⟩) :
    ∃ pieces : List Text, pieces.flatten = text ∧
      Gives context {} (synonym ++ Text.escaped text)
        (.keyword keyword :: pieces.map .matchText) := by
  obtain ⟨_, legible⟩ := Language.tables_of_mem_all _ bundled
  obtain ⟨entry, member, rfl⟩ := List.mem_map.mp listed
  have heading : entry.2.Heading := legible.steps entry member
  obtain ⟨pieces, same, gives⟩ := @gives_escaped context
    { atStart := false, keyword := some keyword } rfl rfl rfl text unbroken trimmed.last
  refine ⟨pieces, same, gives_cons (fun more ended => ?_) gives⟩
  apply Lexeme.first_step heading
  · rwa [← List.append_assoc, Text.line_until_append_ended _ ended]
  · intro c first
    rw [List.head?_append_of_ne_nil _ (Text.escaped_ne_nil shown)] at first
    rcases Text.escaped_head first with rfl | head
    · rfl
    · exact trimmed.first c head

theorem gives_escaped_step_japanese :
    let japanese := Language.ofDialect (Text.ofString "ja") .japanese
    let context := (ScanContext.ofLanguage japanese).resetLanguage
    let synonym := Text.ofString "前提"
    let text := Text.ofString "<a>: # \\\"|b#@"
    japanese ∈ Language.all ∧
      Text.escaped text = Text.ofString "\\<a>: \\# \\\\\\\"\\|b\\#\\@" ∧
      ∃ pieces : List Text, pieces.flatten = text ∧
        Gives context {} (synonym ++ Text.escaped text)
          (.keyword .context :: pieces.map .matchText) := by
  intro japanese context synonym text
  have bundled : context.language ∈ Language.all := List.mem_iff_getElem?.mpr ⟨4, rfl⟩
  refine ⟨bundled, by decide, ?_⟩
  exact gives_escaped_step bundled (by decide +kernel) (by decide) (by decide) (by decide)
    (by decide +kernel)

end LineState
end Gherkin
