import Gherkin.Proofs.Scan.Walk
import Gherkin.Proofs.Token.Width
/-!
Progress. Whatever state a lexer is in, also one that no text leads to, reading a lexeme takes it
at least one character on and never past the end of its text. So no search for a token goes on
longer than there are characters, and a run ends with all of them consumed.
-/
namespace Gherkin.Lexer

theorem read_some {lexer : Lexer} {c : Char} (language : Language)
    (held : lexer.cursor.current? = some c) :
    ∃ reading after, lexer.read language = some (reading, after) := by
  cases found : lexer.read language with
  | none =>
    rw [Cursor.current?, (read_none_iff language lexer).mp found] at held
    cases held
  | some pair => exact ⟨pair.1, pair.2, rfl⟩

theorem read_text {language : Language} {lexer after : Lexer} {reading : Reading}
    (found : lexer.read language = some (reading, after)) :
    after.cursor.text = lexer.cursor.text := by
  obtain ⟨lexeme, _, _, rfl⟩ := read_inversion found
  exact Cursor.advance_by_text lexer.cursor lexeme.width

theorem read_source {language : Language} {lexer after : Lexer} {reading : Reading}
    (found : lexer.read language = some (reading, after)) :
    after.cursor.source = lexer.cursor.source := by
  obtain ⟨lexeme, _, _, rfl⟩ := read_inversion found
  exact Cursor.advance_by_source lexer.cursor lexeme.width

-- The lexer consumes what the lexeme takes: not less, since the lexeme lies within the text.
theorem read_consumed {language : Language} {lexer after : Lexer} {reading : Reading}
    (found : lexer.read language = some (reading, after)) :
    lexer.consumed < after.consumed ∧ after.consumed ≤ lexer.cursor.length := by
  obtain ⟨lexeme, reads, _, rfl⟩ := read_inversion found
  have some := Lexeme.width_pos_of_reads reads
  have inside := Lexeme.width_le_of_reads reads
  have moved := Cursor.advance_by_consumed lexer.cursor inside
  simp only [consumed, Cursor.length, moved]
  simp only [Cursor.consumed]
  omega

/-- The search for the next token when it may try to read only so many times; none when that is
not enough. -/
def nextTokenWithin : Nat → ScanContext → Lexer → Option Pull
  | 0, _, _ => none
  | tries + 1, context, lexer =>
    match lexer.read context.language with
    | none => some { token := none, lexer, context }
    | some (.token token, after) => some { token := some token, lexer := after, context }
    | some (.trivia, after) => nextTokenWithin tries context after
    | some (.comment comment, after) =>
      let heeded := context.heed comment
      (nextTokenWithin tries heeded.1 after).map fun pull =>
        { pull with comments := comment :: pull.comments, events := heeded.2 ++ pull.events }

theorem next_token_within (context : ScanContext) (lexer : Lexer) {spare : Nat}
    (enough : lexer.cursor.ahead.length ≤ spare) :
    lexer.nextTokenWithin (spare + 1) context = some (lexer.nextToken context) := by
  fun_induction nextToken context lexer generalizing spare with
  | case1 context lexer done => simp only [nextTokenWithin, done]
  | case2 context lexer token after found => simp only [nextTokenWithin, found]
  | case3 context lexer after found ih =>
    have less := read_ahead_lt found
    obtain ⟨fewer, rfl⟩ := Nat.exists_eq_add_one.mpr (Nat.zero_lt_of_lt (less.trans_le enough))
    rw [nextTokenWithin, found]
    exact ih (Nat.le_of_lt_succ (less.trans_le enough))
  | case4 context lexer comment after found heeded pull =>
    rename_i ih
    have less := read_ahead_lt found
    obtain ⟨fewer, rfl⟩ := Nat.exists_eq_add_one.mpr (Nat.zero_lt_of_lt (less.trans_le enough))
    rw [nextTokenWithin, found]
    have rest := ih (Nat.le_of_lt_succ (less.trans_le enough))
    exact congrArg (Option.map _) rest

theorem walk_ends {context : ScanContext} {lexer : Lexer} {run : Run}
    (walk : Walk context lexer run) : run.lexer.cursor.ahead = [] := by
  induction walk with
  | ended done => exact done
  | token _ _ ih => exact ih
  | trivia _ _ ih => exact ih
  | comment _ _ ih => exact ih

theorem walk_text {context : ScanContext} {lexer : Lexer} {run : Run}
    (walk : Walk context lexer run) : run.lexer.cursor.text = lexer.cursor.text :=
  walk_invariant (fun reached => reached.cursor.text = lexer.cursor.text)
    (fun found same => (read_text found).trans same) walk rfl

theorem walk_source {context : ScanContext} {lexer : Lexer} {run : Run}
    (walk : Walk context lexer run) : run.lexer.cursor.source = lexer.cursor.source :=
  walk_invariant (fun reached => reached.cursor.source = lexer.cursor.source)
    (fun found same => (read_source found).trans same) walk rfl

theorem walk_tokens_le {context : ScanContext} {lexer : Lexer} {run : Run}
    (walk : Walk context lexer run) : run.tokens.length ≤ lexer.cursor.ahead.length := by
  induction walk with
  | ended => exact Nat.zero_le _
  | token found _ ih =>
    have less := read_ahead_lt found
    simp only [Run.withToken, List.length_cons]
    omega
  | trivia found _ ih => exact ih.trans (Nat.le_of_lt (read_ahead_lt found))
  | comment found _ ih => exact ih.trans (Nat.le_of_lt (read_ahead_lt found))

theorem consumed_of_ended {lexer : Lexer} {text : Text} (ended : lexer.cursor.ahead = [])
    (same : lexer.cursor.text = text) : lexer.consumed = text.length := by
  rw [← same]
  simp [consumed, Cursor.consumed, Cursor.text, ended]

theorem next_token_of_ended {lexer : Lexer} (context : ScanContext)
    (ended : lexer.cursor.ahead = []) :
    lexer.nextToken context = { token := none, lexer, context } := by
  rw [next_token_eq, (read_none_iff context.language lexer).mpr ended]

-- The state of the lexer is any at all: wherever it stands, whatever its line has shown.
theorem scan_progress (context : ScanContext) (lexer : Lexer) :
    (∀ c, lexer.cursor.current? = some c →
      ∃ reading after, lexer.read context.language = some (reading, after) ∧
        lexer.consumed < after.consumed ∧ after.consumed ≤ lexer.cursor.text.length ∧
        after.cursor.text = lexer.cursor.text) ∧
    lexer.nextTokenWithin (lexer.cursor.ahead.length + 1) context =
      some (lexer.nextToken context) ∧
    (lexer.lex context).tokens.length ≤ lexer.cursor.ahead.length ∧
    (lexer.lex context).lexer.consumed = lexer.cursor.text.length ∧
    ∀ later : ScanContext, (lexer.lex context).lexer.nextToken later =
      { token := none, lexer := (lexer.lex context).lexer, context := later } := by
  have walk := walk_drain context.resetLanguage lexer
  have ended := walk_ends walk
  refine ⟨?_, ?_, ?_, ?_, ?_⟩
  · intro c held
    obtain ⟨reading, after, found⟩ := read_some context.language held
    obtain ⟨more, inside⟩ := read_consumed found
    refine ⟨reading, after, found, more, ?_, read_text found⟩
    simpa [Cursor.text, Cursor.length] using inside
  · exact next_token_within context lexer (Nat.le_refl _)
  · rw [lex_tokens]
    exact walk_tokens_le walk
  · rw [lex_lexer]
    exact consumed_of_ended ended (walk_text walk)
  · intro later
    exact next_token_of_ended later ended

end Gherkin.Lexer
