import Gherkin.Scan.Lexer
/-!
The run of a lexer as a walk from lexeme to lexeme. A lexer pulls one token after another, and each
pull passes over any number of comments and trivia; the walk forgets where one pull ends and the
next begins. What one lexeme preserves is then preserved by a run by induction on its walk.
-/
namespace Gherkin

def Run.withToken (token : Token) (run : Run) : Run := { run with tokens := token :: run.tokens }

def Run.withComment (comment : Comment) (events : List ScanEvent) (run : Run) : Run :=
  { run with comments := comment :: run.comments, events := events ++ run.events }

namespace Lexer

inductive Walk : ScanContext → Lexer → Run → Prop
  | ended {context : ScanContext} {lexer : Lexer} (done : lexer.cursor.ahead = []) :
      Walk context lexer ⟨[], lexer, context, [], []⟩
  | token {context : ScanContext} {lexer after : Lexer} {token : Token} {run : Run}
      (found : lexer.read context.language = some (.token token, after)) :
      Walk context after run → Walk context lexer (run.withToken token)
  | trivia {context : ScanContext} {lexer after : Lexer} {run : Run}
      (found : lexer.read context.language = some (.trivia, after)) :
      Walk context after run → Walk context lexer run
  | comment {context : ScanContext} {lexer after : Lexer} {comment : Comment} {run : Run}
      (found : lexer.read context.language = some (.comment comment, after)) :
      Walk (context.heed comment).1 after run →
      Walk context lexer (run.withComment comment (context.heed comment).2)

theorem read_none_iff (language : Language) (lexer : Lexer) :
    lexer.read language = none ↔ lexer.cursor.ahead = [] := by
  unfold read
  split <;> simp_all

/-- All that reading does: some lexeme is read where the lexer stands, the reading is of that
lexeme, and the lexer moves behind it. -/
theorem read_inversion {language : Language} {lexer after : Lexer} {reading : Reading}
    (found : lexer.read language = some (reading, after)) :
    ∃ lexeme, Lexeme.Reads language lexer.state lexer.cursor.ahead lexeme ∧
      reading = lexeme.kind.reading lexer.position ∧
      after = ⟨lexer.cursor.advanceBy lexeme.width, lexeme.state⟩ := by
  unfold read at found
  split at found
  · cases found
  · next c rest ahead =>
    cases found
    exact ⟨_, ahead ▸ Lexeme.read_reads language lexer.state c rest, rfl, rfl⟩

theorem read_token_inversion {language : Language} {lexer after : Lexer} {token : Token}
    (found : lexer.read language = some (.token token, after)) :
    ∃ lexeme, Lexeme.Reads language lexer.state lexer.cursor.ahead lexeme ∧
      lexeme.kind = .token token.kind ∧ token.position = lexer.position ∧
      after = ⟨lexer.cursor.advanceBy lexeme.width, lexeme.state⟩ := by
  obtain ⟨⟨kind, width, state⟩, reads, same, rfl⟩ := read_inversion found
  cases kind <;> cases same
  exact ⟨_, reads, rfl, rfl, rfl⟩

theorem read_trivia_inversion {language : Language} {lexer after : Lexer}
    (found : lexer.read language = some (.trivia, after)) :
    ∃ lexeme, Lexeme.Reads language lexer.state lexer.cursor.ahead lexeme ∧
      lexeme.kind = .trivia ∧
      after = ⟨lexer.cursor.advanceBy lexeme.width, lexeme.state⟩ := by
  obtain ⟨⟨kind, width, state⟩, reads, same, rfl⟩ := read_inversion found
  cases kind <;> cases same
  exact ⟨_, reads, rfl, rfl⟩

theorem read_comment_inversion {language : Language} {lexer after : Lexer} {comment : Comment}
    (found : lexer.read language = some (.comment comment, after)) :
    ∃ lexeme, Lexeme.Reads language lexer.state lexer.cursor.ahead lexeme ∧
      lexeme.kind = .comment comment.body comment.breaksLine ∧
      comment.position = lexer.position ∧
      after = ⟨lexer.cursor.advanceBy lexeme.width, lexeme.state⟩ := by
  obtain ⟨⟨kind, width, state⟩, reads, same, rfl⟩ := read_inversion found
  cases kind <;> cases same
  exact ⟨_, reads, rfl, rfl, rfl⟩

theorem next_token_eq (context : ScanContext) (lexer : Lexer) :
    lexer.nextToken context =
      match lexer.read context.language with
      | none => { token := none, lexer, context }
      | some (.token token, after) => { token := some token, lexer := after, context }
      | some (.trivia, after) => after.nextToken context
      | some (.comment comment, after) =>
        let pull := after.nextToken (context.heed comment).1
        { pull with
          comments := comment :: pull.comments
          events := (context.heed comment).2 ++ pull.events } := by
  rw [nextToken]
  split <;> simp only [*]

-- One pull is the part of the walk up to its token, or all of it when the text ends first.
theorem walk_pull (context : ScanContext) (lexer : Lexer) :
    let pull := lexer.nextToken context
    (∀ token run, pull.token = some token → Walk pull.context pull.lexer run →
      Walk context lexer
        { run with
          tokens := token :: run.tokens
          comments := pull.comments ++ run.comments
          events := pull.events ++ run.events }) ∧
    (pull.token = none →
      Walk context lexer ⟨[], pull.lexer, pull.context, pull.comments, pull.events⟩) := by
  fun_induction nextToken context lexer with
  | case1 context lexer done =>
    refine ⟨fun _ _ some => ?_, fun _ => Walk.ended ((read_none_iff _ _).mp done)⟩
    cases some
  | case2 context lexer token after found =>
    refine ⟨fun _ run same walk => ?_, fun none => ?_⟩
    · cases same
      exact Walk.token found walk
    · cases none
  | case3 context lexer after found ih =>
    exact ⟨fun token run some walk => Walk.trivia found (ih.1 token run some walk),
      fun none => Walk.trivia found (ih.2 none)⟩
  | case4 context lexer comment after found heeded pull ih =>
    refine ⟨fun token run some walk => ?_, fun none => ?_⟩
    · have rest := Walk.comment found (ih.1 token run some walk)
      simpa only [Run.withComment, List.cons_append, List.append_assoc] using rest
    · exact Walk.comment found (ih.2 none)

theorem walk_drain (context : ScanContext) (lexer : Lexer) :
    Walk context lexer (lexer.drain context) := by
  fun_induction drain context lexer with
  | case1 context lexer pull none => exact (walk_pull context lexer).2 none
  | case2 context lexer pull token found run ih =>
    exact (walk_pull context lexer).1 token run found ih

-- How a walk goes on is decided by the lexeme that is read first.
theorem walk_inversion {context : ScanContext} {lexer : Lexer} {run : Run}
    (walk : Walk context lexer run) :
    match lexer.read context.language with
    | none => run = ⟨[], lexer, context, [], []⟩
    | some (.token token, after) => ∃ rest, Walk context after rest ∧ run = rest.withToken token
    | some (.trivia, after) => Walk context after run
    | some (.comment comment, after) =>
      ∃ rest, Walk (context.heed comment).1 after rest ∧
        run = rest.withComment comment (context.heed comment).2 := by
  cases walk with
  | ended done => rw [(read_none_iff _ _).mpr done]
  | token found rest => rw [found]; exact ⟨_, rest, rfl⟩
  | trivia found rest => rw [found]; exact rest
  | comment found rest => rw [found]; exact ⟨_, rest, rfl⟩

theorem walk_unique {context : ScanContext} {lexer : Lexer} {run other : Run}
    (walk : Walk context lexer run) (again : Walk context lexer other) : other = run := by
  induction walk generalizing other with
  | ended done =>
    have first := walk_inversion again
    rwa [(read_none_iff _ _).mpr done] at first
  | token found _ ih =>
    have first := walk_inversion again
    rw [found] at first
    obtain ⟨rest, walk, rfl⟩ := first
    rw [ih walk]
  | trivia found _ ih =>
    have first := walk_inversion again
    rw [found] at first
    exact ih first
  | comment found _ ih =>
    have first := walk_inversion again
    rw [found] at first
    obtain ⟨rest, walk, rfl⟩ := first
    rw [ih walk]

-- A walk found by other means is therefore the lexer's own run.
theorem drain_of_walk {context : ScanContext} {lexer : Lexer} {run : Run}
    (walk : Walk context lexer run) : lexer.drain context = run :=
  walk_unique walk (walk_drain context lexer)

-- What reading one lexeme preserves still holds where a run ends.
theorem walk_invariant (holds : Lexer → Prop)
    (step : ∀ {language : Language} {lexer after : Lexer} {reading : Reading},
      lexer.read language = some (reading, after) → holds lexer → holds after)
    {context : ScanContext} {lexer : Lexer} {run : Run} (walk : Walk context lexer run)
    (first : holds lexer) : holds run.lexer := by
  induction walk with
  | ended => exact first
  | token found _ ih => exact ih (step found first)
  | trivia found _ ih => exact ih (step found first)
  | comment found _ ih => exact ih (step found first)

-- A run of its own reads what the lexer reads in the default language; what it adds are a last
-- diagnostic and the events at its ends.
@[simp] theorem lex_tokens (context : ScanContext) (lexer : Lexer) :
    (lexer.lex context).tokens = (lexer.drain context.resetLanguage).tokens := rfl

@[simp] theorem lex_lexer (context : ScanContext) (lexer : Lexer) :
    (lexer.lex context).lexer = (lexer.drain context.resetLanguage).lexer := rfl

end Lexer
end Gherkin
