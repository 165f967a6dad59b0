import Mathlib.Data.List.ReduceOption
import Gherkin.Proofs.Scan.Elsewhere
import Gherkin.Proofs.Scan.Progress
/-!
A lexer that is asked for its next token again and again. Asked often enough it has read its whole
text, and from then on it has nothing more to give. How often it has been asked and the language
that it begins in settle all that it gives.
-/
namespace Gherkin

/-- What a lexer has done when it has been asked for so many tokens: what it has answered, the
lexer and the context after that, and the comments passed. -/
structure Driven where
  answers : List (Option Token)
  lexer : Lexer
  context : ScanContext
  comments : List Comment := []
  deriving DecidableEq

namespace Lexer
variable {context elsewhere : ScanContext} {lexer : Lexer}

def drive (context : ScanContext) (lexer : Lexer) : Nat → Driven
  | 0 => { answers := [], lexer, context }
  | calls + 1 =>
    let pull := lexer.nextToken context
    let rest := pull.lexer.drive pull.context calls
    { rest with
      answers := pull.token :: rest.answers
      comments := pull.comments ++ rest.comments }

theorem drive_elsewhere (same : elsewhere.language = context.language) (calls : Nat) :
    lexer.drive elsewhere calls =
      { lexer.drive context calls with
        context := elsewhere.heedAll (lexer.drive context calls).comments } := by
  induction calls generalizing context elsewhere lexer with
  | zero => rfl
  | succ calls ih =>
    let pull := lexer.nextToken context
    have later : (elsewhere.heedAll pull.comments).language = pull.context.language := by
      rw [next_token_context]
      exact ScanContext.heed_all_language_of_codes same rfl
    rw [drive, next_token_elsewhere same]
    dsimp only
    rw [ih later, drive]
    dsimp only
    rw [ScanContext.heed_all_append]

theorem drive_context (context : ScanContext) (lexer : Lexer) (calls : Nat) :
    (lexer.drive context calls).context =
      context.heedAll (lexer.drive context calls).comments :=
  congrArg Driven.context (drive_elsewhere rfl calls)

theorem next_token_ended (none : (lexer.nextToken context).token = none) :
    (lexer.nextToken context).lexer.cursor.ahead = [] :=
  walk_ends ((walk_pull context lexer).2 none)

-- A run goes on from where its first pull stops, also when that is the end.
theorem drain_behind_pull (context : ScanContext) (lexer : Lexer) :
    let pull := lexer.nextToken context
    let rest := pull.lexer.drain pull.context
    lexer.drain context =
      { rest with
        tokens := pull.token.toList ++ rest.tokens
        comments := pull.comments ++ rest.comments
        events := pull.events ++ rest.events } := by
  intro pull rest
  have walk := walk_pull context lexer
  cases found : pull.token with
  | none =>
    have exhausted : rest = ⟨[], pull.lexer, pull.context, [], []⟩ :=
      drain_of_walk (Walk.ended (next_token_ended found))
    rw [drain_of_walk (walk.2 found), exhausted]
    simp [pull]
  | some token => exact drain_of_walk (walk.1 token rest found (walk_drain _ _))

theorem drive_of_ended (ended : lexer.cursor.ahead = []) (calls : Nat) :
    lexer.drive context calls =
      { answers := List.replicate calls none, lexer, context } := by
  induction calls with
  | zero => rfl
  | succ calls ih =>
    rw [drive, next_token_of_ended context ended]
    dsimp only
    rw [ih]
    rfl

-- Once a lexer has answered that there is no token, it has done all that a run of it does.
theorem drive_of_none {calls : Nat} (exhausted : none ∈ (lexer.drive context calls).answers) :
    (lexer.drive context calls).answers.reduceOption = (lexer.drain context).tokens ∧
      (lexer.drive context calls).lexer = (lexer.drain context).lexer ∧
      (lexer.drive context calls).context = (lexer.drain context).context := by
  induction calls generalizing context lexer with
  | zero => cases exhausted
  | succ calls ih =>
    have behind := drain_behind_pull context lexer
    dsimp only at behind
    rw [drive] at exhausted ⊢
    rw [behind]
    cases found : (lexer.nextToken context).token with
    | none =>
      have ended := next_token_ended found
      rw [drain_of_walk (Walk.ended ended), drive_of_ended ended]
      simp [List.reduceOption_replicate_none]
    | some token =>
      rw [found] at exhausted
      have later := (List.mem_cons.mp exhausted).resolve_left (Option.some_ne_none token).symm
      obtain ⟨tokens, after, left⟩ := ih later
      exact ⟨congrArg (token :: ·) tokens, after, left⟩

end Lexer
end Gherkin
