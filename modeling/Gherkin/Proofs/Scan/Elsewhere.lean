import Gherkin.Proofs.Scan.Heeding
/-!
The same text in another context. A lexer asks its context for the language in force and for
nothing else, so in two contexts with one language it gives the same and passes the same comments;
and each of the contexts is left with these comments heeded.
-/
namespace Gherkin

-- What is logged of a comment names the language that it is heeded in.
theorem ScanContext.heed_events {context elsewhere : ScanContext}
    (same : elsewhere.language = context.language) (comment : Comment) :
    (elsewhere.heed comment).2 = (context.heed comment).2 := by
  unfold heed
  cases comment.code? with
  | none => rfl
  | some code =>
    cases found : Language.find? code with
    | none => simp only [found, note]
    | some language => simp only [found, same]

namespace Lexer
variable {context elsewhere : ScanContext} {lexer : Lexer}

theorem next_token_elsewhere (same : elsewhere.language = context.language) :
    lexer.nextToken elsewhere =
      { lexer.nextToken context with
        context := elsewhere.heedAll (lexer.nextToken context).comments } := by
  fun_induction nextToken context lexer generalizing elsewhere with
  | case1 context lexer done =>
    rw [next_token_eq, same, done]
    rfl
  | case2 context lexer token after found =>
    rw [next_token_eq, same, found]
    rfl
  | case3 context lexer after found ih =>
    rw [next_token_eq, same, found]
    exact ih same
  | case4 context lexer comment after found heeded pull =>
    rename_i ih
    have later := ScanContext.heed_language_of_code same (Eq.refl comment.code?)
    rw [next_token_eq, same, found]
    dsimp only
    rw [ih later, ScanContext.heed_events same]
    rfl

theorem next_token_context (context : ScanContext) (lexer : Lexer) :
    (lexer.nextToken context).context = context.heedAll (lexer.nextToken context).comments :=
  congrArg Pull.context (next_token_elsewhere rfl)

theorem walk_elsewhere {run : Run} (walk : Walk context lexer run)
    (same : elsewhere.language = context.language) :
    Walk elsewhere lexer { run with context := elsewhere.heedAll run.comments } := by
  induction walk generalizing elsewhere with
  | ended done => exact Walk.ended done
  | token found _ ih =>
    rw [← same] at found
    exact Walk.token found (ih same)
  | trivia found _ ih =>
    rw [← same] at found
    exact Walk.trivia found (ih same)
  | @comment context lexer after comment run found _ ih =>
    have later := ScanContext.heed_language_of_code same (Eq.refl comment.code?)
    rw [← same] at found
    have walk := Walk.comment found (ih later)
    rwa [ScanContext.heed_events same] at walk

theorem drain_elsewhere (same : elsewhere.language = context.language) :
    lexer.drain elsewhere =
      { lexer.drain context with context := elsewhere.heedAll (lexer.drain context).comments } :=
  drain_of_walk (walk_elsewhere (walk_drain context lexer) same)

end Lexer
end Gherkin
