import Gherkin.Proofs.Scan.Reach
/-!
Legs of a run: what a lexer reads from one place on its way to another. A run that comes by there
gives the tokens of the leg and then those of a run from its end.
-/
namespace Gherkin

def Reading.token? : Reading → Option Token
  | .token found => some found
  | .comment _ | .trivia => none

theorem Reading.filter_map_tokens (tokens : List Token) :
    (tokens.map Reading.token).filterMap Reading.token? = tokens := by
  rw [List.filterMap_map]
  exact List.filterMap_some

namespace Lexer

/-- Whether a lexer reads just this, in order, on its way to a place and to the context in force
there. -/
inductive Leg : ScanContext → Lexer → List Reading → ScanContext → Lexer → Prop
  | here (context : ScanContext) (lexer : Lexer) : Leg context lexer [] context lexer
  | later {context reached : ScanContext} {lexer after place : Lexer} {reading : Reading}
      {readings : List Reading} (found : lexer.read context.language = some (reading, after)) :
      Leg (context.behind reading) after readings reached place →
      Leg context lexer (reading :: readings) reached place

variable {context reached : ScanContext} {lexer after place : Lexer} {reading : Reading}
  {readings : List Reading}

theorem drain_tokens_behind (found : lexer.read context.language = some (reading, after)) :
    (lexer.drain context).tokens =
      reading.token?.toList ++ (after.drain (context.behind reading)).tokens := by
  have rest := walk_drain (context.behind reading) after
  cases reading with
  | token token => rw [drain_of_walk (Walk.token found rest)]; rfl
  | trivia => rw [drain_of_walk (Walk.trivia found rest)]; rfl
  | comment comment => rw [drain_of_walk (Walk.comment found rest)]; rfl

theorem drain_tokens_of_leg (leg : Leg context lexer readings reached place) :
    (lexer.drain context).tokens =
      readings.filterMap Reading.token? ++ (place.drain reached).tokens := by
  induction leg with
  | here => rfl
  | @later _ _ _ _ _ reading _ found _ ih =>
    rw [drain_tokens_behind found, ih, ← List.append_assoc]
    cases reading <;> rfl

theorem drain_tokens_of_ended (ended : lexer.cursor.ahead = []) (context : ScanContext) :
    (lexer.drain context).tokens = [] := by
  rw [drain_of_walk (Walk.ended ended)]

theorem read_feed (language : Language) {rest : Text} (ahead : lexer.cursor.ahead = '\n' :: rest) :
    lexer.read language =
      some (.token ⟨lexer.position, .newLine⟩, ⟨lexer.cursor.advanceBy 1, {}⟩) := by
  simp only [read, ahead]
  rfl

-- A line break that ends the text is its last token.
theorem drain_tokens_last_feed (last : lexer.cursor.ahead = ['\n']) (context : ScanContext) :
    (lexer.drain context).tokens = [⟨lexer.position, .newLine⟩] := by
  rw [drain_tokens_behind (read_feed context.language last), drain_tokens_of_ended]
  · rfl
  · rw [Cursor.advance_by_ahead, last]
    rfl

end Lexer
end Gherkin
