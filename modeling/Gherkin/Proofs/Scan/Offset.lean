import Gherkin.Proofs.Scan.Beside
import Gherkin.Proofs.Scan.Progress
/-!
A lexer does not look at the number of the line that it is on. Of two lexers with the same text
ahead, one some lines below the other, the lower gives the tokens and the comments of the upper,
each so many lines below.
-/
namespace Gherkin

def Place.down (lines : Nat) (place : Place) : Place := { place with line := place.line + lines }

def Position.down (lines : Nat) (position : Position) : Position :=
  { position with line := position.line + lines }

def Token.down (lines : Nat) (token : Token) : Token :=
  { token with position := token.position.down lines }

def Comment.down (lines : Nat) (comment : Comment) : Comment :=
  { comment with position := comment.position.down lines }

def Diagnostic.down (lines : Nat) : Diagnostic → Diagnostic
  | .unsupportedLanguage code position => .unsupportedLanguage code (position.down lines)
  | .noValidGherkin source => .noValidGherkin source

namespace Place

theorem after_down {place : Place} {lines : Nat} {c : Char}
    (kept : place.line + lines + [c].count '\n' ≤ lastCoordinate) :
    (place.down lines).after c = (place.after c).down lines := by
  by_cases feed : c = '\n'
  · subst feed
    have less : place.line + lines + 1 ≤ lastCoordinate := kept
    simp only [after, down, nextCoordinate, ↓reduceIte, Place.mk.injEq, and_true]
    omega
  · simp [after, down, feed]

theorem after_line (place : Place) (c : Char)
    (kept : place.line + [c].count '\n' ≤ lastCoordinate) :
    (place.after c).line = place.line + [c].count '\n' := by
  by_cases feed : c = '\n'
  · subst feed
    exact Nat.min_eq_left kept
  · simp [after, feed]

/-- Whether one place is so many lines below another, with no line of the text ahead cut off. -/
def IsBelow (lines : Nat) (ahead : Text) (place lower : Place) : Prop :=
  lower = place.down lines ∧ place.line + lines + ahead.count '\n' ≤ lastCoordinate

-- As long as no line number is cut off, lines are counted alike wherever the count begins.
theorem kept_below (lines : Nat) : Kept (IsBelow lines) := by
  rintro c rest place lower ⟨rfl, kept⟩
  rw [← List.singleton_append, List.count_append] at kept
  have line := after_line place c (by omega)
  exact ⟨after_down (by omega), by omega⟩

end Place

namespace Lexer

/-- Two lexers with the same ahead of them, the second so many lines below the first, where no
line to come is cut off. -/
structure Above (lines : Nat) (lexer lower : Lexer) : Prop where
  ahead : lower.cursor.ahead = lexer.cursor.ahead
  state : lower.state = lexer.state
  place : lower.cursor.place = lexer.cursor.place.down lines
  source : lower.cursor.source = lexer.cursor.source
  kept : lexer.cursor.place.line + lines + lexer.cursor.ahead.count '\n' ≤ lastCoordinate

theorem walk_down {lines : Nat} {lexer lower : Lexer} {context : ScanContext} {run : Run}
    (walk : Walk context lexer run) (above : Above lines lexer lower) (other : ScanContext)
    (same : other.language = context.language) :
    ∃ below, Walk other lower below ∧ below.tokens = run.tokens.map (Token.down lines) ∧
      below.comments = run.comments.map (Comment.down lines) := by
  have beside : Beside (Place.IsBelow lines) lexer lower :=
    ⟨above.ahead, above.state, ⟨above.place, above.kept⟩, above.source⟩
  exact walk_moved (fun _ _ _ below => below.1) (Place.kept_below lines) walk beside same

end Lexer

namespace ScanContext

theorem heed_all_down (lines : Nat) (context other : ScanContext)
    (same : other.language = context.language) (comments : List Comment) :
    (other.heedAll (comments.map (Comment.down lines))).language =
      (context.heedAll comments).language :=
  heed_all_moved (Place.down lines) same comments

theorem complaints_down (lines : Nat) (comments : List Comment) :
    (comments.map (Comment.down lines)).filterMap Comment.complaint? =
      (comments.filterMap Comment.complaint?).map (Diagnostic.down lines) := by
  have moved : Diagnostic.down lines = Diagnostic.moved (Place.down lines) := by
    funext diagnostic
    cases diagnostic <;> rfl
  rw [moved]
  exact complaints_moved (Place.down lines) comments

end ScanContext
end Gherkin
