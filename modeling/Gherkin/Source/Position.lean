import Gherkin.Source.Locator
/-!
Places in a text and positions, which are places that name the text's source. Lines and columns
start at one and stop growing at the largest number kept.
-/
namespace Gherkin

def lastCoordinate : Nat := 4294967295

def nextCoordinate (coordinate : Nat) : Nat := min (coordinate + 1) lastCoordinate

structure Place where
  line : Nat := 1
  column : Nat := 1
  deriving DecidableEq

def Place.after (place : Place) (c : Char) : Place :=
  if c = '\n' then ⟨nextCoordinate place.line, 1⟩ else ⟨place.line, nextCoordinate place.column⟩

structure Position extends Place where
  source : Option Locator := none
  deriving DecidableEq

/-- The position as messages write it, with the whole locator in front when there is one. -/
def Position.display (position : Position) : String :=
  match position.source with
  | some locator => s!"{locator.path.asString}:{position.line}:{position.column}"
  | none => s!"{position.line}:{position.column}"

end Gherkin
