import Mathlib.Data.List.Basic
import Gherkin.Source.Position
/-!
The place that a text leads to, told from the text alone: its line by the line feeds in it, its
column by the characters behind the last of them. Counting character by character gives the same,
since a coordinate that has stopped growing stays where it is.
-/
namespace Gherkin

/-- The characters of a text behind its last line feed. -/
def Text.lastLine (text : Text) : Text := (text.reverse.takeWhile (· != '\n')).reverse

namespace Place

def endOf (text : Text) : Place :=
  ⟨min (1 + text.count '\n') lastCoordinate, min (1 + text.lastLine.length) lastCoordinate⟩

/-- Whether one place comes before another in reading order. -/
def Before (first second : Place) : Prop :=
  first.line < second.line ∨ first.line = second.line ∧ first.column < second.column

end Place

namespace Text

theorem last_line_append_feed (text : Text) : lastLine (text ++ ['\n']) = [] := by
  simp [lastLine]

theorem last_line_append {text more : Text} (unbroken : '\n' ∉ more) :
    lastLine (text ++ more) = lastLine text ++ more := by
  have inside : ∀ c ∈ more.reverse, (c != '\n') = true := by
    intro c member
    rw [bne_iff_ne]
    rintro rfl
    exact unbroken (List.mem_reverse.mp member)
  rw [lastLine, List.reverse_append, List.takeWhile_append_of_pos inside, List.reverse_append,
    List.reverse_reverse, lastLine]

end Text

namespace Place

theorem next_coordinate_min (coordinate : Nat) :
    nextCoordinate (min coordinate lastCoordinate) = min (coordinate + 1) lastCoordinate := by
  simp only [nextCoordinate]
  omega

theorem end_of_append_char (text : Text) (c : Char) :
    endOf (text ++ [c]) = (endOf text).after c := by
  by_cases feed : c = '\n'
  · subst feed
    simp only [endOf, after, Text.last_line_append_feed, List.count_append, ↓reduceIte,
      next_coordinate_min]
    simp [lastCoordinate, Nat.add_assoc]
  · have unbroken : '\n' ∉ [c] := by simpa using Ne.symm feed
    simp only [endOf, after, Text.last_line_append unbroken, List.count_append,
      List.count_eq_zero.mpr unbroken, feed, ↓reduceIte, next_coordinate_min]
    simp [Nat.add_assoc]

theorem end_of_append (text more : Text) :
    endOf (text ++ more) = more.foldl after (endOf text) := by
  induction more generalizing text with
  | nil => simp
  | cons c rest ih =>
    rw [List.append_cons, ih, end_of_append_char]
    rfl

-- Between two places of a text that are not cut off there is the text between them.
theorem end_of_before (text more : Text) (some : more ≠ [])
    (lineKept : (endOf (text ++ more)).line < lastCoordinate)
    (columnKept : (endOf text).column < lastCoordinate) :
    (endOf text).Before (endOf (text ++ more)) := by
  simp only [endOf, List.count_append] at lineKept columnKept
  by_cases broken : '\n' ∈ more
  · have feeds := List.count_pos_iff.mpr broken
    left
    simp only [endOf, List.count_append]
    omega
  · have length := List.length_pos_iff.mpr some
    right
    simp only [endOf, Text.last_line_append broken, List.count_append,
      List.count_eq_zero.mpr broken, List.length_append]
    omega

end Place
end Gherkin
