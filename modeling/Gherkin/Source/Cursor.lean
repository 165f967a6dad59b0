import Gherkin.Source.Position
import Gherkin.Text.Blank
/-!
The cursor walks over a text one character at a time and knows the place it has reached. It keeps
the characters behind it, the nearest first, and the characters still ahead.

Reading consumes characters and looking ahead does not. Both stop at the same character, so what
was seen ahead is what a read then gives.
-/
namespace Gherkin

structure Cursor where
  behind : Text := []
  ahead : Text
  place : Place := {}
  source : Option Locator := none
  deriving DecidableEq

namespace Cursor

def ofText (text : Text) (source : Option Locator) : Cursor := { ahead := text, source := source }

def position (cursor : Cursor) : Position := ⟨cursor.place, cursor.source⟩

def current? (cursor : Cursor) : Option Char := cursor.ahead.head?

def next? (cursor : Cursor) : Option Char := cursor.ahead.tail.head?

def previous? (cursor : Cursor) : Option Char := cursor.behind.head?

def text (cursor : Cursor) : Text := cursor.behind.reverse ++ cursor.ahead

def consumed (cursor : Cursor) : Nat := cursor.behind.length

def length (cursor : Cursor) : Nat := cursor.behind.length + cursor.ahead.length

def isEmpty (cursor : Cursor) : Bool := cursor.behind.isEmpty && cursor.ahead.isEmpty

def isAtEnd (cursor : Cursor) : Bool := cursor.ahead.isEmpty

def advance (cursor : Cursor) : Cursor :=
  match cursor.ahead with
  | [] => cursor
  | c :: rest =>
    { cursor with behind := c :: cursor.behind, ahead := rest, place := cursor.place.after c }

def advanceBy (cursor : Cursor) : Nat → Cursor
  | 0 => cursor
  | count + 1 => if cursor.isAtEnd then cursor else cursor.advance.advanceBy count

theorem advance_ahead (cursor : Cursor) : cursor.advance.ahead = cursor.ahead.tail := by
  unfold advance
  split <;> simp_all

-- Advancing moves characters from ahead to behind, and the place goes along character by character.
theorem advance_by_eq (cursor : Cursor) (count : Nat) :
    cursor.advanceBy count =
      { cursor with
        behind := (cursor.ahead.take count).reverse ++ cursor.behind
        ahead := cursor.ahead.drop count
        place := (cursor.ahead.take count).foldl Place.after cursor.place } := by
  induction count generalizing cursor with
  | zero => simp [advanceBy]
  | succ count ih =>
    obtain ⟨behind, ahead, place, source⟩ := cursor
    cases ahead with
    | nil => simp [advanceBy, isAtEnd]
    | cons c rest => simp [advanceBy, isAtEnd, advance, ih]

@[simp] theorem advance_by_behind (cursor : Cursor) (count : Nat) :
    (cursor.advanceBy count).behind = (cursor.ahead.take count).reverse ++ cursor.behind := by
  rw [advance_by_eq]

@[simp] theorem advance_by_ahead (cursor : Cursor) (count : Nat) :
    (cursor.advanceBy count).ahead = cursor.ahead.drop count := by
  rw [advance_by_eq]

@[simp] theorem advance_by_place (cursor : Cursor) (count : Nat) :
    (cursor.advanceBy count).place = (cursor.ahead.take count).foldl Place.after cursor.place := by
  rw [advance_by_eq]

@[simp] theorem advance_by_source (cursor : Cursor) (count : Nat) :
    (cursor.advanceBy count).source = cursor.source := by
  rw [advance_by_eq]

@[simp] theorem advance_by_text (cursor : Cursor) (count : Nat) :
    (cursor.advanceBy count).text = cursor.text := by
  simp [text, List.take_append_drop]

theorem advance_by_add (cursor : Cursor) (first second : Nat) :
    (cursor.advanceBy first).advanceBy second = cursor.advanceBy (first + second) := by
  simp only [advance_by_eq, List.take_add, List.drop_drop, List.reverse_append, List.foldl_append,
    List.append_assoc]

theorem advance_by_consumed (cursor : Cursor) {count : Nat}
    (inside : count ≤ cursor.ahead.length) :
    (cursor.advanceBy count).consumed = cursor.consumed + count := by
  simp only [consumed, advance_by_behind, List.length_append, List.length_reverse,
    List.length_take, Nat.min_eq_left inside]
  omega

def readUntil (stop : Char → Bool) (cursor : Cursor) : Text × Cursor :=
  match _divided : cursor.ahead with
  | [] => ([], cursor)
  | c :: _ =>
    if stop c then ([], cursor)
    else
      let read := cursor.advance.readUntil stop
      (c :: read.1, read.2)
termination_by cursor.ahead.length
decreasing_by simp [advance_ahead, _divided]

def readLineUntil (stop : Char → Bool) (cursor : Cursor) : Text × Cursor :=
  cursor.readUntil fun c => c == '\n' || stop c

/-- The characters that a read up to a stop character or the end of the line would consume. -/
def aheadOnLine (stop : Char → Bool) (cursor : Cursor) : Text := Text.lineUntil stop cursor.ahead

/-- The character at which such a read would end; none when the text ends first. -/
def terminator? (stop : Char → Bool) (cursor : Cursor) : Option Char :=
  cursor.ahead.find? fun c => c == '\n' || stop c

def skipSpaces (cursor : Cursor) : Bool × Cursor :=
  let read := cursor.readLineUntil (!Text.isSpace ·)
  (!read.1.isEmpty, read.2)

end Cursor
end Gherkin
