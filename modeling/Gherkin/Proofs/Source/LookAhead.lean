import Gherkin.Proofs.Source.Place
import Gherkin.Proofs.Text.Runs
import Gherkin.Source.Cursor
/-!
Looking ahead and reading. Whatever has been asked of a cursor, it stands where advancing from the
start of its text would take it, and looking ahead leaves it there. What it then sees ahead on the
line is what a read gives, and the character that the look ends at is under the cursor afterwards;
so to read is to look ahead and to advance by what was seen.
-/
namespace Gherkin

/-- What may be asked of a cursor. The last two look ahead only. -/
inductive CursorMove
  | advance
  | advanceBy (count : Nat)
  | readUntil (stop : Char → Bool)
  | readLineUntil (stop : Char → Bool)
  | skipSpaces
  | aheadOnLine (stop : Char → Bool)
  | terminator (stop : Char → Bool)

def CursorMove.looksAhead : CursorMove → Bool
  | .aheadOnLine _ | .terminator _ => true
  | _ => false

inductive CursorAnswer
  | none
  | text (read : Text)
  | character (next : Option Char)
  | flag (found : Bool)

namespace Cursor

/-- What a cursor answers, and where it stands then. -/
def step (cursor : Cursor) : CursorMove → CursorAnswer × Cursor
  | .advance => (.none, cursor.advance)
  | .advanceBy count => (.none, cursor.advanceBy count)
  | .readUntil stop => (cursor.readUntil stop).map .text id
  | .readLineUntil stop => (cursor.readLineUntil stop).map .text id
  | .skipSpaces => cursor.skipSpaces.map .flag id
  | .aheadOnLine stop => (.text (cursor.aheadOnLine stop), cursor)
  | .terminator stop => (.character (cursor.terminator? stop), cursor)

def after (cursor : Cursor) (moves : List CursorMove) : Cursor :=
  moves.foldl (fun cursor move => (cursor.step move).2) cursor

-- A read is a run of the text ahead, and the cursor advances by its length.

theorem advance_eq (cursor : Cursor) : cursor.advance = cursor.advanceBy 1 := by
  obtain ⟨behind, ahead, place, source⟩ := cursor
  cases ahead <;> rfl

theorem read_until_eq (stop : Char → Bool) (cursor : Cursor) :
    cursor.readUntil stop =
      (cursor.ahead.takeWhile (!stop ·),
        cursor.advanceBy (cursor.ahead.takeWhile (!stop ·)).length) := by
  fun_induction readUntil stop cursor with
  | case1 cursor ended =>
    rw [ended]
    rfl
  | case2 cursor c rest ahead stops =>
    rw [ahead, List.takeWhile_cons_of_neg (by simp [stops])]
    rfl
  | case3 cursor c rest ahead goes read ih =>
    have next : cursor.advance.ahead = rest := by rw [advance_ahead, ahead, List.tail_cons]
    rw [ahead, List.takeWhile_cons_of_pos (by simp [goes]), List.length_cons, Nat.add_comm,
      ← advance_by_add, ← advance_eq]
    rw [next] at ih
    exact congrArg (fun read : Text × Cursor => (c :: read.1, read.2)) ih

-- A read of a line goes on where it does not stop, as a look ahead does.
theorem goes_on_line (stop : Char → Bool) :
    (fun c => !(c == '\n' || stop c)) = fun c => c != '\n' && !stop c := by
  funext c
  exact Bool.not_or _ _

theorem read_line_until_eq (stop : Char → Bool) (cursor : Cursor) :
    cursor.readLineUntil stop =
      (cursor.aheadOnLine stop, cursor.advanceBy (cursor.aheadOnLine stop).length) := by
  rw [readLineUntil, read_until_eq, goes_on_line]
  rfl

theorem current_behind_line (stop : Char → Bool) (cursor : Cursor) :
    (cursor.advanceBy (cursor.aheadOnLine stop).length).current? = cursor.terminator? stop := by
  rw [current?, advance_by_ahead, aheadOnLine, Text.lineUntil, Text.drop_run, terminator?,
    List.find?_eq_head?_dropWhile_not, goes_on_line]

-- Whatever moves a cursor advances it, and never past the end of the text.

theorem advance_by_min (cursor : Cursor) (count : Nat) :
    cursor.advanceBy count = cursor.advanceBy (min count cursor.ahead.length) := by
  rw [advance_by_eq, advance_by_eq, ← List.take_eq_take_min, ← List.drop_eq_drop_min]

theorem step_advances (cursor : Cursor) (move : CursorMove) :
    ∃ count, (cursor.step move).2 = cursor.advanceBy count := by
  cases move with
  | advance => exact ⟨1, advance_eq cursor⟩
  | advanceBy count => exact ⟨count, rfl⟩
  | readUntil stop => exact ⟨_, congrArg Prod.snd (read_until_eq stop cursor)⟩
  | readLineUntil stop => exact ⟨_, congrArg Prod.snd (read_line_until_eq stop cursor)⟩
  | skipSpaces => exact ⟨_, congrArg Prod.snd (read_line_until_eq _ cursor)⟩
  | aheadOnLine stop => exact ⟨0, rfl⟩
  | terminator stop => exact ⟨0, rfl⟩

theorem after_advances (cursor : Cursor) (moves : List CursorMove) :
    ∃ count, cursor.after moves = cursor.advanceBy count := by
  induction moves generalizing cursor with
  | nil => exact ⟨0, rfl⟩
  | cons move later ih =>
    obtain ⟨first, moved⟩ := step_advances cursor move
    obtain ⟨second, ended⟩ := ih (cursor.step move).2
    refine ⟨first + second, ?_⟩
    rw [← advance_by_add, ← moved, ← ended]
    rfl

theorem after_without_looks (cursor : Cursor) (moves : List CursorMove) :
    cursor.after (moves.filter (!·.looksAhead)) = cursor.after moves := by
  induction moves generalizing cursor with
  | nil => rfl
  | cons move later ih =>
    cases move <;> exact ih _

theorem after_start (text : Text) (source : Option Locator) (moves : List CursorMove) :
    let start := ofText text source
    let cursor := start.after moves
    cursor.consumed ≤ text.length ∧ cursor = start.advanceBy cursor.consumed := by
  intro start cursor
  obtain ⟨count, reached⟩ := after_advances start moves
  have capped : cursor = start.advanceBy (min count text.length) :=
    reached.trans (advance_by_min start count)
  have taken : cursor.consumed = min count text.length := by
    rw [capped, advance_by_consumed start (Nat.min_le_right count text.length)]
    exact Nat.zero_add _
  exact ⟨taken ▸ Nat.min_le_right count text.length, taken ▸ capped⟩

end Cursor

/-- Whatever a cursor has been asked, what it sees ahead on its line is what it reads next, and the
cursor is then where that takes it. -/
theorem read_as_seen (text : Text) (source : Option Locator) (moves : List CursorMove)
    (stop : Char → Bool) :
    let start := Cursor.ofText text source
    let cursor := start.after moves
    let seen := cursor.aheadOnLine stop
    let read := cursor.readLineUntil stop
    read = (seen, cursor.advanceBy seen.length) ∧
    read.2.current? = cursor.terminator? stop ∧
    read.2.consumed = cursor.consumed + seen.length ∧
    read.2.position = ⟨Place.endOf (text.take (cursor.consumed + seen.length)), source⟩ ∧
    (cursor.ahead = text.drop cursor.consumed ∧ cursor = start.advanceBy cursor.consumed) ∧
    cursor.step (.aheadOnLine stop) = (.text seen, cursor) ∧
    cursor.step (.terminator stop) = (.character (cursor.terminator? stop), cursor) ∧
    start.after (moves.filter (!·.looksAhead)) = cursor := by
  intro start cursor seen read
  have known : read = (seen, cursor.advanceBy seen.length) := Cursor.read_line_until_eq stop cursor
  obtain ⟨-, reached⟩ := Cursor.after_start text source moves
  have ahead : cursor.ahead = text.drop cursor.consumed :=
    (congrArg Cursor.ahead reached).trans (Cursor.advance_by_ahead start cursor.consumed)
  have inside : seen.length ≤ cursor.ahead.length := Text.run_length_le _ _
  have behind : read.2 = start.advanceBy (cursor.consumed + seen.length) := by
    rw [known, ← Cursor.advance_by_add]
    exact congrArg (·.advanceBy seen.length) reached
  refine ⟨known, ?_, ?_, ?_, ⟨ahead, reached⟩, rfl, rfl, Cursor.after_without_looks start moves⟩
  · rw [known]
    exact Cursor.current_behind_line stop cursor
  · rw [known]
    exact Cursor.advance_by_consumed cursor inside
  · rw [behind, Cursor.position, Cursor.advance_by_place, Cursor.advance_by_source]
    exact congrArg (Position.mk · source) (Place.end_of_append [] _).symm

end Gherkin
