import Mathlib.Data.List.Basic
import Gherkin.Proofs.Text.Runs
/-!
Patterns, and which of their matches is found. A pattern is tried place by place from the left, and
at one place it can often match in several ways. Of these the first in order of preference is found:
a repetition prefers to take as many characters as it can, or as few, and the preferences of an
earlier part of the pattern go before those of a later one.
-/
namespace Gherkin

inductive Pattern
  | start
  | finish
  | literal (text : Text)
  /-- Characters of a kind, as many as possible if it is greedy and as few as possible if not. -/
  | many (greedy : Bool) (kind : Char → Bool)
  | group (part : Pattern)
  | seq (first second : Pattern)

structure Attempt where
  behind : Text := []
  ahead : Text
  group : Option Text := none
  deriving DecidableEq

def Attempt.past (attempt : Attempt) (count : Nat) : Attempt :=
  { attempt with
    behind := attempt.behind ++ attempt.ahead.take count
    ahead := attempt.ahead.drop count }

namespace Pattern

/-- How far a pattern can get from where an attempt is, in order of preference. -/
def ways : Pattern → Attempt → List Attempt
  | start, attempt => if attempt.behind = [] then [attempt] else []
  | finish, attempt => if attempt.ahead = [] then [attempt] else []
  | literal text, attempt =>
    match text.isPrefixOf? attempt.ahead with
    | some rest => [{ attempt with behind := attempt.behind ++ text, ahead := rest }]
    | none => []
  | many greedy kind, attempt =>
    let counts := List.range ((attempt.ahead.takeWhile kind).length + 1)
    (if greedy then counts.reverse else counts).map attempt.past
  | group part, attempt =>
    (part.ways attempt).map fun matched =>
      { matched with group := some (matched.behind.drop attempt.behind.length) }
  | seq first second, attempt => (first.ways attempt).flatMap second.ways

def first? (pattern : Pattern) (text : Text) : Option Attempt :=
  (List.range (text.length + 1)).findSome? fun count =>
    (pattern.ways (Attempt.past { ahead := text } count)).head?

variable {kind : Char → Bool} {next : Pattern} {attempt : Attempt}

theorem find_some_range {α : Type} {f : Nat → Option α} {count bound : Nat}
    (within : count < bound) (before : ∀ fewer < count, f fewer = none)
    (found : (f count).isSome = true) : (List.range bound).findSome? f = f count := by
  obtain ⟨more, rfl⟩ := Nat.exists_eq_add_of_lt within
  obtain ⟨result, here⟩ := Option.isSome_iff_exists.mp found
  have none : (List.range count).findSome? f = none :=
    List.findSome?_eq_none_iff.mpr fun fewer member => before fewer (List.mem_range.mp member)
  rw [Nat.add_assoc, List.range_add, List.findSome?_append, none, Option.none_or,
    List.range_succ_eq_map, List.map_cons, List.findSome?_cons, Nat.add_zero, here]

-- A greedy repetition goes to the end of the run. It gives up characters only if the rest of the
-- pattern can begin with one of them.
theorem ways_many_greedy (stuck : ∀ attempt : Attempt, attempt.ahead.head?.any kind = true →
    next.ways attempt = []) (attempt : Attempt) :
    (seq (many true kind) next).ways attempt =
      next.ways (attempt.past (attempt.ahead.takeWhile kind).length) := by
  let run := (attempt.ahead.takeWhile kind).length
  have shorter : (List.range run).reverse.flatMap (fun count => next.ways (attempt.past count)) =
      [] := by
    refine List.flatMap_eq_nil_iff.mpr fun count member => stuck _ ?_
    have within : count < run := List.mem_range.mp (List.mem_reverse.mp member)
    exact Text.head_within_run within
  rw [ways, ways, if_pos rfl, List.range_succ, List.reverse_append, List.flatMap_map]
  exact (congrArg (next.ways (attempt.past run) ++ ·) shorter).trans (List.append_nil _)

theorem head_many_greedy {found : Attempt}
    (goes : (next.ways (attempt.past (attempt.ahead.takeWhile kind).length)).head? = some found) :
    ((seq (many true kind) next).ways attempt).head? = some found := by
  rw [ways, ways, if_pos rfl, List.range_succ, List.reverse_append, List.flatMap_map,
    List.head?_flatMap]
  exact (List.findSome?_cons).trans (by rw [goes])

-- A group of as few characters as possible ends where the rest of the pattern first goes on.
theorem head_many_lazy {count : Nat}
    (within : count ≤ (attempt.ahead.takeWhile kind).length) {found : Attempt}
    (before : ∀ fewer < count, ∀ group, next.ways { attempt.past fewer with group } = [])
    (goes : (next.ways { attempt.past count with
      group := some (attempt.ahead.take count) }).head? = some found) :
    ((seq (group (many false kind)) next).ways attempt).head? = some found := by
  have kept (count : Nat) : (attempt.past count).behind.drop attempt.behind.length =
      attempt.ahead.take count := List.drop_left
  simp only [ways, List.map_map, List.flatMap_map, List.head?_flatMap, Function.comp_def, kept]
  rw [← goes]
  apply find_some_range (Nat.lt_succ_of_le within)
  · intro fewer less
    rw [before fewer less]
    rfl
  · rw [goes]
    rfl

-- A pattern that begins at the start of the text is found there or not at all.
theorem first_at_start (next : Pattern) (text : Text) :
    (seq start next).first? text = (next.ways { ahead := text }).head? := by
  have here : (seq start next).ways (Attempt.past { ahead := text } 0) =
      next.ways { ahead := text } := by
    simp [ways, Attempt.past]
  have later : (List.range text.length).findSome? (fun count =>
      ((seq start next).ways (Attempt.past { ahead := text } (count + 1))).head?) = none := by
    rw [List.findSome?_eq_none_iff]
    intro count member
    have within : count < text.length := List.mem_range.mp member
    have some : text ≠ [] := List.ne_nil_of_length_pos (Nat.zero_lt_of_lt within)
    simp [ways, Attempt.past, some]
  rw [first?, List.range_succ_eq_map, List.findSome?_cons, List.findSome?_map, here]
  cases found : (next.ways { ahead := text }).head? with
  | some attempt => rfl
  | none => exact later

end Pattern
end Gherkin
