import Gherkin.Hook.Lifecycle
import Gherkin.Proofs.Hook.Order
import Gherkin.Proofs.Hook.Run
/-!
A lifecycle over time. Hooks are registered for its phases and phases are run, in whatever order.
At any time each phase holds the hooks registered for it so far, as a stable sort by priority gives
them, and a run of the phase calls them in that order. What is registered for one phase does not
touch the others, and a run touches none.
-/
namespace Gherkin

/-- A hook as it is registered for a phase. -/
structure Registration (Hook : Type) where
  phase : Phase
  priority : Priority
  hook : Hook

/-- What is kept of a registration in the set of its phase. -/
def Registration.entry {Hook : Type} (registration : Registration Hook) : Priority × Hook :=
  (registration.priority, registration.hook)

/-- Registrations in the order in which their hooks run; those of one priority as they were made. -/
def Registration.ordered {Hook : Type} (made : List (Registration Hook)) :
    List (Registration Hook) :=
  made.mergeSort fun first second => first.priority.rank ≤ second.priority.rank

/-- What may happen to a lifecycle. In a run `call` tells the message that a hook panics with. -/
inductive LifecycleMove (Hook : Type)
  | register (registration : Registration Hook)
  | run (phase : Phase) (call : Hook → Option String)

namespace LifecycleMove
variable {Hook : Type}

def phase : LifecycleMove Hook → Phase
  | .register registration => registration.phase
  | .run phase _ => phase

def registration? : LifecycleMove Hook → Option (Registration Hook)
  | .register registration => some registration
  | .run _ _ => none

end LifecycleMove

namespace Lifecycle
variable {Hook : Type} {lifecycle : Lifecycle Hook} {made : List (Registration Hook)}
  {phase : Phase}

/-- The lifecycle after a move. A run leaves it as it is. -/
def step (lifecycle : Lifecycle Hook) : LifecycleMove Hook → Lifecycle Hook
  | .register registration =>
    lifecycle.register registration.phase registration.priority registration.hook
  | .run _ _ => lifecycle

def after (lifecycle : Lifecycle Hook) (moves : List (LifecycleMove Hook)) : Lifecycle Hook :=
  moves.foldl step lifecycle

theorem register_own (lifecycle : Lifecycle Hook) (phase : Phase) (priority : Priority)
    (hook : Hook) :
    (lifecycle.register phase priority hook).hooks phase =
      (lifecycle.hooks phase).register priority hook :=
  if_pos rfl

theorem register_other {other : Phase} (apart : other ≠ phase) (priority : Priority)
    (hook : Hook) : (lifecycle.register phase priority hook).hooks other = lifecycle.hooks other :=
  if_neg apart

/-- Whether a phase holds the hooks that some registrations are for: sorted, and those of one
priority in the order of the registrations. -/
structure Holds (lifecycle : Lifecycle Hook) (made : List (Registration Hook)) (phase : Phase) :
    Prop where
  sorted : (lifecycle.hooks phase).Sorted
  ties : ∀ value, (lifecycle.hooks phase).entries.filter (·.1.rank = value) =
    ((made.filter (·.phase = phase)).map Registration.entry).filter (·.1.rank = value)

theorem holds_empty (phase : Phase) : ({} : Lifecycle Hook).Holds [] phase :=
  ⟨List.Pairwise.nil, fun _ => rfl⟩

theorem holds_step (holds : lifecycle.Holds made phase) (move : LifecycleMove Hook) :
    (lifecycle.step move).Holds (made ++ move.registration?.toList) phase := by
  cases move with
  | run other call => simpa [step, LifecycleMove.registration?] using holds
  | register registration =>
    by_cases own : phase = registration.phase
    · subst own
      constructor
      · rw [step, register_own]
        exact HookSet.register_sorted holds.sorted _ _
      · intro value
        rw [step, register_own, HookSet.register_ties holds.sorted, List.filter_append,
          holds.ties]
        simp [LifecycleMove.registration?, Registration.entry]
    · have others : (made ++ (LifecycleMove.register registration).registration?.toList).filter
          (·.phase = phase) = made.filter (·.phase = phase) := by
        simp [LifecycleMove.registration?, Ne.symm own]
      constructor
      · rw [step, register_other own]
        exact holds.sorted
      · intro value
        rw [step, register_other own, holds.ties, others]

theorem holds_after (holds : lifecycle.Holds made phase) (moves : List (LifecycleMove Hook)) :
    (lifecycle.after moves).Holds (made ++ moves.filterMap LifecycleMove.registration?) phase := by
  induction moves generalizing lifecycle made with
  | nil => simpa [after] using holds
  | cons move rest ih =>
    have later := ih (holds_step holds move)
    have next : (made ++ move.registration?.toList) ++
        rest.filterMap LifecycleMove.registration? =
          made ++ (move :: rest).filterMap LifecycleMove.registration? := by
      cases move <;> simp [List.filterMap_cons, LifecycleMove.registration?]
    rwa [next] at later

theorem ordered_entries (made : List (Registration Hook)) :
    (Registration.ordered made).map Registration.entry =
      (made.map Registration.entry).mergeSort fun first second => first.1.rank ≤ second.1.rank :=
  List.map_mergeSort fun _ _ _ _ => rfl

-- Both are sorted, and both have the hooks of each priority as they were registered.
theorem entries_of_holds (holds : lifecycle.Holds made phase) :
    (lifecycle.hooks phase).entries =
      (Registration.ordered (made.filter (·.phase = phase))).map Registration.entry := by
  rw [ordered_entries]
  refine eq_of_sorted_of_ties holds.sorted ?_ ?_
  · exact merge_sort_sorted (fun entry : Priority × Hook => entry.1.rank) _
  · intro value
    rw [holds.ties]
    exact (merge_sort_ties (fun entry : Priority × Hook => entry.1.rank) _ value).symm

theorem size_of_holds (holds : ∀ phase, lifecycle.Holds made phase) :
    lifecycle.size = made.length := by
  have sizes : ∀ phase, (lifecycle.hooks phase).size =
      made.countP (·.phase = phase) := by
    intro phase
    rw [HookSet.size, entries_of_holds (holds phase), List.length_map, Registration.ordered,
      List.length_mergeSort, List.countP_eq_length_filter]
  simp only [size, Phase.all, List.foldr_cons, List.foldr_nil, sizes]
  clear holds sizes
  induction made with
  | nil => rfl
  | cons registration rest ih =>
    rw [List.length_cons, ← ih]
    cases found : registration.phase <;> simp [found] <;> omega

theorem run_called (holds : lifecycle.Holds made phase) (call : Hook → Option String) :
    let order := (Registration.ordered (made.filter (·.phase = phase))).map Registration.hook
    (lifecycle.run phase call).called <+: order ∧
      ((∀ hook ∈ order, call hook = none) → (lifecycle.run phase call).called = order) := by
  intro order
  let entries := (lifecycle.hooks phase).entries
  have hooks : entries.map Prod.snd = order := by
    rw [show entries = _ from entries_of_holds holds, List.map_map]
    rfl
  have called : (lifecycle.run phase call).called = (HookSet.reached call entries).map Prod.snd :=
    congrArg HookRun.called (HookSet.run_eq _ call)
  rw [called, ← hooks]
  constructor
  · exact (HookSet.reached_initial call entries).map Prod.snd
  · intro quiet
    rw [HookSet.reached_all (List.forall_mem_map.mp quiet)]

theorem step_other {other : Phase} (move : LifecycleMove Hook) (apart : move.phase ≠ other) :
    (lifecycle.step move).hooks other = lifecycle.hooks other := by
  cases move with
  | register registration => exact register_other apart.symm _ _
  | run phase call => rfl

end Lifecycle

theorem run_in_rank_order {Hook : Type} (moves : List (LifecycleMove Hook)) :
    let lifecycle := ({} : Lifecycle Hook).after moves
    let made := moves.filterMap LifecycleMove.registration?
    lifecycle.size = made.length ∧
    (∀ phase call,
      let order := (Registration.ordered (made.filter (·.phase = phase))).map Registration.hook
      let called := (lifecycle.run phase call).called
      called <+: order ∧ ((∀ hook ∈ order, call hook = none) → called = order)) ∧
    (∀ move phase, (move.phase ≠ phase ∨ move.registration? = none) →
      (lifecycle.step move).hooks phase = lifecycle.hooks phase) ∧
    ∀ phase,
      let hooks := lifecycle.hooks phase
      hooks.Sorted ∧
      ∀ priority hook,
        let within := HookSet.upTo priority
        (∀ entry ∈ hooks.entries, within entry = true ↔ entry.1.rank ≤ priority.rank) ∧
        Parted within hooks.entries ∧
        searchBoundary within hooks.entries 0 hooks.size =
          (hooks.entries.takeWhile within).length ∧
        (hooks.register priority hook).entries =
          hooks.entries.takeWhile within ++ (priority, hook) :: hooks.entries.dropWhile within := by
  intro lifecycle made
  have holds : ∀ phase, lifecycle.Holds made phase := fun phase =>
    Lifecycle.holds_after (Lifecycle.holds_empty phase) moves
  refine ⟨Lifecycle.size_of_holds holds, fun phase call => Lifecycle.run_called (holds phase) call,
    ?_, ?_⟩
  · rintro move phase (apart | run)
    · exact Lifecycle.step_other move apart
    · cases move with
      | register registration => cases run
      | run other call => rfl
  · intro phase hooks
    have sorted : hooks.Sorted := (holds phase).sorted
    refine ⟨sorted, fun priority hook => ⟨fun entry _ => HookSet.up_to_iff priority entry,
      HookSet.sorted_parted sorted priority, HookSet.register_place sorted priority,
      HookSet.register_entries sorted priority hook⟩⟩

theorem run_in_rank_order_ties :
    let register phase priority hook : LifecycleMove String := .register ⟨phase, priority, hook⟩
    let moves := [register .beforeStep none "a", register .beforeStep (some 1) "b",
      register .afterStep (some 0) "c", .run .beforeStep fun _ => some "panic",
      register .beforeStep (some 4294967295) "d", register .beforeStep none "e",
      register .beforeStep (some 1) "f", register .beforeStep (some 0) "g"]
    let lifecycle := ({} : Lifecycle String).after moves
    lifecycle.size = 7 ∧
    (lifecycle.run .beforeStep fun _ => none).called = ["g", "b", "f", "d", "a", "e"] ∧
    (lifecycle.run .afterStep fun _ => none).called = ["c"] ∧
    (lifecycle.step (register .beforeStep (some 0) "h")).hooks .afterStep =
      lifecycle.hooks .afterStep := by
  intro register moves lifecycle
  obtain ⟨size, called, others, _⟩ := run_in_rank_order moves
  have before := (called .beforeStep fun _ => none).2 fun _ _ => rfl
  have after := (called .afterStep fun _ => none).2 fun _ _ => rfl
  have order : (Registration.ordered [⟨.beforeStep, none, "a"⟩, ⟨.beforeStep, some 1, "b"⟩,
      ⟨.beforeStep, some 4294967295, "d"⟩, ⟨.beforeStep, none, "e"⟩, ⟨.beforeStep, some 1, "f"⟩,
      ⟨.beforeStep, some 0, "g"⟩]).map Registration.hook = ["g", "b", "f", "d", "a", "e"] := by
    simp +decide [Registration.ordered, List.mergeSort]
  have single : (Registration.ordered [⟨.afterStep, some 0, "c"⟩]).map Registration.hook = ["c"] :=
    congrArg (List.map Registration.hook) (List.mergeSort_singleton _)
  exact ⟨size, before.trans order, after.trans single, others _ _ (Or.inl (by decide))⟩

end Gherkin
