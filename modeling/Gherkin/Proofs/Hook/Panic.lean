import Gherkin.Proofs.Hook.Lifecycle
/-!
Runs that a panic cuts short. A run calls the hooks of a set in order up to the first that panics,
and that one; when none does it calls them all. The set stays what it was, so whatever is registered
and run later goes on as if the run that failed had never been.
-/
namespace Gherkin

/-- What may be done with a set of hooks. In a run `call` tells the message that a hook panics
with. -/
inductive HookMove (Hook : Type)
  | register (priority : Priority) (hook : Hook)
  | run (call : Hook → Option String)

def HookMove.entry? {Hook : Type} : HookMove Hook → Option (Priority × Hook)
  | .register priority hook => some (priority, hook)
  | .run _ => none

def LifecycleMove.within? {Hook : Type} (phase : Phase) :
    LifecycleMove Hook → Option (HookMove Hook)
  | .register ⟨other, priority, hook⟩ =>
    if other = phase then some (.register priority hook) else none
  | .run other call => if other = phase then some (.run call) else none

namespace HookSet
variable {Hook : Type} {hooks : HookSet Hook} {made : List (Priority × Hook)}

def play (hooks : HookSet Hook) : List (HookMove Hook) → HookSet Hook × List (HookRun Hook)
  | [] => (hooks, [])
  | .register priority hook :: later => (hooks.register priority hook).play later
  | .run call :: later =>
    let rest := hooks.play later
    (rest.1, hooks.run call :: rest.2)

/-- Hooks in the order in which they run; those of one priority as they were registered. -/
def ordered (made : List (Priority × Hook)) : List (Priority × Hook) :=
  made.mergeSort fun first second => first.1.rank ≤ second.1.rank

-- Registering one more hook leaves the set as a stable sort of all that were registered.
theorem entries_register (inOrder : hooks.entries = ordered made) (priority : Priority)
    (hook : Hook) :
    (hooks.register priority hook).entries = ordered (made ++ [(priority, hook)]) := by
  let rank (entry : Priority × Hook) : WithTop Nat := entry.1.rank
  have sorted : hooks.Sorted := by
    rw [Sorted, inOrder]
    exact merge_sort_sorted rank made
  refine eq_of_sorted_of_ties (register_sorted sorted priority hook)
    (merge_sort_sorted rank (made ++ [(priority, hook)])) ?_
  intro value
  calc (hooks.register priority hook).entries.filter (·.1.rank = value)
      = (hooks.entries ++ [(priority, hook)]).filter (·.1.rank = value) :=
        register_ties sorted priority hook value
    _ = (made ++ [(priority, hook)]).filter (·.1.rank = value) := by
        rw [List.filter_append, List.filter_append, inOrder]
        exact congrArg (· ++ _) (merge_sort_ties rank made value)
    _ = (ordered (made ++ [(priority, hook)])).filter (·.1.rank = value) :=
        (merge_sort_ties rank _ value).symm

theorem entries_play (inOrder : hooks.entries = ordered made) (moves : List (HookMove Hook)) :
    (hooks.play moves).1.entries = ordered (made ++ moves.filterMap HookMove.entry?) := by
  induction moves generalizing hooks made with
  | nil => simpa [play] using inOrder
  | cons move later ih =>
    cases move with
    | register priority hook =>
      have next := ih (entries_register inOrder priority hook)
      rwa [List.append_assoc] at next
    | run call => exact ih inOrder

theorem play_append (hooks : HookSet Hook) (moves later : List (HookMove Hook)) :
    hooks.play (moves ++ later) =
      (((hooks.play moves).1.play later).1,
        (hooks.play moves).2 ++ ((hooks.play moves).1.play later).2) := by
  induction moves generalizing hooks with
  | nil => rfl
  | cons move rest ih =>
    cases move with
    | register priority hook => exact ih (hooks.register priority hook)
    | run call => simp only [List.cons_append, play, ih hooks]

end HookSet

namespace Lifecycle
variable {Hook : Type} {lifecycle : Lifecycle Hook}

theorem hooks_step (move : LifecycleMove Hook) (phase : Phase) :
    (lifecycle.step move).hooks phase =
      ((lifecycle.hooks phase).play (move.within? phase).toList).1 := by
  by_cases own : move.phase = phase
  · subst own
    cases move with
    | register registration =>
      have meant : (LifecycleMove.register registration).within? registration.phase =
        some (.register registration.priority registration.hook) := if_pos rfl
      rw [LifecycleMove.phase, meant]
      exact register_own lifecycle _ _ _
    | run other call =>
      have meant : (LifecycleMove.run other call).within? other = some (.run call) := if_pos rfl
      rw [LifecycleMove.phase, meant]
      rfl
  · have passed : move.within? phase = none := by
      cases move <;> exact if_neg own
    rw [step_other move own, passed]
    rfl

-- A phase holds the set that its own moves lead to, whatever is done with the others.
theorem hooks_after (moves : List (LifecycleMove Hook)) (phase : Phase) :
    (lifecycle.after moves).hooks phase =
      ((lifecycle.hooks phase).play (moves.filterMap (LifecycleMove.within? phase))).1 := by
  induction moves generalizing lifecycle with
  | nil => rfl
  | cons move later ih =>
    have parted : (move :: later).filterMap (LifecycleMove.within? phase) =
        (move.within? phase).toList ++ later.filterMap (LifecycleMove.within? phase) := by
      rw [List.filterMap_cons]
      cases move.within? phase <;> rfl
    calc (lifecycle.after (move :: later)).hooks phase
        = ((lifecycle.step move).after later).hooks phase := rfl
      _ = _ := ih
      _ = _ := by rw [hooks_step, parted, HookSet.play_append]

end Lifecycle

/-- Whatever has been registered and run, a run calls the hooks in order up to the first that
panics, and later moves find the set as if that run had not been made. The hooks of a phase are
such a set. -/
theorem run_up_to_panic {Hook : Type} (moves : List (HookMove Hook))
    (call : Hook → Option String) :
    let start : HookSet Hook := {}
    let hooks := (start.play moves).1
    let order := HookSet.ordered (moves.filterMap HookMove.entry?)
    let reached := HookSet.reached call order
    hooks.entries = order ∧
    hooks.run call =
      { called := reached.map Prod.snd
        events := reached.mapIdx fun index entry => ⟨index, order.length, entry.1⟩
        panic := order.findSome? fun entry => call entry.2 } ∧
    (∀ later,
      let rest := hooks.play later
      start.play (moves ++ later) = (rest.1, (start.play moves).2 ++ rest.2) ∧
      start.play (moves ++ .run call :: later) =
        (rest.1, (start.play moves).2 ++ hooks.run call :: rest.2)) ∧
    ∀ (within : List (LifecycleMove Hook)) (phase : Phase),
      (({} : Lifecycle Hook).after within).run phase call =
        (start.play (within.filterMap (LifecycleMove.within? phase))).1.run call := by
  intro start hooks order reached
  have unregistered : start.entries = HookSet.ordered [] := List.mergeSort_nil.symm
  have inOrder : hooks.entries = order := HookSet.entries_play unregistered moves
  refine ⟨inOrder, ?_, fun later => ⟨?_, ?_⟩, ?_⟩
  · rw [HookSet.run_eq, inOrder]
  · exact HookSet.play_append start moves later
  · exact HookSet.play_append start moves (.run call :: later)
  · intro within phase
    rw [Lifecycle.run, Lifecycle.hooks_after]

-- The second hook to run panics: the third is not called, and the next run goes on past it.
example :
    let moves : List (HookMove String) := [.register none "last", .register (some 2) "second",
      .register (some 1) "first",
      .run fun hook => if hook = "second" then some "no" else none, .run fun _ => none]
    ((({} : HookSet String).play moves).2.map fun run => (run.called, run.panic)) =
      [(["first", "second"], some "no"), (["first", "second", "last"], none)] := by
  decide +kernel

end Gherkin
