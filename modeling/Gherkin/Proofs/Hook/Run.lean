import Gherkin.Hook.Set
/-!
What a run of hooks does. It goes hook by hook, and one that panics is the last that it gets to; so
it calls a first part of the hooks, and all of them when none panics.
-/
namespace Gherkin.HookSet
variable {Hook : Type} {call : Hook → Option String} {entry : Priority × Hook}

/-- The hooks that a run gets to: all of them in turn up to the first that panics, and that one. -/
def reached (call : Hook → Option String) (order : List (Priority × Hook)) :
    List (Priority × Hook) :=
  order.take (order.findIdx (fun entry => (call entry.2).isSome) + 1)

theorem reached_panics {message : String} (panics : call entry.2 = some message)
    (later : List (Priority × Hook)) : reached call (entry :: later) = [entry] := by
  simp [reached, List.findIdx_cons, panics]

theorem reached_quiet (quiet : call entry.2 = none) (later : List (Priority × Hook)) :
    reached call (entry :: later) = entry :: reached call later := by
  simp [reached, List.findIdx_cons, quiet]

theorem call_all_eq (call : Hook → Option String) (size index : Nat)
    (entries : List (Priority × Hook)) :
    callAll call size index entries =
      { called := (reached call entries).map Prod.snd
        events := (reached call entries).mapIdx fun further entry =>
          ⟨index + further, size, entry.1⟩
        panic := entries.findSome? fun entry => call entry.2 } := by
  induction entries generalizing index with
  | nil => rfl
  | cons entry later ih =>
    obtain ⟨priority, hook⟩ := entry
    rw [callAll]
    cases outcome : call hook with
    | some message =>
      rw [reached_panics outcome, List.findSome?_cons, outcome]
      rfl
    | none =>
      have further : (fun further (entry : Priority × Hook) =>
          HookEvent.mk (index + 1 + further) size entry.1) =
            fun further entry => ⟨index + (further + 1), size, entry.1⟩ := by
        funext further entry
        rw [Nat.add_assoc, Nat.add_comm 1]
      rw [reached_quiet outcome, ih (index + 1), further, List.findSome?_cons, outcome,
        List.mapIdx_cons]
      rfl

theorem run_eq (hooks : HookSet Hook) (call : Hook → Option String) :
    hooks.run call =
      { called := (reached call hooks.entries).map Prod.snd
        events := (reached call hooks.entries).mapIdx fun index entry =>
          ⟨index, hooks.entries.length, entry.1⟩
        panic := hooks.entries.findSome? fun entry => call entry.2 } := by
  rw [run, call_all_eq]
  simp only [Nat.zero_add, size]

theorem reached_initial (call : Hook → Option String) (order : List (Priority × Hook)) :
    reached call order <+: order :=
  List.take_prefix _ _

theorem reached_all {order : List (Priority × Hook)}
    (quiet : ∀ entry ∈ order, call entry.2 = none) : reached call order = order := by
  apply List.take_of_length_le
  rw [List.findIdx_eq_length_of_false fun entry member => by rw [quiet entry member]; rfl]
  exact Nat.le_succ _

end Gherkin.HookSet
