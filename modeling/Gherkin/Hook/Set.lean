import Gherkin.Log
/-!
Sets of hooks. A set keeps its hooks in the order in which they run: by priority, small numbers
first and hooks without a priority last, and hooks of one priority in the order in which they were
registered. A new hook goes behind all hooks that do not come after it, and a search by halves
finds that place.

A run calls one hook after the other. A hook that panics ends the run; the set is as before.
-/
namespace Gherkin

abbrev Priority := Option Nat

namespace Priority

def precedes : Priority → Priority → Bool
  | _, none => true
  | none, some _ => false
  | some first, some second => first ≤ second

def display : Priority → String
  | some number => s!"Some({number})"
  | none => "None"

end Priority

structure HookSet (Hook : Type) where
  entries : List (Priority × Hook) := []

structure HookEvent where
  index : Nat
  size : Nat
  priority : Priority
  deriving DecidableEq

def HookEvent.record (event : HookEvent) : LogRecord :=
  ⟨.trace,
    s!"running hook {event.index} of {event.size} (priority {event.priority.display})"⟩

structure HookRun (Hook : Type) where
  called : List Hook := []
  events : List HookEvent := []
  panic : Option String := none

/-- The first index from `low` on, below `high`, at which a test fails that holds of a first part
of the items and of no others; `high` when there is none. -/
def searchBoundary {α : Type} (test : α → Bool) (items : List α) (low high : Nat) : Nat :=
  if low < high then
    let middle := low + (high - low) / 2
    if items[middle]?.any test then searchBoundary test items (middle + 1) high
    else searchBoundary test items low middle
  else low
termination_by high - low

namespace HookSet

variable {Hook : Type}

def size (hooks : HookSet Hook) : Nat := hooks.entries.length

def isEmpty (hooks : HookSet Hook) : Bool := hooks.entries.isEmpty

def priorities (hooks : HookSet Hook) : List Priority := hooks.entries.map (·.1)

def register (hooks : HookSet Hook) (priority : Priority) (hook : Hook) : HookSet Hook :=
  let index :=
    searchBoundary (fun entry => Priority.precedes entry.1 priority) hooks.entries 0 hooks.size
  ⟨hooks.entries.insertIdx index (priority, hook)⟩

/-- Calls hooks one after the other, where `call` tells the message that a hook panics with. -/
def callAll (call : Hook → Option String) (size : Nat) :
    Nat → List (Priority × Hook) → HookRun Hook
  | _, [] => {}
  | index, (priority, hook) :: later =>
    match call hook with
    | some message => ⟨[hook], [⟨index, size, priority⟩], some message⟩
    | none =>
      let run := callAll call size (index + 1) later
      { run with
        called := hook :: run.called
        events := ⟨index, size, priority⟩ :: run.events }

def run (hooks : HookSet Hook) (call : Hook → Option String) : HookRun Hook :=
  callAll call hooks.size 0 hooks.entries

def display (hooks : HookSet Hook) : String :=
  "HookSet \x7b priorities: [" ++ ", ".intercalate (hooks.priorities.map Priority.display) ++
    "] \x7d"

end HookSet
end Gherkin
