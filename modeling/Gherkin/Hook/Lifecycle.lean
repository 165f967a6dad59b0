import Gherkin.Hook.Set
/-!
The lifecycle of a test run. It has six phases, each with hooks of its own.
-/
namespace Gherkin

inductive Phase
  | beforeFeature | afterFeature | beforeScenario | afterScenario | beforeStep | afterStep
  deriving DecidableEq

namespace Phase

/-- All phases, in the order in which they are displayed. -/
def all : List Phase :=
  [.beforeFeature, .afterFeature, .beforeScenario, .afterScenario, .beforeStep, .afterStep]

def name : Phase → String
  | .beforeFeature => "before_feature"
  | .afterFeature => "after_feature"
  | .beforeScenario => "before_scenario"
  | .afterScenario => "after_scenario"
  | .beforeStep => "before_step"
  | .afterStep => "after_step"

end Phase

structure Lifecycle (Hook : Type) where
  hooks : Phase → HookSet Hook := fun _ => {}

namespace Lifecycle

variable {Hook : Type}

def size (lifecycle : Lifecycle Hook) : Nat :=
  Phase.all.foldr (fun phase total => (lifecycle.hooks phase).size + total) 0

def isEmpty (lifecycle : Lifecycle Hook) : Bool := lifecycle.size == 0

def register (lifecycle : Lifecycle Hook) (phase : Phase) (priority : Priority) (hook : Hook) :
    Lifecycle Hook where
  hooks other :=
    if other = phase then (lifecycle.hooks phase).register priority hook
    else lifecycle.hooks other

def run (lifecycle : Lifecycle Hook) (phase : Phase) (call : Hook → Option String) :
    HookRun Hook :=
  (lifecycle.hooks phase).run call

/-- The lifecycle as it is displayed: by the number of hooks of each phase. -/
def display (lifecycle : Lifecycle Hook) : String :=
  let counts := Phase.all.map fun phase => s!"{phase.name}: {(lifecycle.hooks phase).size}"
  "Lifecycle \x7b " ++ ", ".intercalate counts ++ " \x7d"

end Lifecycle
end Gherkin
