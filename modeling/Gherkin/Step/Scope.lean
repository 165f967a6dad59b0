import Gherkin.Step.Keyword
/-!
Scopes are what a line of a feature file can open: one of the structural parts of a feature, a
step, or nothing that a language knows.
-/
namespace Gherkin

inductive Scope
  | feature | background | scenario | scenarioOutline | rule | examples
  | step (keyword : StepKeyword)
  | unknown
  deriving DecidableEq

namespace Scope

def isStep : Scope → Bool
  | .step _ => true
  | _ => false

def isStructural : Scope → Bool
  | .step _ | .unknown => false
  | _ => true

end Scope
end Gherkin
