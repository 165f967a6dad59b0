import Gherkin.Text.Blank
/-!
The canonical step keywords. Each language spells them in its own way; after scanning only these
values count. A conjunction continues the step before it and so takes that step's keyword; a
sequence that opens with a conjunction continues a context.
-/
namespace Gherkin

inductive StepType
  | context
  | action
  | outcome
  deriving DecidableEq

inductive StepKeyword
  | context
  | action
  | outcome
  | conjunction
  | contrast
  | bullet
  deriving DecidableEq

namespace StepKeyword

/-- All step keywords, in the order in which spellings are tried. -/
def all : List StepKeyword := [.context, .action, .outcome, .conjunction, .contrast, .bullet]

def spelling : StepKeyword → String
  | .context => "Given"
  | .action => "When"
  | .outcome => "Then"
  | .conjunction => "And"
  | .contrast => "But"
  | .bullet => "*"

def isConjunction : StepKeyword → Bool
  | .conjunction | .contrast | .bullet => true
  | .context | .action | .outcome => false

def stepType? : StepKeyword → Option StepType
  | .context => some .context
  | .action => some .action
  | .outcome => some .outcome
  | .conjunction | .contrast | .bullet => none

def ofType : StepType → StepKeyword
  | .context => .context
  | .action => .action
  | .outcome => .outcome

/-- The keyword that a step counts as after the last keyword that was no conjunction, and that
last keyword for the step after it. -/
def resolve (keyword : StepKeyword) (last : Option StepKeyword) :
    StepKeyword × Option StepKeyword :=
  if keyword.isConjunction then (last.getD .context, last) else (keyword, some keyword)

def resolveAll (last : Option StepKeyword) :
    List StepKeyword → List (StepKeyword × Option StepKeyword)
  | [] => []
  | keyword :: keywords =>
    let resolved := keyword.resolve last
    resolved :: resolveAll resolved.2 keywords

structure Misspelling where
  text : Text
  deriving DecidableEq

def Misspelling.message (misspelling : Misspelling) : String :=
  s!"invalid step keyword: {misspelling.text.asString}"

def ofText (text : Text) : Except Misspelling StepKeyword :=
  let trimmed := Text.trim Text.isBlank text
  let lower := trimmed.map Char.toLower
  match all.find? fun keyword => lower == keyword.spelling.toList.map Char.toLower with
  | some keyword => .ok keyword
  | none => .error ⟨trimmed⟩

end StepKeyword
end Gherkin
