import Gherkin.Step.Scope
/-!
Languages are tables of synonyms. A dialect lists the synonyms as they are published, scope by
scope; a language is made from it by dropping blank synonyms, giving the bullet a keyword of its
own and keeping each step synonym where it is listed first.
-/
namespace Gherkin

structure Dialect where
  name : String
  native : String
  feature : List Text
  background : List Text
  rule : List Text
  scenario : List Text
  scenarioOutline : List Text
  examples : List Text
  context : List Text
  action : List Text
  outcome : List Text
  conjunction : List Text
  contrast : List Text

namespace Dialect

-- The scopes and keywords stand in the order in which their synonyms are tried.
def structural (dialect : Dialect) : List (Scope × List Text) :=
  [(.feature, dialect.feature), (.background, dialect.background), (.scenario, dialect.scenario),
   (.scenarioOutline, dialect.scenarioOutline), (.rule, dialect.rule),
   (.examples, dialect.examples)]

def steps (dialect : Dialect) : List (StepKeyword × List Text) :=
  [(.context, dialect.context), (.action, dialect.action), (.outcome, dialect.outcome),
   (.conjunction, dialect.conjunction), (.contrast, dialect.contrast)]

end Dialect

/-- A language that keywords are resolved in. No synonym is blank, so a keyword that matches is
never empty. -/
structure Language where
  code : Text
  name : String
  native : String
  structural : List (Scope × Text)
  steps : List (StepKeyword × Text)
  structural_not_blank : ∀ entry ∈ structural, Text.isBlankText entry.2 = false
  steps_not_blank : ∀ entry ∈ steps, Text.isBlankText entry.2 = false
  deriving DecidableEq

namespace Language

def entries {Key : Type} (lists : List (Key × List Text)) : List (Key × Text) :=
  (lists.flatMap fun list => list.2.map fun synonym => (list.1, synonym)).filter
    fun entry => !Text.isBlankText entry.2

def firstEntries {Key : Type} : List (Key × Text) → List (Key × Text)
  | [] => []
  | entry :: rest => entry :: (firstEntries rest).filter fun later => later.2 != entry.2

/-- The keyword of a synonym: an asterisk is a bullet in whatever list it stands. -/
def keywordOf (listed : StepKeyword) (synonym : Text) : StepKeyword :=
  if Text.trim Text.isBlank synonym = ['*'] then .bullet else listed

theorem entries_not_blank {Key : Type} (lists : List (Key × List Text)) :
    ∀ entry ∈ entries lists, Text.isBlankText entry.2 = false := by
  intro entry member
  simpa using (List.mem_filter.mp member).2

theorem mem_of_mem_first_entries {Key : Type} {entry : Key × Text} {table : List (Key × Text)}
    (member : entry ∈ firstEntries table) : entry ∈ table := by
  induction table with
  | nil => exact member
  | cons first rest ih =>
    rcases List.mem_cons.mp member with rfl | later
    · exact List.mem_cons_self
    · exact List.mem_cons_of_mem first (ih (List.mem_filter.mp later).1)

def stepTable (dialect : Dialect) : List (StepKeyword × Text) :=
  firstEntries ((entries dialect.steps).map fun entry => (keywordOf entry.1 entry.2, entry.2))

theorem step_table_not_blank (dialect : Dialect) :
    ∀ entry ∈ stepTable dialect, Text.isBlankText entry.2 = false := by
  intro entry member
  obtain ⟨listed, present, rfl⟩ := List.mem_map.mp (mem_of_mem_first_entries member)
  exact entries_not_blank dialect.steps listed present

def ofDialect (code : Text) (dialect : Dialect) : Language where
  code := code
  name := dialect.name
  native := dialect.native
  structural := entries dialect.structural
  steps := stepTable dialect
  structural_not_blank := entries_not_blank dialect.structural
  steps_not_blank := step_table_not_blank dialect

def synonyms (language : Language) (scope : Scope) : List Text :=
  (language.structural.filter fun entry => entry.1 == scope).map (·.2)

def stepSynonyms (language : Language) (keyword : StepKeyword) : List Text :=
  (language.steps.filter fun entry => entry.1 == keyword).map (·.2)

end Language
end Gherkin
