import Mathlib.Data.List.Nodup
import Mathlib.Tactic.MkIffOfInductiveProp
import Gherkin.Language.Bundled
import Gherkin.Text.Marks
/-!
What the tables of all bundled languages have in common. No keyword can be taken for another, also
not when the spaces at its end are missing, and every keyword can be told at the start of a line
from the marks that may stand there.
-/
namespace Gherkin

/-- Whether a keyword can begin a line and be part of its head: its first character is neither blank
nor a symbol, and there is neither a colon nor a line feed in it. -/
@[mk_iff] structure Text.Heading (keyword : Text) : Prop where
  opens : keyword.head?.any (fun c => !isBlank c && !isSymbol c) = true
  unbroken : ':' ∉ keyword ∧ '\n' ∉ keyword

namespace Language

@[mk_iff] structure Unambiguous (language : Language) : Prop where
  scopes : ∀ entry ∈ language.structural, entry.1.isStructural = true
  structural : (language.structural.map (·.2)).Nodup
  steps : (language.steps.map fun entry => Text.trimEnd Text.isSpace entry.2).Nodup
  apart : ∀ entry ∈ language.structural, ∀ step ∈ language.steps,
    ¬step.2 <+: entry.2 ∧ Text.trimEnd Text.isSpace step.2 ≠ entry.2

/-- Whether every keyword can begin a line, and only step keywords end in spaces. -/
@[mk_iff] structure Legible (language : Language) : Prop where
  trimmed : ∀ entry ∈ language.structural, Text.trimEnd Text.isSpace entry.2 = entry.2
  structural : ∀ entry ∈ language.structural, entry.2.Heading
  steps : ∀ entry ∈ language.steps, entry.2.Heading

instance (keyword : Text) : Decidable keyword.Heading :=
  decidable_of_iff' _ (Text.heading_iff keyword)

instance (language : Language) : Decidable language.Unambiguous :=
  decidable_of_iff' _ (unambiguous_iff language)

instance (language : Language) : Decidable language.Legible :=
  decidable_of_iff' _ (legible_iff language)

theorem tables_of_mem_all :
    ∀ language ∈ all, language.Unambiguous ∧ language.Legible := by decide +kernel

end Language
end Gherkin
