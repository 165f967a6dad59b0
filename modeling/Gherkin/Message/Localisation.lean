import Gherkin.Message.Wording
/-!
The wording in use. One is shared by all, and a scope may put another in front of it for as
long as the scope lasts. Leaving a scope puts back what was in front when it was entered, so
whatever is chosen within a scope is gone after it.
-/
namespace Gherkin

structure Localisation where
  shared : Wording
  inFront : Option Wording := none
  deriving DecidableEq

namespace Localisation

structure Guard where
  former : Option Wording
  deriving DecidableEq

def initial : Localisation := { shared := ⟨[.american]⟩ }

def active (localisation : Localisation) : Wording :=
  localisation.inFront.getD localisation.shared

def select (localisation : Localisation) (requested : List LanguageTag) : Localisation :=
  match localisation.inFront with
  | some _ => { localisation with inFront := some (Wording.select requested) }
  | none => { localisation with shared := Wording.select requested }

/-- Replaces the shared wording, also within a scope. -/
def install (localisation : Localisation) (wording : Wording) : Localisation :=
  { localisation with shared := wording }

def enter (localisation : Localisation) (requested : List LanguageTag) : Guard × Localisation :=
  (⟨localisation.inFront⟩, { localisation with inFront := some (Wording.select requested) })

/-- Leaves the scope of a guard, whichever scope was entered last. -/
def leave (localisation : Localisation) (guard : Guard) : Localisation :=
  { localisation with inFront := guard.former }

def current (localisation : Localisation) : List Locale := localisation.active.current

def render (localisation : Localisation) (diagnostic : Diagnostic) : String :=
  localisation.active.render diagnostic

end Localisation
end Gherkin
