import Gherkin.Language.Dialect
/-!
Resolving the head of a line. A structural keyword has to be the whole head, spaces at its end
aside. A step keyword only has to open the head, and of all that do the longest is taken; a
synonym that ends in a space is also recognised without it when it is the whole head.
-/
namespace Gherkin

structure ScopeMatch where
  scope : Scope
  length : Nat
  deriving DecidableEq

namespace Language

def synonymLength? (text synonym : Text) : Option Nat :=
  if synonym.isPrefixOf text then some synonym.length
  else
    let head := Text.trimEnd Text.isSpace text
    if head = Text.trimEnd Text.isSpace synonym then some head.length else none

/-- The longest of some matches, the first of them when several are as long. -/
def longest? : List ScopeMatch → Option ScopeMatch
  | [] => none
  | first :: rest =>
    match longest? rest with
    | none => some first
    | some best => if first.length < best.length then some best else some first

def stepMatches (language : Language) (text : Text) : List ScopeMatch :=
  language.steps.filterMap fun entry =>
    (synonymLength? text entry.2).map fun length => ⟨.step entry.1, length⟩

def resolve (language : Language) (text : Text) : Option ScopeMatch :=
  let head := Text.trimEnd Text.isSpace text
  match language.structural.find? fun entry => entry.2 == head with
  | some entry => some ⟨entry.1, entry.2.length⟩
  | none => longest? (language.stepMatches text)

def scopeOf (language : Language) (text : Text) : Scope :=
  ((language.resolve text).map (·.scope)).getD .unknown

-- A keyword that matches is never empty; the scanner ends because of this.

theorem longest_mem {found : ScopeMatch} {candidates : List ScopeMatch}
    (chosen : longest? candidates = some found) : found ∈ candidates := by
  induction candidates generalizing found with
  | nil => simp [longest?] at chosen
  | cons first rest ih =>
    cases later : longest? rest with
    | none => simp_all [longest?]
    | some best =>
      simp only [longest?, later] at chosen
      split at chosen
      · cases chosen; exact List.mem_cons_of_mem first (ih later)
      · cases chosen; exact List.mem_cons_self

theorem synonym_length_pos {text synonym : Text} {length : Nat}
    (named : Text.isBlankText synonym = false)
    (taken : synonymLength? text synonym = some length) : 0 < length := by
  obtain ⟨c, member, visible⟩ := List.all_eq_false.mp named
  unfold synonymLength? at taken
  split at taken
  · cases taken; exact List.length_pos_of_mem member
  · dsimp only at taken
    split at taken
    · next same =>
      cases taken
      rw [same]
      apply List.length_pos_iff.mpr
      apply Text.trim_end_ne_nil member
      cases space : Text.isSpace c
      · rfl
      · exact absurd (Text.is_blank_of_is_space space) visible
    · cases taken

theorem resolve_length_pos {language : Language} {text : Text} {found : ScopeMatch}
    (resolved : language.resolve text = some found) : 0 < found.length := by
  unfold resolve at resolved
  dsimp only at resolved
  split at resolved
  · next entry listed =>
    cases resolved
    obtain ⟨c, member, _⟩ :=
      List.all_eq_false.mp (language.structural_not_blank entry (List.mem_of_find?_eq_some listed))
    exact List.length_pos_of_mem member
  · obtain ⟨entry, listed, matched⟩ := List.mem_filterMap.mp (longest_mem resolved)
    obtain ⟨length, taken, rfl⟩ := Option.map_eq_some_iff.mp matched
    exact synonym_length_pos (language.steps_not_blank entry listed) taken

end Language
end Gherkin
