import Gherkin.Text.Basic
/-!
Language tags such as `pt-BR`: a primary language, then optionally a script, a region and any
number of variants, cut at hyphens or underscores. Each part is recognised by its form alone.
A tag that breaks off the pattern is refused, with the first part told apart from the others.
-/
namespace Gherkin

structure LanguageTag where
  primary : Text
  script : Option Text
  region : Option Text
  variants : List Text
  deriving DecidableEq

namespace LanguageTag

inductive Malformed
  | primary
  | subtag
  deriving DecidableEq

def Malformed.message : Malformed → String
  | .primary => "Parser error: The given language subtag is invalid"
  | .subtag => "Parser error: Invalid subtag"

def isPrimary (part : Text) : Bool :=
  part.all Char.isAlpha && 2 ≤ part.length && part.length ≤ 8 && part.length != 4

def isScript (part : Text) : Bool := part.all Char.isAlpha && part.length == 4

def isRegion (part : Text) : Bool :=
  (part.all Char.isAlpha && part.length == 2) || (part.all Char.isDigit && part.length == 3)

-- A variant of four characters that begins with a digit may hold any of these.
def isPartChar (c : Char) : Bool := 0 < c.toNat && c.toNat < 128

def isVariant : Text → Bool
  | [a, b, c, d] =>
    [a, b, c, d].all isPartChar && (a.isDigit || [b, c, d].all Char.isAlphanum)
  | part => part.all Char.isAlphanum && 5 ≤ part.length && part.length ≤ 8

def optional (form : Text → Bool) : List Text → Option Text × List Text
  | [] => (none, [])
  | part :: parts => if form part then (some part, parts) else (none, part :: parts)

def ofText (text : Text) : Except Malformed LanguageTag :=
  match Text.splitOn (fun c => c == '-' || c == '_') text with
  | [] => .error .primary
  | first :: parts =>
    if isPrimary first then
      let script := optional isScript parts
      let region := optional isRegion script.2
      if region.2.all isVariant then
        .ok ⟨first.map Char.toLower, script.1, region.1, region.2⟩
      else .error .subtag
    else .error .primary

end LanguageTag
end Gherkin
