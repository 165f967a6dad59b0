import Gherkin.Language.Bundled
import Gherkin.Language.Tag
/-!
Finding a language by a code that people wrote. The code is tried as it stands, then in its
normal spelling, and last by the primary language of the tag that it spells.
-/
namespace Gherkin.Language

/-- Lower case, exact for every character whose lower case is ASCII. No code has any other
character, so those may stay as they are. -/
def foldCase (c : Char) : Char := if c = '\u212A' then 'k' else c.toLower

def normalSpelling (code : Text) : Text :=
  code.map fun c => if c = '_' then '-' else foldCase c

def withCode? (code : Text) : Option Language := all.find? fun language => language.code == code

def withTag? (text : Text) : Option Language :=
  match LanguageTag.ofText text with
  | .ok tag => withCode? tag.primary
  | .error _ => none

def find? (code : Text) : Option Language :=
  let code := Text.trim Text.isBlank code
  let normal := normalSpelling code
  withCode? code <|> withCode? normal <|> withTag? normal

end Gherkin.Language
