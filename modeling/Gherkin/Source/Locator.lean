import Gherkin.Text.Basic
/-!
Locators name the file a text came from. A locator is never checked: it is a path, with or without
the scheme `file://`, and it serves only to name the file in positions and messages.
-/
namespace Gherkin

structure Locator where
  path : Text
  deriving DecidableEq

namespace Locator

def scheme : Text := Text.ofString "file://"

def ofText (text : Text) : Locator :=
  match scheme.isPrefixOf? text with
  | some path => ⟨path⟩
  | none => ⟨text⟩

def isIdle (piece : Text) : Bool := piece == [] || piece == ['.']

/-- The last component of the path, when that is the name of a file. -/
def fileName? (locator : Locator) : Option Text :=
  match ((Text.splitOn (· == '/') locator.path).filter (!isIdle ·)).getLast? with
  | some name => if name = ['.', '.'] then none else some name
  | none => none

def displayName (locator : Locator) : Text := locator.fileName?.getD locator.path

end Locator

def unnamedSource : Text := Text.ofString "<unnamed>"

def sourceName (source : Option Locator) : Text :=
  (source.map Locator.displayName).getD unnamedSource

end Gherkin
