import Gherkin.Text.Marks
/-!
Doc strings. The body of a doc string runs from the opening fence to the next run of quotes and
backticks that is the same fence, or to the end of the text. A backslash before a quote, a backtick
or a backslash takes away that character's meaning and is itself no part of what is meant.

What is meant is then laid out: the rest of the fence's line is the content type, the indentation
of the first content line is taken off every content line, and blank lines at the end go.
-/
namespace Gherkin

structure DocString where
  raw : Text
  literal : Text
  contentType : Option Text
  deriving DecidableEq

namespace DocString

structure Body where
  raw : Text
  decoded : Text
  deriving DecidableEq

def Body.plain (c : Char) (body : Body) : Body := ⟨c :: body.raw, c :: body.decoded⟩

def Body.escaped (c : Char) (body : Body) : Body := ⟨'\\' :: c :: body.raw, c :: body.decoded⟩

def isEscapable (c : Char) : Bool := Text.isFenceMark c || c == '\\'

-- A longer run that ends in the fence closes the body there; what is before belongs to the body.
def Body.ofText (fence : Text) : Text → Body
  | [] => ⟨[], []⟩
  | '\\' :: c :: rest =>
    if isEscapable c then (Body.ofText fence rest).escaped c
    else (Body.ofText fence (c :: rest)).plain '\\'
  | c :: rest =>
    if Text.isFenceMark c && Text.fenceRun (c :: rest) == fence then ⟨[], []⟩
    else (Body.ofText fence rest).plain c

def indentation : List Text → Nat
  | [] => 0
  | first :: _ => if Text.isBlankText first then 0 else (first.takeWhile Text.isSpace).length

def unindent (indentation : Nat) (line : Text) : Text :=
  line.drop (min indentation (line.takeWhile Text.isSpace).length)

def layout (raw decoded : Text) : DocString :=
  let lines := Text.lines decoded
  let contentType := Text.trim Text.isBlank (lines.headD [])
  let content := lines.tail.map (unindent (indentation lines.tail))
  { raw
    literal := Text.unlines (Text.trimEnd Text.isBlankText content)
    contentType := if contentType = [] then none else some contentType }

end DocString
end Gherkin
