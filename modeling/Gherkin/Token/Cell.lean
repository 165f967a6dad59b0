import Gherkin.Text.Marks
/-!
Cells of a data table. A cell is a header when its first and last characters other than spaces are
the angle brackets and neither is escaped. The reader keeps track of that while it decodes, since
afterwards an escaped bracket cannot be told from a plain one.
-/
namespace Gherkin

/-- Whether the first character of a cell other than a space opens a header, once there is one, and
whether the last one closes it. -/
structure HeaderFence where
  opened : Option Bool := none
  closed : Bool := false
  deriving DecidableEq

namespace HeaderFence

def literal (fence : HeaderFence) : HeaderFence := ⟨some (fence.opened.getD false), false⟩

def plain (fence : HeaderFence) (c : Char) : HeaderFence :=
  if Text.isSpace c then fence else ⟨some (fence.opened.getD (c == '<')), c == '>'⟩

def isFenced (fence : HeaderFence) : Bool := fence.opened == some true && fence.closed

end HeaderFence

structure Cell where
  width : Nat
  text : Text
  fence : HeaderFence
  deriving DecidableEq

namespace Cell

def escape? (c : Char) : Option Char :=
  if c = 'n' then some '\n'
  else if c = '|' ∨ c = '\\' ∨ c = '<' ∨ c = '>' then some c
  else none

def push (width : Nat) (c : Char) (cell : Cell) : Cell :=
  { cell with width := width + cell.width, text := c :: cell.text }

def ofText (fence : HeaderFence) : Text → Cell
  | [] => ⟨0, [], fence⟩
  | '\\' :: c :: rest =>
    match escape? c with
    | some decoded => (ofText fence.literal rest).push 2 decoded
    | none => (ofText (fence.plain '\\') (c :: rest)).push 1 '\\'
  | c :: rest =>
    if c = '\n' ∨ c = '|' then ⟨0, [], fence⟩ else (ofText (fence.plain c) rest).push 1 c

def unfenced (text : Text) : Text :=
  match text with
  | '<' :: inner => if inner.getLast? = some '>' then inner.dropLast else text
  | _ => text

end Cell
end Gherkin
