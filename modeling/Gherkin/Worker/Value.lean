/-!
The values that jobs answer with, and their compact text: no blanks, the fields of an object in
the order given, and in strings only what has to be escaped.
-/
namespace Gherkin

inductive Value
  | null
  | bool (value : Bool)
  | int (value : Int)
  | string (value : String)
  | array (items : List Value)
  | object (fields : List (String × Value))

namespace Value

def flag (value : Bool) : String := if value then "true" else "false"

def hexDigit (digit : Nat) : Char := Char.ofNat (if digit < 10 then 48 + digit else 87 + digit)

/-- A character as it stands in a string: quotes, backslashes and control characters are
escaped, by a letter of their own where there is one. -/
def escape (c : Char) : List Char :=
  match c with
  | '"' => ['\\', '"']
  | '\\' => ['\\', '\\']
  | '\x08' => ['\\', 'b']
  | '\t' => ['\\', 't']
  | '\n' => ['\\', 'n']
  | '\x0c' => ['\\', 'f']
  | '\r' => ['\\', 'r']
  | c =>
    if c.toNat < 32 then
      ['\\', 'u', '0', '0', hexDigit (c.toNat / 16), hexDigit (c.toNat % 16)]
    else [c]

def quoted (text : String) : String :=
  "\"" ++ String.ofList (text.toList.flatMap escape) ++ "\""

mutual

def compact : Value → String
  | .null => "null"
  | .bool value => flag value
  | .int value => s!"{value}"
  | .string value => quoted value
  | .array items => "[" ++ ",".intercalate (compactItems items) ++ "]"
  | .object fields => "\x7b" ++ ",".intercalate (compactFields fields) ++ "\x7d"

def compactItems : List Value → List String
  | [] => []
  | item :: items => item.compact :: compactItems items

def compactFields : List (String × Value) → List String
  | [] => []
  | (name, value) :: fields => (quoted name ++ ":" ++ value.compact) :: compactFields fields

end

end Value
end Gherkin
