import Gherkin.Source.Position
import Gherkin.Step.Scope
import Gherkin.Token.DocString
/-!
Tokens are what scanning a feature file produces. A token is structural unless it is a line break
or a description; a text without structural tokens is no feature file.
-/
namespace Gherkin

inductive TokenKind
  | newLine
  | tag (name : Text)
  | scope (scope : Scope)
  | title (text : Text)
  | description (text : Text)
  | keyword (keyword : StepKeyword)
  /-- Text that step patterns are matched against. -/
  | matchText (text : Text)
  | docString (content : DocString)
  | tableCell (text : Text)
  | tableHeader (name : Text)
  deriving DecidableEq

namespace TokenKind

def isNewLine : TokenKind → Bool
  | .newLine => true
  | _ => false

def isDescription : TokenKind → Bool
  | .description _ => true
  | _ => false

def isStructural (kind : TokenKind) : Bool := !kind.isNewLine && !kind.isDescription

def text? : TokenKind → Option Text
  | .tag text | .title text | .description text | .matchText text
  | .tableCell text | .tableHeader text => some text
  | .docString content => some content.literal
  | .newLine | .scope _ | .keyword _ => none

end TokenKind

structure Token where
  position : Position
  kind : TokenKind
  deriving DecidableEq

end Gherkin
