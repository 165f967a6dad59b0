import Gherkin.Source.Position
import Gherkin.Text.Blank
/-!
Comments. A comment whose body is the word `language`, a colon and a code, with blanks allowed
between these, is a directive: from there on the text is in another language.
-/
namespace Gherkin

/-- A comment, the position of its mark, and whether it took the line feed that ends it, as a
comment does that begins its line. -/
structure Comment where
  position : Position
  body : Text
  breaksLine : Bool
  deriving DecidableEq

namespace Comment

def directiveWord : Text := Text.ofString "language"

def afterOpening? (opening text : Text) : Option Text :=
  opening.isPrefixOf? (text.dropWhile Text.isBlank)

def codeOf? (body : Text) : Option Text :=
  match afterOpening? directiveWord body with
  | none => none
  | some rest => (afterOpening? [':'] rest).map (Text.trim Text.isBlank)

def code? (comment : Comment) : Option Text := codeOf? comment.body

end Comment
end Gherkin
