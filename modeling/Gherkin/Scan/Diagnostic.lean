import Gherkin.Source.Position
/-!
Diagnostics. Scanning never fails; what it finds amiss it notes and goes on.
-/
namespace Gherkin

inductive Diagnostic
  | unsupportedLanguage (code : Text) (position : Position)
  | noValidGherkin (source : Option Locator)
  deriving DecidableEq

namespace Diagnostic

def source : Diagnostic → Option Locator
  | .unsupportedLanguage _ position => position.source
  | .noValidGherkin source => source

def fileName (diagnostic : Diagnostic) : Text := sourceName diagnostic.source

end Diagnostic
end Gherkin
