import Gherkin.Log
import Gherkin.Scan.Diagnostic
/-!
Events of a scan, which its log records in the order in which they happen.
-/
namespace Gherkin

inductive ScanEvent
  | started (name code : Text)
  | switched (position : Position) (former code : Text)
  | noted (diagnostic : Diagnostic)
  | ended (count : Nat)
  deriving DecidableEq

/-- The message of a noted diagnostic: it names the file only, not the whole path. -/
def Diagnostic.logMessage (diagnostic : Diagnostic) : String :=
  let file := diagnostic.fileName.asString
  match diagnostic with
  | .unsupportedLanguage code position =>
    s!"{file}:{position.line}:{position.column}: unsupported language '{code.asString}'"
  | .noValidGherkin _ => s!"{file}: no valid gherkin"

def ScanEvent.record : ScanEvent → LogRecord
  | .started name code => ⟨.debug, s!"scanning {name.asString} in '{code.asString}'"⟩
  | .switched position former code =>
    ⟨.debug, s!"{position.display}: switching language " ++
      s!"from '{former.asString}' to '{code.asString}'"⟩
  | .noted diagnostic => ⟨.warn, diagnostic.logMessage⟩
  | .ended count => ⟨.debug, s!"produced {count} tokens"⟩

end Gherkin
