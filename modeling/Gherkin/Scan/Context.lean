import Gherkin.Scan.Event
import Gherkin.Scan.Settings
import Gherkin.Token.Comment
/-!
The context of a scan: the language in force, the language that every scan begins in, and the
diagnostics noted so far. Only comments change the language, and every change of a context comes
with the events that a log records of it.
-/
namespace Gherkin

/-- What scanners share that work one after another. -/
structure ScanContext where
  defaultLanguage : Language
  language : Language
  diagnostics : List Diagnostic := []
  deriving DecidableEq

namespace ScanContext

def ofLanguage (language : Language) : ScanContext :=
  { defaultLanguage := language, language := language }

def standard : ScanContext := ofLanguage .default

def ofSettings (settings : Settings) : Except Settings.Invalid ScanContext :=
  settings.language.map ofLanguage

def resetLanguage (context : ScanContext) : ScanContext :=
  { context with language := context.defaultLanguage }

def note (context : ScanContext) (diagnostic : Diagnostic) : ScanContext × List ScanEvent :=
  ({ context with diagnostics := context.diagnostics ++ [diagnostic] }, [.noted diagnostic])

def takeDiagnostics (context : ScanContext) : List Diagnostic × ScanContext :=
  (context.diagnostics, { context with diagnostics := [] })

def heed (context : ScanContext) (comment : Comment) : ScanContext × List ScanEvent :=
  match comment.code? with
  | none => (context, [])
  | some code =>
    match Language.find? code with
    | none => context.note (.unsupportedLanguage code comment.position)
    | some language =>
      ({ context with language := language },
        [.switched comment.position context.language.code language.code])

end ScanContext
end Gherkin
