import Gherkin.Scan.Lexer
/-!
Scanning one text by itself, in the default language.
-/
namespace Gherkin

structure FeatureScan where
  tokens : List Token
  diagnostics : List Diagnostic
  language : Language
  events : List ScanEvent
  deriving DecidableEq

def scan (text : Text) (source : Option Text) : FeatureScan :=
  let run := (Lexer.ofText text source).lex .standard
  { tokens := run.tokens
    diagnostics := run.context.diagnostics
    language := run.context.language
    events := run.events }

end Gherkin
