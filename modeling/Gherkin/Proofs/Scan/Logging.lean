import Gherkin.Proofs.Scan.Report
/-!
The log of a scan. A directive leaves one event, and that tells either the diagnostic which the
directive adds to the context or the change of language which it makes. The events of a run
therefore tell all that the run does to its context: which diagnostics it adds, in their order, and
by which languages it gets from the one that it begins in to the one that it ends in.
-/
namespace Gherkin

namespace ScanEvent

def diagnostic? : ScanEvent → Option Diagnostic
  | .noted diagnostic => some diagnostic
  | _ => none

def change? : ScanEvent → Option (Text × Text)
  | .switched _ former code => some (former, code)
  | _ => none

end ScanEvent

namespace ScanContext
variable {context middle after : ScanContext} {events more : List ScanEvent}

/-- Whether events tell how one context becomes another: they note the diagnostics that it gains,
and each of their changes begins in the language in force, up to the language at the end. -/
structure Becomes (context : ScanContext) (events : List ScanEvent) (after : ScanContext) :
    Prop where
  diagnostics : after.diagnostics =
    context.diagnostics ++ events.filterMap ScanEvent.diagnostic?
  languages : (events.filterMap ScanEvent.change?).map Prod.fst ++ [after.language.code] =
    context.language.code :: (events.filterMap ScanEvent.change?).map Prod.snd

theorem Becomes.trans (first : context.Becomes events middle) (rest : middle.Becomes more after) :
    context.Becomes (events ++ more) after where
  diagnostics := by
    rw [rest.diagnostics, first.diagnostics, List.filterMap_append, List.append_assoc]
  languages := by
    rw [List.filterMap_append, List.map_append, List.map_append, List.append_assoc, rest.languages,
      List.append_cons, first.languages, List.cons_append]

end ScanContext

namespace Lexer
variable {context : ScanContext} {lexer : Lexer} {run : Run}

end Lexer

end Gherkin
