import Gherkin.Hook.Lifecycle
import Gherkin.Message.Localisation
import Gherkin.Scan.Feature
import Gherkin.Worker.Step
import Gherkin.Proofs.Hook.Panic
import Gherkin.Proofs.Language.Dialect
import Gherkin.Proofs.Language.Find
import Gherkin.Proofs.Message.Scopes
import Gherkin.Proofs.Scan.Directive
import Gherkin.Proofs.Scan.DocString
import Gherkin.Proofs.Scan.Idle
import Gherkin.Proofs.Scan.Interleaving
import Gherkin.Proofs.Scan.LineFeeds
import Gherkin.Proofs.Scan.Logging
import Gherkin.Proofs.Scan.Payload
import Gherkin.Proofs.Scan.Report
import Gherkin.Proofs.Scan.Returns
import Gherkin.Proofs.Scan.Row
import Gherkin.Proofs.Scan.Sharing
import Gherkin.Proofs.Scan.StepText
import Gherkin.Proofs.Scan.TokenLines
import Gherkin.Proofs.Scan.TokenPlaces
import Gherkin.Proofs.Scan.Verbatim
import Gherkin.Proofs.Scan.WholeLines
import Gherkin.Proofs.Source.LookAhead
import Gherkin.Proofs.Token.Directive
import Gherkin.Proofs.Token.Header
import Gherkin.Proofs.Token.Kept
import Gherkin.Proofs.Worker.Reference
