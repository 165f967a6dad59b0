import Gherkin.Proofs.Scan.Elsewhere
import Gherkin.Proofs.Scan.Report
/-!
Scans that share a context, one after another. A scan begins by putting the context's language
back, so neither the language that an earlier text has left nor the diagnostics held have a say in
what it finds. Each text is scanned as if it were alone, and the context gathers what the scans
note.
-/
namespace Gherkin

/-- Scans texts one after another in one context, each with a lexer of its own. -/
def ScanContext.lexInTurn (context : ScanContext) :
    List (Text × Option Text) → List (List Token) × ScanContext
  | [] => ([], context)
  | (text, source) :: rest =>
    let run := (Lexer.ofText text source).lex context
    let later := run.context.lexInTurn rest
    (run.tokens :: later.1, later.2)

namespace Lexer
variable {context elsewhere : ScanContext}

/-- The diagnostics that a scan adds to those of its context. -/
def noted (context : ScanContext) (lexer : Lexer) : List Diagnostic :=
  (lexer.lex context).comments.filterMap Comment.complaint? ++
    Diagnostic.verdict lexer.cursor.source (lexer.lex context).tokens

theorem lex_notes (context : ScanContext) (lexer : Lexer) :
    (lexer.lex context).context.diagnostics = context.diagnostics ++ lexer.noted context := by
  rw [lex_diagnostics, List.append_assoc]
  rfl

-- Both scans are runs in contexts with one language, the default one of both.
theorem lex_elsewhere (same : elsewhere.defaultLanguage = context.defaultLanguage)
    (lexer : Lexer) :
    let here := lexer.lex context
    let there := lexer.lex elsewhere
    there.tokens = here.tokens ∧ there.comments = here.comments ∧ there.lexer = here.lexer ∧
      there.events = here.events := by
  have reset : elsewhere.resetLanguage.language = context.resetLanguage.language := same
  have drained : lexer.drain elsewhere.resetLanguage = _ := drain_elsewhere reset
  dsimp only [lex]
  rw [drained, reset]
  refine ⟨rfl, rfl, rfl, ?_⟩
  dsimp only
  split <;> rfl

theorem noted_elsewhere (same : elsewhere.defaultLanguage = context.defaultLanguage)
    (lexer : Lexer) : lexer.noted elsewhere = lexer.noted context := by
  obtain ⟨tokens, comments, _⟩ := lex_elsewhere same lexer
  rw [noted, noted, tokens, comments]

theorem noted_alone (context : ScanContext) (lexer : Lexer) :
    (lexer.lex (.ofLanguage context.defaultLanguage)).context.diagnostics =
      lexer.noted context := by
  have same : (ScanContext.ofLanguage context.defaultLanguage).defaultLanguage =
      context.defaultLanguage := rfl
  rw [lex_notes, noted_elsewhere same]
  rfl

end Lexer

-- Each scan keeps the default language, so the next one is as independent of what it leaves.
theorem ScanContext.lex_in_turn_alone (context : ScanContext) (files : List (Text × Option Text)) :
    let alone := files.map fun file =>
      (Lexer.ofText file.1 file.2).lex (.ofLanguage context.defaultLanguage)
    (context.lexInTurn files).1 = alone.map (·.tokens) ∧
      (context.lexInTurn files).2.diagnostics =
        context.diagnostics ++ alone.flatMap (·.context.diagnostics) := by
  induction files generalizing context with
  | nil => exact ⟨rfl, (List.append_nil _).symm⟩
  | cons file rest ih =>
    obtain ⟨text, source⟩ := file
    let lexer := Lexer.ofText text source
    have fresh : (ScanContext.ofLanguage context.defaultLanguage).defaultLanguage =
        context.defaultLanguage := rfl
    obtain ⟨tokens, diagnostics⟩ := ih (lexer.lex context).context
    rw [Lexer.lex_default] at tokens diagnostics
    constructor
    · rw [lexInTurn, tokens, List.map_cons, List.map_cons, (Lexer.lex_elsewhere fresh lexer).1]
    · rw [lexInTurn, diagnostics, Lexer.lex_notes, List.map_cons, List.flatMap_cons,
        Lexer.noted_alone, List.append_assoc]

theorem lex_in_turn (context elsewhere : ScanContext)
    (same : elsewhere.defaultLanguage = context.defaultLanguage) :
    (∀ lexer : Lexer,
      let here := lexer.lex context
      let there := lexer.lex elsewhere
      there.tokens = here.tokens ∧ there.lexer = here.lexer ∧ there.events = here.events ∧
      there.context.language = here.context.language ∧
      ∃ noted, here.context.diagnostics = context.diagnostics ++ noted ∧
        there.context.diagnostics = elsewhere.diagnostics ++ noted) ∧
    ∀ files : List (Text × Option Text),
      let alone := files.map fun file =>
        (Lexer.ofText file.1 file.2).lex (.ofLanguage context.defaultLanguage)
      let shared := context.lexInTurn files
      shared.1 = alone.map (·.tokens) ∧
      shared.2.diagnostics = context.diagnostics ++ alone.flatMap (·.context.diagnostics) := by
  refine ⟨fun lexer => ?_, context.lex_in_turn_alone⟩
  obtain ⟨tokens, comments, after, events⟩ := Lexer.lex_elsewhere same lexer
  refine ⟨tokens, after, events, ?_, lexer.noted context, Lexer.lex_notes context lexer, ?_⟩
  · rw [Lexer.lex_language, Lexer.lex_language, comments, same]
  · rw [Lexer.lex_notes, Lexer.noted_elsewhere same]

theorem lex_in_turn_after_switch :
    let fresh := ScanContext.standard
    let left : ScanContext :=
      { fresh with
        language := .ofDialect (Text.ofString "fr") .french
        diagnostics := [.noValidGherkin none] }
    let switching := (Text.ofString "# language: fr\nQuand x\n", some (Text.ofString "a.feature"))
    let refused := (Text.ofString "When y\n# language: tlh\n", none)
    let alone := [switching, refused].map fun file => (Lexer.ofText file.1 file.2).lex fresh
    let shared := left.lexInTurn [switching, refused]
    fresh.defaultLanguage = left.defaultLanguage ∧ fresh.language ≠ left.language ∧
    shared.1 = alone.map (·.tokens) ∧
    shared.2.diagnostics = [.noValidGherkin none, .unsupportedLanguage (Text.ofString "tlh")
      { line := 2, column := 1, source := none }] := by
  intro fresh left switching refused alone shared
  obtain ⟨_, inTurn⟩ := lex_in_turn left fresh rfl
  obtain ⟨tokens, diagnostics⟩ := inTurn [switching, refused]
  have noted : alone.flatMap (·.context.diagnostics) =
      [.unsupportedLanguage (Text.ofString "tlh") { line := 2, column := 1, source := none }] := by
    decide +kernel
  refine ⟨rfl, by decide +kernel, tokens, diagnostics.trans ?_⟩
  exact congrArg (left.diagnostics ++ ·) noted

end Gherkin
