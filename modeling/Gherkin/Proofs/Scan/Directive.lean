import Gherkin.Proofs.Scan.Beside
import Gherkin.Proofs.Scan.LineStart
import Gherkin.Proofs.Scan.Report
import Gherkin.Proofs.Text.Trimmed
/-!
A directive on the first line and a looked-up setting. Both name the language that a text is in,
and both accept the same codes: a text below a directive is read as the text by itself in the
context that the setting gives, one line further down. A code that the settings refuse is refused
by the directive too, and then it leaves a diagnostic and the language as it was.
-/
namespace Gherkin

/-- The place one line further down; the number of the line grows until it is the largest one. -/
def Place.nextLine (place : Place) : Place := { place with line := nextCoordinate place.line }

theorem Place.kept_next_line : Kept fun _ place lower => lower = place.nextLine := by
  rintro c rest place lower rfl
  by_cases feed : c = '\n'
  · simp [after, nextLine, feed]
  · simp [after, nextLine, feed]

theorem Diagnostic.verdict_moved (move : Place → Place) (source : Option Locator)
    (tokens : List Token) :
    verdict source (tokens.map (Token.moved move)) =
      (verdict source tokens).map (Diagnostic.moved move) := by
  have same : (tokens.map (Token.moved move)).map (·.kind) = tokens.map (·.kind) := by
    rw [List.map_map]
    rfl
  rw [verdict_of_kinds same, verdict]
  split <;> rfl

namespace Lexer

/-- The comment that a text begins with on a line of its own. -/
def firstComment (source : Option Text) (body : Text) : Comment :=
  ⟨⟨{}, (ofText [] source).cursor.source⟩, body, true⟩

theorem beside_past_comment (source : Option Text) {body : Text} (text : Text)
    (unbroken : '\n' ∉ body) :
    Beside (fun _ place lower => lower = place.nextLine) (ofText text source)
      ((ofText ('#' :: (body ++ '\n' :: text)) source).pastComment body) where
  ahead := past_comment_ahead rfl
  state := rfl
  place := past_comment_place rfl unbroken
  source := Cursor.advance_by_source _ _

theorem drain_below_comment (source : Option Text) {context elsewhere : ScanContext}
    {body : Text} (text : Text) (unbroken : '\n' ∉ body)
    (same : (context.heed (firstComment source body)).1.language = elsewhere.language) :
    let both := (ofText ('#' :: (body ++ '\n' :: text)) source).drain context
    let alone := (ofText text source).drain elsewhere
    both.tokens = alone.tokens.map (Token.moved Place.nextLine) ∧
    both.comments = firstComment source body ::
      alone.comments.map (Comment.moved Place.nextLine) ∧
    both.context.language = alone.context.language := by
  intro both alone
  have walk : Walk elsewhere (ofText text source) alone := walk_drain _ _
  obtain ⟨below, walkBelow, tokens, comments⟩ := walk_moved (fun _ _ _ below => below)
    Place.kept_next_line walk (beside_past_comment source text unbroken) same
  have found : (ofText ('#' :: (body ++ '\n' :: text)) source).read context.language = some _ :=
    read_comment_line context.language rfl rfl unbroken
  have joined : both = below.withComment _ _ := drain_of_walk (Walk.comment found walkBelow)
  rw [joined]
  refine ⟨tokens, congrArg (_ :: ·) comments, ?_⟩
  rw [Run.withComment, walk_context walkBelow, comments, walk_context walk]
  exact ScanContext.heed_all_moved Place.nextLine same _

theorem lex_below_comment (source : Option Text) (context elsewhere : ScanContext)
    {body : Text} (text : Text) (unbroken : '\n' ∉ body)
    (same : (context.resetLanguage.heed (firstComment source body)).1.language =
      elsewhere.resetLanguage.language) (unnoted : elsewhere.diagnostics = []) :
    let both := (ofText ('#' :: (body ++ '\n' :: text)) source).lex context
    let alone := (ofText text source).lex elsewhere
    both.tokens = alone.tokens.map (Token.moved Place.nextLine) ∧
    both.context.language = alone.context.language ∧
    both.context.diagnostics =
      context.diagnostics ++ (firstComment source body).complaint?.toList ++
        alone.context.diagnostics.map (Diagnostic.moved Place.nextLine) := by
  intro both alone
  obtain ⟨tokens, comments, language⟩ := drain_below_comment source text unbroken same
  refine ⟨tokens, by rw [lex_context, lex_context]; exact language, ?_⟩
  have noted : alone.context.diagnostics = alone.comments.filterMap Comment.complaint? ++
      Diagnostic.verdict (ofText text source).cursor.source alone.tokens := by
    rw [lex_diagnostics, unnoted, List.nil_append]
  have kept : both.tokens = alone.tokens.map (Token.moved Place.nextLine) := tokens
  have passed : both.comments = firstComment source body ::
    alone.comments.map (Comment.moved Place.nextLine) := comments
  have first :
      (firstComment source body :: alone.comments.map (Comment.moved Place.nextLine)).filterMap
        Comment.complaint? = (firstComment source body).complaint?.toList ++
        (alone.comments.filterMap Comment.complaint?).map (Diagnostic.moved Place.nextLine) := by
    rw [← List.singleton_append, List.filterMap_append, ScanContext.complaints_moved]
    cases complained : (firstComment source body).complaint? <;> simp [complained]
  rw [lex_diagnostics, passed, kept, first, noted, List.map_append, ← Diagnostic.verdict_moved]
  simp only [List.append_assoc]
  rfl

end Lexer

-- A looked-up value and the body of a directive give the same code: the one without its blanks.

theorem Settings.of_value_visible {code : Text} (visible : Text.isBlankText code = false) :
    let trimmed := Text.trim Text.isBlank code
    ofValue (some code) =
      match Language.find? trimmed with
      | some _ => .ok ⟨trimmed⟩
      | none => .error (.unsupportedLanguage trimmed) := by
  have some : Text.trim Text.isBlank code ≠ [] := fun none =>
    Bool.noConfusion (visible.symm.trans (Text.trim_eq_nil_iff.mp none))
  unfold ofValue
  simp only [Option.map_some, Option.filter_some, bne_iff_ne, ne_eq, some, not_false_eq_true,
    ↓reduceIte, override, withDefaultLanguage, language]
  cases Language.find? (Text.trim Text.isBlank code) <;> rfl

theorem Comment.code_of_directive (code : Text) :
    codeOf? (Text.ofString " language: " ++ code) = some (Text.trim Text.isBlank code) := rfl

theorem Lexer.first_comment_code (source : Option Text) (code : Text) :
    (firstComment source (Text.ofString " language: " ++ code)).code? =
      some (Text.trim Text.isBlank code) := Comment.code_of_directive code

theorem lex_directive_line (source : Option Text) (lookup : String → Option Text)
    (code text : Text) (found : lookup Settings.languageVariable = some code)
    (unbroken : '\n' ∉ code) (visible : Text.isBlankText code = false) :
    let line := Text.ofString "# language: " ++ code
    let directed := (Lexer.ofText (line ++ '\n' :: text) source).lex .standard
    let alone (context : ScanContext) := (Lexer.ofText text source).lex context
    (∀ settings, Settings.ofLookup (m := Id) lookup = .ok settings →
      ∃ context, ScanContext.ofSettings settings = .ok context ∧
        directed.tokens = (alone context).tokens.map (Token.moved Place.nextLine) ∧
        directed.context.language = (alone context).context.language ∧
        directed.context.diagnostics =
          (alone context).context.diagnostics.map (Diagnostic.moved Place.nextLine)) ∧
    ∀ refused, Settings.ofLookup (m := Id) lookup = .error (.unsupportedLanguage refused) →
      directed.tokens = (alone .standard).tokens.map (Token.moved Place.nextLine) ∧
      directed.context.language = (alone .standard).context.language ∧
      directed.context.diagnostics =
        .unsupportedLanguage refused ⟨⟨1, 1⟩, (Lexer.ofText text source).cursor.source⟩ ::
          (alone .standard).context.diagnostics.map (Diagnostic.moved Place.nextLine) := by
  intro line directed alone
  let body := Text.ofString " language: " ++ code
  let first := Lexer.firstComment source body
  have unbrokenBody : '\n' ∉ body := by
    intro member
    rcases List.mem_append.mp member with opening | inside
    · exact absurd opening (by decide)
    · exact unbroken inside
  have looked : Settings.ofLookup (m := Id) lookup = Settings.ofValue (some code) :=
    congrArg Settings.ofValue found
  have named : first.code? = some (Text.trim Text.isBlank code) :=
    Lexer.first_comment_code source code
  have language : first.language? = Language.find? (Text.trim Text.isBlank code) := by
    rw [Comment.language?, named, Option.bind_some]
  -- Whatever the code names, the text below goes on in the language that the comment leaves.
  have below (elsewhere : ScanContext) (unnoted : elsewhere.diagnostics = [])
      (same : first.language?.getD .default = elsewhere.defaultLanguage) :
      directed.tokens = (alone elsewhere).tokens.map (Token.moved Place.nextLine) ∧
      directed.context.language = (alone elsewhere).context.language ∧
      directed.context.diagnostics = first.complaint?.toList ++
        (alone elsewhere).context.diagnostics.map (Diagnostic.moved Place.nextLine) := by
    apply Lexer.lex_below_comment source .standard elsewhere text unbrokenBody _ unnoted
    rw [ScanContext.heed_context]
    exact same
  rw [looked, Settings.of_value_visible visible]
  cases known : Language.find? (Text.trim Text.isBlank code) with
  | some found =>
    constructor
    · rintro settings ⟨⟩
      refine ⟨ScanContext.ofLanguage found, ?_, ?_⟩
      · simp [ScanContext.ofSettings, Settings.language, known, Except.map]
      · have silent : first.complaint? = none := by simp [Comment.complaint?, language, known]
        obtain ⟨tokens, final, diagnostics⟩ :=
          below (.ofLanguage found) rfl (by rw [language, known]; rfl)
        exact ⟨tokens, final, by rw [diagnostics, silent]; rfl⟩
    · intro refused accepted
      cases accepted
  | none =>
    constructor
    · intro settings refused
      cases refused
    · rintro refused ⟨⟩
      have complained : first.complaint? =
          some (.unsupportedLanguage (Text.trim Text.isBlank code) first.position) := by
        simp [Comment.complaint?, named, language, known]
      obtain ⟨tokens, final, diagnostics⟩ := below .standard rfl (by rw [language, known]; rfl)
      exact ⟨tokens, final, by rw [diagnostics, complained]; rfl⟩

theorem lex_directive_line_loose :
    let value (code : String) : String → Id (Option Text) := fun _ => some (Text.ofString code)
    let text := Text.ofString "Quand x"
    let accepted := (Lexer.ofText (Text.ofString "# language:  fr_CA \nQuand x")).lex .standard
    let refused := (Lexer.ofText (Text.ofString "# language: tlh\nQuand x")).lex .standard
    (Settings.ofLookup (value " fr_CA ") = .ok ⟨Text.ofString "fr_CA"⟩ ∧
      ∃ context, ScanContext.ofSettings ⟨Text.ofString "fr_CA"⟩ = .ok context ∧
        accepted.tokens =
          ((Lexer.ofText text).lex context).tokens.map (Token.moved Place.nextLine)) ∧
    Settings.ofLookup (value "tlh") = .error (.unsupportedLanguage (Text.ofString "tlh")) ∧
      refused.tokens =
        ((Lexer.ofText text).lex .standard).tokens.map (Token.moved Place.nextLine) ∧
      refused.context.diagnostics.head? =
        some (.unsupportedLanguage (Text.ofString "tlh") ⟨⟨1, 1⟩, none⟩) := by
  intro value text accepted refused
  constructor
  · refine ⟨rfl, ?_⟩
    obtain ⟨accepts, _⟩ := lex_directive_line none (value " fr_CA ") (Text.ofString " fr_CA ") text
      rfl (by decide) (by decide)
    obtain ⟨context, made, tokens, _⟩ := accepts ⟨Text.ofString "fr_CA"⟩ rfl
    exact ⟨context, made, tokens⟩
  · refine ⟨rfl, ?_⟩
    obtain ⟨_, refuses⟩ := lex_directive_line none (value "tlh") (Text.ofString "tlh") text
      rfl (by decide) (by decide)
    obtain ⟨tokens, _, diagnostics⟩ := refuses (Text.ofString "tlh") rfl
    exact ⟨tokens, congrArg List.head? diagnostics⟩

end Gherkin
