import Gherkin.Proofs.Scan.Beside
import Gherkin.Proofs.Scan.LineStart
import Gherkin.Proofs.Scan.Report
import Gherkin.Proofs.Token.Feeds
import Gherkin.Proofs.Token.Returns
/-!
A scan of a text with a carriage return before every line feed. The return is one more space at
the end of its line, so the scan gives what it gives without the returns: the same tokens, the same
language and the same diagnostics. Text to be matched that goes up to the end of a line untrimmed
is the one exception, for there the return becomes part of the token. Doc strings, which keep the
lines that they run over, are left out.
-/
namespace Gherkin

namespace Lexeme

theorem stretch_return (kind : Text → TokenKind) (state : LineState) {stop : Char → Bool}
    (goes : stop '\r' = false) (rest : Text) :
    stretch kind state stop ('\r' :: '\n' :: rest) = ⟨.trivia, 1, state⟩ := by
  have read : Text.lineUntil stop ('\r' :: '\n' :: rest) = ['\r'] := by simp [Text.lineUntil, goes]
  unfold stretch
  rw [read]
  rfl

-- Wherever a line ends, the return before its end is a lexeme that stands for nothing.
theorem read_return (language : Language) (state : LineState) (rest : Text) :
    read language state '\r' ('\n' :: rest) = ⟨.trivia, 1, state⟩ := by
  cases unread : state.atStart with
  | true => exact read_space language _ unread (by decide)
  | false =>
    have opened : read language state '\r' ('\n' :: rest) =
        if state.scope.isSome then stretch .title state (· == '<') ('\r' :: '\n' :: rest)
        else if state.keyword.isSome then
          stretch .matchText state Text.isSymbol ('\r' :: '\n' :: rest)
        else ⟨.trivia, 1, state⟩ := by
      simp [read, unread, Text.isFenceMark]
    rw [opened, stretch_return .title state (by decide),
      stretch_return .matchText state (by decide)]
    split_ifs <;> rfl

end Lexeme

/-- A reading and what is read in its place when line feeds have returns before them. -/
inductive Reading.Returned (kept : Bool) : Reading → Reading → Prop
  | token {token other : Token}
      (kind : LexemeKind.Returned kept (.token token.kind) (.token other.kind)) :
      Returned kept (.token token) (.token other)
  | comment {comment other : Comment} (none : kept = false)
      (content : other.content = comment.content) :
      Returned kept (.comment comment) (.comment other)
  | trivia (none : kept = false) : Returned kept .trivia .trivia

theorem LexemeKind.reading_returned {kept : Bool} {kind other : LexemeKind}
    (returned : LexemeKind.Returned kept kind other) {position place : Position}
    (source : place.source = position.source) :
    Reading.Returned kept (kind.reading position) (other.reading place) := by
  cases returned with
  | token kind => exact Reading.Returned.token (LexemeKind.Returned.token kind)
  | kept text => exact Reading.Returned.token (LexemeKind.Returned.kept text)
  | comment breaksLine code => exact Reading.Returned.comment rfl (Prod.ext code source)
  | trivia => exact Reading.Returned.trivia rfl

theorem ScanContext.heed_no_returns {context : ScanContext} (free : context.language.NoReturns)
    (comment : Comment) : (context.heed comment).1.language.NoReturns := by
  rw [heed_context]
  cases switched : comment.language? with
  | none => exact free
  | some language =>
    obtain ⟨_, _, found⟩ := Option.bind_eq_some_iff.mp switched
    exact Language.no_returns_of_mem_all (Language.find_mem found)

namespace Lexer

/-- A lexer and one of the text ahead of it with returns. -/
structure Returned (lexer other : Lexer) : Prop where
  ahead : Text.Returned lexer.cursor.ahead other.cursor.ahead
  state : other.state = lexer.state
  source : other.cursor.source = lexer.cursor.source

/-- Whether the lexer is about to read text to be matched that a return would become part of. -/
def keepsReturn (lexer : Lexer) : Bool := lexer.state.keepsReturn lexer.cursor.ahead

variable {context elsewhere : ScanContext} {lexer other after : Lexer} {run : Run}

theorem ended_of_returned (returned : Returned lexer other) (done : lexer.cursor.ahead = []) :
    other.cursor.ahead = [] := by
  rcases returned.ahead with whole | past
  · rw [whole, done]
    rfl
  · rw [past, done]
    rfl

-- A return that is still ahead is passed over first, and from there on both stand at one character.
theorem walk_past_return (returned : Returned lexer other) :
    ∃ settled : Lexer, settled.cursor.ahead = Text.pastReturn lexer.cursor.ahead ∧
      settled.state = lexer.state ∧ settled.cursor.source = lexer.cursor.source ∧
      ∀ {context : ScanContext} {run : Run}, Walk context settled run → Walk context other run := by
  obtain ⟨whole | past, state, source⟩ := returned
  · by_cases feed : lexer.cursor.ahead.head? = some '\n'
    · obtain ⟨rest, ahead⟩ := List.head?_eq_some_iff.mp feed
      have line : other.cursor.ahead = '\r' :: '\n' :: Text.withReturns rest := by
        rw [whole, ahead]
        rfl
      have found (language : Language) :
          other.read language = some (.trivia, ⟨other.cursor.advanceBy 1, other.state⟩) := by
        simp only [read, line, Lexeme.read_return]
        rfl
      refine ⟨⟨other.cursor.advanceBy 1, other.state⟩, ?_, state, ?_,
        fun walk => Walk.trivia (found _) walk⟩
      · rw [Cursor.advance_by_ahead, line, ahead]
        rfl
      · rw [Cursor.advance_by_source, source]
    · rw [← Text.return_before_append, Text.returnBefore, if_neg feed, List.nil_append] at whole
      exact ⟨other, whole, state, source, fun walk => walk⟩
  · exact ⟨other, past, state, source, fun walk => walk⟩

theorem read_returned {reading : Reading} (free : context.language.NoReturns)
    (found : lexer.read context.language = some (reading, after)) (returned : Returned lexer other)
    (plain : ∀ token content, reading = .token token → token.kind ≠ .docString content) :
    ∃ settled again beyond,
      (∀ {elsewhere : ScanContext} {run : Run},
        Walk elsewhere settled run → Walk elsewhere other run) ∧
      settled.read context.language = some (again, beyond) ∧
      Reading.Returned lexer.keepsReturn reading again ∧ Returned after beyond := by
  obtain ⟨settled, line, state, source, goesOn⟩ := walk_past_return returned
  unfold read at found
  split at found
  · cases found
  · next c rest ahead =>
    cases found
    rw [ahead] at line
    let lexeme := Lexeme.read context.language lexer.state c (Text.withReturns rest)
    have again : settled.read context.language =
        some (lexeme.kind.reading settled.position,
          ⟨settled.cursor.advanceBy lexeme.width, lexeme.state⟩) := by
      unfold read
      rw [line, state]
      rfl
    rcases Lexeme.read_returned free lexer.state c rest with ⟨content, doc⟩ | ⟨kind, same, behind⟩
    · rw [doc] at plain
      exact absurd rfl (plain ⟨lexer.position, _⟩ content rfl)
    · refine ⟨settled, _, _, goesOn, again, ?_, ?_, ?_, ?_⟩
      · rw [keepsReturn, ahead]
        exact LexemeKind.reading_returned kind source
      · rw [Cursor.advance_by_ahead, Cursor.advance_by_ahead, ahead, line]
        exact behind
      · exact same
      · simp [source]

/-- Whether a token is read at a place on a lexer's way, and another in its stead when line feeds
have returns before them. -/
def ReturnsToken (context : ScanContext) (lexer : Lexer) (token other : Token) : Prop :=
  ∃ reached place after, Reaches context lexer reached place ∧
    place.read reached.language = some (.token token, after) ∧
    LexemeKind.Returned place.keepsReturn (.token token.kind) (.token other.kind)

theorem returns_token_later {reading : Reading} {token again : Token}
    (found : lexer.read context.language = some (reading, after)) :
    ReturnsToken (context.behind reading) after token again →
      ReturnsToken context lexer token again := by
  rintro ⟨reached, place, beyond, way, read⟩
  exact ⟨reached, place, beyond, Reaches.later found way, read⟩

/-- A run from a place on, and the run with returns. They agree in all tokens if and only if the
lexer comes to no place where a return would become part of a token. -/
structure ReturnsRun (context : ScanContext) (lexer : Lexer) (run beyond : Run) : Prop where
  tokens : List.Forall₂ (ReturnsToken context lexer) run.tokens beyond.tokens
  comments : beyond.comments.map Comment.content = run.comments.map Comment.content
  kinds : beyond.tokens.map (·.kind) = run.tokens.map (·.kind) ↔
    ∀ reached place, Reaches context lexer reached place → place.keepsReturn = false

theorem returns_run_ended (done : lexer.cursor.ahead = []) (other : Lexer) :
    ReturnsRun context lexer ⟨[], lexer, context, [], []⟩ ⟨[], other, elsewhere, [], []⟩ where
  tokens := .nil
  comments := rfl
  kinds := by
    refine iff_of_true rfl fun reached place way => ?_
    rw [(reaches_of_ended done way).2, keepsReturn, done]
    rfl

theorem returns_run_token {token again : Token} {beyond : Run}
    (found : lexer.read context.language = some (.token token, after))
    (kind : LexemeKind.Returned lexer.keepsReturn (.token token.kind) (.token again.kind))
    (rest : ReturnsRun context after run beyond) :
    ReturnsRun context lexer (run.withToken token) (beyond.withToken again) where
  tokens := by
    have first : ReturnsToken context lexer token again :=
      ⟨context, lexer, after, Reaches.here _ _, found, kind⟩
    exact .cons first (rest.tokens.imp fun _ _ => returns_token_later found)
  comments := rest.comments
  kinds := by
    rw [reached_all_iff found, ← LexemeKind.same_iff_of_returned kind, ScanContext.behind_token,
      ← rest.kinds, Run.withToken, Run.withToken, List.map_cons, List.map_cons, List.cons.injEq]

theorem returns_run_trivia {beyond : Run}
    (found : lexer.read context.language = some (.trivia, after))
    (none : lexer.keepsReturn = false) (rest : ReturnsRun context after run beyond) :
    ReturnsRun context lexer run beyond where
  tokens := rest.tokens.imp fun _ _ => returns_token_later found
  comments := rest.comments
  kinds := by
    rw [reached_all_iff found, ScanContext.behind_trivia, ← rest.kinds]
    exact (and_iff_right none).symm

theorem returns_run_comment {comment again : Comment} {events eventsAgain : List ScanEvent}
    {beyond : Run} (found : lexer.read context.language = some (.comment comment, after))
    (none : lexer.keepsReturn = false) (content : again.content = comment.content)
    (rest : ReturnsRun (context.heed comment).1 after run beyond) :
    ReturnsRun context lexer (run.withComment comment events)
      (beyond.withComment again eventsAgain) where
  tokens := rest.tokens.imp fun _ _ => returns_token_later found
  comments := congrArg₂ List.cons content rest.comments
  kinds := by
    rw [reached_all_iff found, ScanContext.behind_comment, ← rest.kinds]
    exact (and_iff_right none).symm

theorem walk_returned (walk : Walk context lexer run) (returned : Returned lexer other)
    (free : context.language.NoReturns) (same : elsewhere.language = context.language)
    (plain : ∀ token ∈ run.tokens, ∀ content, token.kind ≠ .docString content) :
    ∃ beyond, Walk elsewhere other beyond ∧ ReturnsRun context lexer run beyond := by
  induction walk generalizing other elsewhere with
  | ended done =>
    exact ⟨_, Walk.ended (ended_of_returned returned done), returns_run_ended done other⟩
  | @token context lexer after token run found _ ih =>
    have here := plain token List.mem_cons_self
    obtain ⟨settled, _, _, goesOn, read, reading, later⟩ :=
      read_returned free found returned (by rintro _ content ⟨rfl⟩; exact here content)
    cases reading with
    | token kind =>
      obtain ⟨beyond, walk, rest⟩ := ih later free same
        fun token member => plain token (List.mem_cons_of_mem _ member)
      exact ⟨_, goesOn (Walk.token (same ▸ read) walk), returns_run_token found kind rest⟩
  | trivia found _ ih =>
    obtain ⟨settled, _, _, goesOn, read, reading, later⟩ :=
      read_returned free found returned (by rintro _ _ ⟨⟩)
    cases reading with
    | trivia none =>
      obtain ⟨beyond, walk, rest⟩ := ih later free same plain
      exact ⟨_, goesOn (Walk.trivia (same ▸ read) walk), returns_run_trivia found none rest⟩
  | @comment context lexer after comment run found _ ih =>
    obtain ⟨settled, _, _, goesOn, read, reading, later⟩ :=
      read_returned free found returned (by rintro _ _ ⟨⟩)
    cases reading with
    | comment none content =>
      have heeded := ScanContext.heed_language_of_code same (congrArg Prod.fst content)
      have freeLater := ScanContext.heed_no_returns free comment
      obtain ⟨beyond, walk, rest⟩ := ih later freeLater heeded plain
      exact ⟨_, goesOn (Walk.comment (same ▸ read) walk),
        returns_run_comment found none content rest⟩

end Lexer

theorem lex_returns (text : Text) (source : Option Text) {context : ScanContext}
    (known : context.defaultLanguage ∈ Language.all)
    (plain : ∀ token ∈ ((Lexer.ofText text source).lex context).tokens,
      ∀ content, token.kind ≠ .docString content) :
    let lexer := Lexer.ofText text source
    let run := lexer.lex context
    let again := (Lexer.ofText text.withReturns source).lex context
    (again.tokens.map (·.kind) = run.tokens.map (·.kind) ↔
      ∀ reached place, Lexer.Reaches context.resetLanguage lexer reached place →
        place.keepsReturn = false) ∧
    List.Forall₂ (Lexer.ReturnsToken context.resetLanguage lexer) run.tokens again.tokens ∧
    again.context.language = run.context.language ∧
    again.context.diagnostics.map Diagnostic.content =
      run.context.diagnostics.map Diagnostic.content := by
  intro lexer run again
  have returned : Lexer.Returned lexer (Lexer.ofText text.withReturns source) :=
    ⟨Or.inl rfl, rfl, rfl⟩
  have walk := Lexer.walk_drain context.resetLanguage lexer
  obtain ⟨beyond, walkAgain, ⟨tokens, contents, kinds⟩⟩ :=
    Lexer.walk_returned walk returned (Language.no_returns_of_mem_all known) rfl plain
  cases Lexer.drain_of_walk walkAgain
  refine ⟨kinds, tokens, ?_, ?_⟩
  · rw [Lexer.lex_context, Lexer.lex_context, Lexer.walk_context walk, Lexer.walk_context walkAgain]
    exact ScanContext.heed_all_language_of_codes rfl (ScanContext.codes_of_contents contents)
  · have structural : again.tokens.map (·.kind.isStructural) =
        run.tokens.map (·.kind.isStructural) :=
      map_eq_map_of_forall₂ (tokens.imp fun _ _ ⟨_, _, _, _, _, kind⟩ =>
        LexemeKind.structural_of_returned kind)
    have verdict : Diagnostic.verdict lexer.cursor.source again.tokens =
        Diagnostic.verdict lexer.cursor.source run.tokens :=
      Diagnostic.verdict_of_structural structural
    have complaints : (again.comments.filterMap Comment.complaint?).map Diagnostic.content =
        (run.comments.filterMap Comment.complaint?).map Diagnostic.content :=
      ScanContext.complaint_contents contents
    rw [Lexer.lex_diagnostics, Lexer.lex_diagnostics, List.map_append, List.map_append,
      List.map_append, List.map_append, complaints]
    exact congrArg (_ ++ List.map _ ·) verdict

theorem lex_returns_trimmed :
    let text := Text.ofString "Feature: a <b>\n# language: de\n@c\n| d |\nWenn e \\#\n"
    let lexer := Lexer.ofText text
    let run := lexer.lex .standard
    let again := (Lexer.ofText text.withReturns).lex .standard
    ScanContext.standard.defaultLanguage ∈ Language.all ∧
    (∀ token ∈ run.tokens, ∀ content, token.kind ≠ .docString content) ∧
    again.tokens.map (·.kind) = run.tokens.map (·.kind) ∧
    (∀ reached place, Lexer.Reaches ScanContext.standard.resetLanguage lexer reached place →
      place.keepsReturn = false) ∧
    again.context.language = run.context.language ∧
    again.context.diagnostics.map Diagnostic.content =
      run.context.diagnostics.map Diagnostic.content := by
  intro text lexer run again
  have known : ScanContext.standard.defaultLanguage ∈ Language.all :=
    List.mem_cons_of_mem _ List.mem_cons_self
  have plain : ∀ token ∈ run.tokens, ∀ content, token.kind ≠ .docString content := by
    have docStrings : run.tokens.filterMap (·.kind.docString?) = [] := by decide +kernel
    intro token member content doc
    have plainToken := List.filterMap_eq_nil_iff.mp docStrings token member
    rw [doc] at plainToken
    cases plainToken
  have kinds : again.tokens.map (·.kind) = run.tokens.map (·.kind) := by decide +kernel
  obtain ⟨trimmed, _, language, contents⟩ := lex_returns text none known plain
  exact ⟨known, plain, kinds, trimmed.mp kinds, language, contents⟩

-- The text behind a bracket that its line does not close goes up to the line feed untrimmed.
theorem lex_returns_unclosed :
    let kinds (text : Text) := ((Lexer.ofText text).lex .standard).tokens.map (·.kind)
    let text := Text.ofString "Given a <b\n"
    kinds text = [.keyword .context, .matchText (Text.ofString "a "),
      .matchText (Text.ofString "<b"), .newLine] ∧
    kinds text.withReturns = [.keyword .context, .matchText (Text.ofString "a "),
      .matchText (Text.ofString "<b\r"), .newLine] := by decide +kernel

end Gherkin
