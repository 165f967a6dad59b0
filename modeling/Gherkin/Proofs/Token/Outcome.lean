import Gherkin.Proofs.Text.Runs
import Gherkin.Token.Lexeme
/-!
What each reader of a lexeme can make of its text: the kinds of token that it gives, if it gives
one, and the state in which it leaves the line. Readers that give text up to a stop character end
there or at the end of the line.
-/
namespace Gherkin

theorem LineState.opened_of_read {state : LineState} (read : state.atStart = false) :
    state.opened = state := by
  rw [opened, ← read]

namespace Text

-- What is behind a run is what stops it, unless the line ends first.
theorem line_until_stops (stop : Char → Bool) (text : Text) :
    atLineEnd (text.drop (lineUntil stop text).length) = true ∨
      ∃ c, (text.drop (lineUntil stop text).length).head? = some c ∧ stop c = true := by
  have stopped := List.head?_dropWhile_not (fun c => c != '\n' && !stop c) text
  rw [lineUntil, drop_run]
  cases behind : text.dropWhile (fun c => c != '\n' && !stop c) with
  | nil => exact Or.inl rfl
  | cons c rest =>
    rw [behind] at stopped
    by_cases feed : c = '\n'
    · exact Or.inl (beq_iff_eq.mpr feed)
    · exact Or.inr ⟨c, rfl, by simpa [feed] using stopped⟩

theorem rest_of_line_ends (text : Text) :
    atLineEnd (text.drop (restOfLine text).length) = true := by
  have same : restOfLine text = lineUntil (fun _ => false) text := by simp [restOfLine, lineUntil]
  rcases line_until_stops (fun _ => false) text with ended | ⟨_, _, stop⟩
  · rwa [same]
  · cases stop

end Text

namespace Lexeme

/-- Whether a lexeme is read first of a text. -/
def First (language : Language) (state : LineState) (text : Text) (lexeme : Lexeme) : Prop :=
  ∃ c rest, text = c :: rest ∧ read language state c rest = lexeme

@[simp] theorem placeholder_state (state : LineState) (rest : Text) :
    (placeholder state rest).state = state.opened := by
  unfold placeholder
  dsimp only
  split <;> rfl

@[simp] theorem doc_string_state (state : LineState) (text : Text) :
    (docString state text).state = state.opened := by
  unfold docString
  dsimp only
  split <;> rfl

@[simp] theorem stretch_state (kind : Text → TokenKind) (state : LineState)
    (stop : Char → Bool) (text : Text) : (stretch kind state stop text).state = state := by
  unfold stretch
  dsimp only
  split <;> rfl

@[simp] theorem escape_state (state : LineState) (rest : Text) :
    (escape state rest).state = state := by
  unfold escape
  split <;> rfl

theorem cell_kind (state : LineState) (rest : Text) :
    (cell state rest).kind = .trivia ∨
      (∃ text, (cell state rest).kind = .token (.tableCell text)) ∨
      ∃ name, (cell state rest).kind = .token (.tableHeader name) := by
  simp only [cell]
  split
  · split
    · exact Or.inr (Or.inr ⟨_, rfl⟩)
    · exact Or.inr (Or.inl ⟨_, rfl⟩)
  · exact Or.inl rfl

theorem placeholder_kind (state : LineState) (rest : Text) :
    (∃ name, (placeholder state rest).kind = .token (.tableHeader name)) ∨
      ∃ text, (placeholder state rest).kind = .token (.matchText text) := by
  unfold placeholder
  dsimp only
  split
  · exact Or.inl ⟨_, rfl⟩
  · exact Or.inr ⟨_, rfl⟩

theorem doc_string_kind (state : LineState) (text : Text) :
    (∃ content, (docString state text).kind = .token (.docString content)) ∨
      ∃ run, (docString state text).kind = .token (.matchText run) := by
  unfold docString
  dsimp only
  split
  · exact Or.inl ⟨_, rfl⟩
  · exact Or.inr ⟨_, rfl⟩

theorem stretch_kind (kind : Text → TokenKind) (state : LineState) (stop : Char → Bool)
    (text : Text) :
    (stretch kind state stop text).kind = .trivia ∨
      ∃ shown, (stretch kind state stop text).kind = .token (kind shown) := by
  unfold stretch
  dsimp only
  split
  · exact Or.inl rfl
  · have either (shown : Text) :
        (if shown.isEmpty then LexemeKind.trivia else .token (kind shown)) = .trivia ∨
          ∃ text, (if shown.isEmpty then LexemeKind.trivia else .token (kind shown)) =
            .token (kind text) := by
      cases shown with
      | nil => exact Or.inl rfl
      | cons c rest => exact Or.inr ⟨c :: rest, rfl⟩
    exact either _

theorem escape_kind (state : LineState) (rest : Text) :
    ∃ text, (escape state rest).kind = .token (.matchText text) := by
  unfold escape
  split <;> exact ⟨_, rfl⟩

-- Text that may begin where it stands is read up to its stop and no further.
theorem stretch_width (kind : Text → TokenKind) (state : LineState) {stop : Char → Bool}
    {c : Char} (rest : Text) (notFeed : c ≠ '\n') (goes : stop c = false) :
    (stretch kind state stop (c :: rest)).width = (Text.lineUntil stop (c :: rest)).length := by
  simp [stretch, Text.line_until_cons rest notFeed goes]

/-- What a lexeme stands for; if it stands for a comment, the mark of one is there. -/
theorem kind_of_reads {language : Language} {state : LineState} {text : Text} {lexeme : Lexeme}
    (reads : Reads language state text lexeme) :
    (∃ kind, lexeme.kind = .token kind) ∨ lexeme.kind = .trivia ∨
      ∃ rest, text = '#' :: rest ∧ lexeme = comment state rest := by
  cases reads with
  | newLine | tag | step | scope | description => exact Or.inl ⟨_, rfl⟩
  | comment rest => exact Or.inr (Or.inr ⟨rest, rfl, rfl⟩)
  | spaces | skip => exact Or.inr (Or.inl rfl)
  | cell rest =>
    rcases cell_kind state rest with none | ⟨_, some⟩ | ⟨_, some⟩
    · exact Or.inr (Or.inl none)
    · exact Or.inl ⟨_, some⟩
    · exact Or.inl ⟨_, some⟩
  | placeholder rest =>
    rcases placeholder_kind state rest with ⟨_, some⟩ | ⟨_, some⟩ <;> exact Or.inl ⟨_, some⟩
  | docString rest =>
    rcases doc_string_kind state _ with ⟨_, some⟩ | ⟨_, some⟩ <;> exact Or.inl ⟨_, some⟩
  | escape rest =>
    obtain ⟨_, some⟩ := escape_kind state rest
    exact Or.inl ⟨_, some⟩
  | title rest =>
    rcases stretch_kind .title state (· == '<') (_ :: rest) with none | ⟨_, some⟩
    · exact Or.inr (Or.inl none)
    · exact Or.inl ⟨_, some⟩
  | matchText rest =>
    rcases stretch_kind .matchText state Text.isSymbol (_ :: rest) with none | ⟨_, some⟩
    · exact Or.inr (Or.inl none)
    · exact Or.inl ⟨_, some⟩

/-- What a step keyword is read from. -/
theorem step_of_reads {language : Language} {state : LineState} {text : Text}
    {lexeme : Lexeme} {step : StepKeyword} (reads : Reads language state text lexeme)
    (isStep : lexeme.kind = .token (.keyword step)) :
    state.atStart = true ∧ ∃ length,
      language.resolve (Text.lineUntil (· == ':') text) = some ⟨.step step, length⟩ ∧
        lexeme = keyword (.keyword step) { state.opened with keyword := some step } length text := by
  cases reads with
  | step rest unread _ resolved =>
    cases isStep
    exact ⟨unread, _, resolved, rfl⟩
  | newLine | comment | tag | spaces | scope | description | skip => cases isStep
  | cell rest =>
    rcases cell_kind state rest with other | ⟨_, other⟩ | ⟨_, other⟩ <;>
      cases other.symm.trans isStep
  | placeholder rest =>
    rcases placeholder_kind state rest with ⟨_, other⟩ | ⟨_, other⟩ <;>
      cases other.symm.trans isStep
  | docString rest =>
    rcases doc_string_kind state _ with ⟨_, other⟩ | ⟨_, other⟩ <;> cases other.symm.trans isStep
  | title rest =>
    rcases stretch_kind .title state (· == '<') (_ :: rest) with other | ⟨_, other⟩ <;>
      cases other.symm.trans isStep
  | escape rest =>
    obtain ⟨_, other⟩ := escape_kind state rest
    cases other.symm.trans isStep
  | matchText rest =>
    rcases stretch_kind .matchText state Text.isSymbol (_ :: rest) with other | ⟨_, other⟩ <;>
      cases other.symm.trans isStep

end Lexeme
end Gherkin
