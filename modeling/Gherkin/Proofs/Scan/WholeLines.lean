import Gherkin.Proofs.Scan.Offset
import Gherkin.Proofs.Scan.TokenPlaces
import Gherkin.Proofs.Token.Locality
/-!
Texts of whole lines. A text that is read up to the end of a line leaves nothing to the text behind
it but the context and the count of its lines: what follows is read as a text of its own. Only a
doc string that is left open reaches over the end.
-/
namespace Gherkin

/-- Whether a text is empty or ends its last line. -/
def Text.IsWhole (text : Text) : Prop := text = [] ∨ text.getLast? = some '\n'

namespace Text
variable {text : Text}

theorem whole_drop (whole : text.IsWhole) (count : Nat) : IsWhole (text.drop count) := by
  rcases Nat.lt_or_ge count text.length with inside | past
  · rcases whole with rfl | fed
    · exact absurd inside (Nat.not_lt_zero count)
    · exact Or.inr (last_feed_drop fed inside)
  · exact Or.inl (List.drop_eq_nil_of_le past)

theorem last_line_of_whole (whole : text.IsWhole) : lastLine text = [] := by
  rcases whole with rfl | fed
  · rfl
  · obtain ⟨front, rfl⟩ := List.getLast?_eq_some_iff.mp fed
    exact last_line_append_feed front

end Text

theorem Place.end_of_whole {text : Text} (whole : text.IsWhole)
    (kept : text.count '\n' < lastCoordinate) :
    endOf text = Place.down (text.count '\n') {} := by
  rw [endOf, Text.last_line_of_whole whole, Nat.min_eq_left (by omega)]
  rfl

theorem Cursor.advance_by_extend (cursor : Cursor) {count : Nat}
    (inside : count ≤ cursor.ahead.length) (more : Text) :
    ({ cursor with ahead := cursor.ahead ++ more } : Cursor).advanceBy count =
      { cursor.advanceBy count with ahead := (cursor.advanceBy count).ahead ++ more } := by
  simp only [advance_by_eq, List.take_append_of_le_length inside,
    List.drop_append_of_le_length inside]

/-- A run and the run that goes on where it ends. -/
def Run.followedBy (first second : Run) : Run :=
  { second with
    tokens := first.tokens ++ second.tokens
    comments := first.comments ++ second.comments
    events := first.events ++ second.events }

-- A line begins afresh: what it has shown is forgotten at its end.
theorem Lexeme.fresh_of_reads {language : Language} {state : LineState} {text : Text}
    {lexeme : Lexeme} (reads : Reads language state text lexeme)
    (fresh : state.atStart = true → state = {}) (stays : lexeme.state.atStart = true) :
    lexeme.state = {} := by
  cases reads with
  | newLine => rfl
  | comment => exact fresh stays
  | spaces => exact fresh stays
  | tag | cell | step | scope | description => cases stays
  | placeholder rest => rw [placeholder_state] at stays; cases stays
  | docString => rw [doc_string_state] at stays; cases stays
  | title | matchText => rw [stretch_state] at stays ⊢; exact fresh stays
  | escape => rw [escape_state] at stays ⊢; exact fresh stays
  | skip => exact fresh stays

namespace Lexer
variable {context : ScanContext} {lexer after : Lexer} {run : Run}

def extend (more : Text) (lexer : Lexer) : Lexer :=
  { lexer with cursor := { lexer.cursor with ahead := lexer.cursor.ahead ++ more } }

/-- Whether the line has shown nothing while the lexer takes itself to be at its start. -/
def Fresh (lexer : Lexer) : Prop := lexer.state.atStart = true → lexer.state = {}

theorem read_fresh {language : Language} {reading : Reading}
    (found : lexer.read language = some (reading, after)) (fresh : lexer.Fresh) :
    after.Fresh := by
  obtain ⟨lexeme, reads, _, rfl⟩ := read_inversion found
  exact Lexeme.fresh_of_reads reads fresh

theorem read_extend (whole : lexer.cursor.ahead.IsWhole) {language : Language}
    {reading : Reading} (found : lexer.read language = some (reading, after))
    (closed : after.cursor.ahead = [] → after.state.atStart = true) (more : Text) :
    (lexer.extend more).read language = some (reading, after.extend more) ∧
      after.cursor.ahead.IsWhole := by
  unfold read at found
  split at found
  · cases found
  next c rest ahead =>
  cases found
  have inside := Lexeme.width_le_of_reads (Lexeme.read_reads language lexer.state c rest)
  have fed : (c :: rest).getLast? = some '\n' := (ahead ▸ whole).resolve_left (by simp)
  have ends : (Lexeme.read language lexer.state c rest).state.atStart = true ∨
      (Lexeme.read language lexer.state c rest).width < (c :: rest).length := by
    rcases Nat.lt_or_eq_of_le inside with less | all
    · exact Or.inr less
    · left
      apply closed
      rw [Cursor.advance_by_ahead, ahead, all, List.drop_length]
  constructor
  · have same := Lexeme.read_append language lexer.state fed ends more
    rw [← ahead] at inside
    simp only [read, extend, ahead, List.cons_append, same]
    rw [← List.cons_append, ← ahead, Cursor.advance_by_extend _ inside]
    rfl
  · rw [Cursor.advance_by_ahead]
    exact Text.whole_drop whole _

-- Where the text ends there is nothing to walk.
theorem at_start_of_ended (walk : Walk context lexer run)
    (closed : run.lexer.state.atStart = true) (ended : lexer.cursor.ahead = []) :
    lexer.state.atStart = true := by
  have first := walk_inversion walk
  rw [(read_none_iff _ _).mpr ended] at first
  rwa [first] at closed

theorem walk_extend (walk : Walk context lexer run) (whole : lexer.cursor.ahead.IsWhole)
    (closed : run.lexer.state.atStart = true) {more : Text} {rest : Run}
    (later : Walk run.context (run.lexer.extend more) rest) :
    Walk context (lexer.extend more) (run.followedBy rest) := by
  induction walk with
  | ended => exact later
  | token found walk ih =>
    obtain ⟨again, wholeBehind⟩ := read_extend whole found (at_start_of_ended walk closed) more
    exact Walk.token again (ih wholeBehind closed later)
  | trivia found walk ih =>
    obtain ⟨again, wholeBehind⟩ := read_extend whole found (at_start_of_ended walk closed) more
    exact Walk.trivia again (ih wholeBehind closed later)
  | comment found walk ih =>
    obtain ⟨again, wholeBehind⟩ := read_extend whole found (at_start_of_ended walk closed) more
    have joined := Walk.comment again (ih wholeBehind closed later)
    simpa only [Run.followedBy, Run.withComment, List.cons_append, List.append_assoc] using joined

-- Behind whole lines a lexer stands as one that begins, but for the number of its line.
theorem above_behind_whole {lines more : Text} {source : Option Text}
    (walk : Walk context (ofText lines source) run) (whole : lines.IsWhole)
    (closed : run.lexer.state.atStart = true)
    (kept : (lines ++ more).count '\n' < lastCoordinate) :
    Above (lines.count '\n') (ofText more source) (run.lexer.extend more) := by
  have ended := walk_ends walk
  have behind : run.lexer.cursor.behind.reverse = lines := by
    simpa [Cursor.text, ended, ofText, Cursor.ofText] using walk_text walk
  rw [List.count_append] at kept
  constructor
  · simp [extend, ended, ofText, Cursor.ofText]
  · exact walk_invariant Fresh read_fresh walk (fun _ => rfl) closed
  · have placed := walk_invariant Placed (fun found placed => placed_read placed found) walk
      (placed_of_text lines source)
    have place := placed.place
    rw [behind, Place.end_of_whole whole (by omega)] at place
    exact place
  · have same := walk_source walk
    exact same
  · simp only [ofText, Cursor.ofText]
    omega

end Lexer

theorem drain_append (source : Option Text) (context : ScanContext) (lines more : Text)
    (whole : lines.IsWhole)
    (closed : ((Lexer.ofText lines source).drain context).lexer.state.atStart = true)
    (kept : (lines ++ more).count '\n' < lastCoordinate) :
    let first := (Lexer.ofText lines source).drain context
    let second := (Lexer.ofText more source).drain first.context
    let both := (Lexer.ofText (lines ++ more) source).drain context
    both.tokens = first.tokens ++ second.tokens.map (Token.down (lines.count '\n')) ∧
    both.context.language = second.context.language ∧
    ∃ noted later, first.context.diagnostics = context.diagnostics ++ noted ∧
      second.context.diagnostics = first.context.diagnostics ++ later ∧
      both.context.diagnostics =
        context.diagnostics ++ noted ++ later.map (Diagnostic.down (lines.count '\n')) := by
  intro first second both
  have walk : Lexer.Walk context (Lexer.ofText lines source) first := Lexer.walk_drain _ _
  have walkMore : Lexer.Walk first.context (Lexer.ofText more source) second :=
    Lexer.walk_drain _ _
  obtain ⟨below, walkBelow, tokens, comments⟩ :=
    Lexer.walk_down walkMore (Lexer.above_behind_whole walk whole closed kept) first.context rfl
  have joined : both = first.followedBy below :=
    Lexer.drain_of_walk (Lexer.walk_extend walk whole closed walkBelow)
  have noted : first.context.diagnostics =
      context.diagnostics ++ first.comments.filterMap Comment.complaint? := by
    rw [Lexer.walk_context walk, ScanContext.heed_all_diagnostics]
  have later : second.context.diagnostics =
      first.context.diagnostics ++ second.comments.filterMap Comment.complaint? := by
    rw [Lexer.walk_context walkMore, ScanContext.heed_all_diagnostics]
  refine ⟨?_, ?_, _, _, noted, later, ?_⟩
  · rw [joined, Run.followedBy, tokens]
  · rw [joined, Run.followedBy, Lexer.walk_context walkBelow, comments,
      Lexer.walk_context walkMore]
    exact ScanContext.heed_all_down _ _ _ rfl _
  · rw [joined, Run.followedBy, Lexer.walk_context walkBelow, ScanContext.heed_all_diagnostics,
      comments, ScanContext.complaints_down, noted]

theorem drain_append_directive :
    let lines := Text.ofString "# language: fr\n"
    let more := Text.ofString "Quand x"
    let first := (Lexer.ofText lines).drain .standard
    let both := (Lexer.ofText (lines ++ more)).drain .standard
    lines.IsWhole ∧ first.lexer.state.atStart = true ∧
      (lines ++ more).count '\n' < lastCoordinate ∧
      both.tokens = ((Lexer.ofText more).drain first.context).tokens.map (Token.down 1) := by
  intro lines more first both
  have whole : lines.IsWhole := Or.inr rfl
  have closed : first.lexer.state.atStart = true := by decide +kernel
  have silent : first.tokens = [] := by decide +kernel
  have kept : (lines ++ more).count '\n' < lastCoordinate := by decide
  obtain ⟨tokens, _⟩ := drain_append none .standard lines more whole closed kept
  refine ⟨whole, closed, kept, tokens.trans ?_⟩
  rw [silent, List.nil_append]
  rfl

end Gherkin
