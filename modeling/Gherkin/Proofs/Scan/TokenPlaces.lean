import Mathlib.Data.List.Forall2
import Gherkin.Proofs.Scan.Progress
import Gherkin.Proofs.Source.Place
import Gherkin.Proofs.Token.Outcome
/-!
Where tokens stand. A lexer counts lines and columns as it goes, and a token is given the place
that the lexer has reached when the token's lexeme begins. That place is the one that the text
before the token leads to, and the character there is one that the token can begin with.

Two things are kept from lexeme to lexeme: the place is that of the text consumed, and as long as a
line is at its start, nothing but spaces has been consumed of it, unless nothing follows.
-/
namespace Gherkin

/-- Whether a token of a kind can begin with a character that has some text before it on its
line. -/
def TokenKind.CanBegin (before : Text) (c : Char) : TokenKind → Prop
  | .newLine => c = '\n'
  | .tag _ => c = '@'
  | .tableCell _ => c = '|'
  | .tableHeader _ => c = '|' ∨ c = '<'
  | .docString _ => c = '"' ∨ c = '\x60'
  | .scope _ | .keyword _ | .description _ =>
    Text.isBlank c = false ∧ before.all Text.isSpace = true
  | .title _ | .matchText _ => c ≠ '\n'

/-- Whether a token stands at an index of a text from a source. -/
structure Token.StandsAt (text : Text) (source : Option Locator) (index : Nat) (token : Token) :
    Prop where
  position : token.position = ⟨Place.endOf (text.take index), source⟩
  character : ∃ c, text[index]? = some c ∧
    token.kind.CanBegin (Text.lastLine (text.take index)) c

namespace Lexeme
variable {language : Language} {state : LineState} {text : Text} {lexeme : Lexeme}

theorem doc_string_fence {mark : Char} (fence : Text.isFenceMark mark = true) :
    mark = '"' ∨ mark = '\x60' := by
  simpa [Text.isFenceMark] using fence

theorem can_begin_of_reads (reads : Reads language state text lexeme) {kind : TokenKind}
    (isToken : lexeme.kind = .token kind) {before : Text}
    (indented : state.atStart = true → before.all Text.isSpace = true) :
    ∃ c, text.head? = some c ∧ kind.CanBegin before c := by
  cases reads with
  | newLine rest => cases isToken; exact ⟨_, rfl, rfl⟩
  | comment rest => cases isToken
  | tag rest => cases isToken; exact ⟨_, rfl, rfl⟩
  | cell rest =>
    refine ⟨_, rfl, ?_⟩
    rcases cell_kind state rest with none | ⟨text, some⟩ | ⟨name, some⟩
    · cases none.symm.trans isToken
    · cases some.symm.trans isToken
      rfl
    · cases some.symm.trans isToken
      exact Or.inl rfl
  | placeholder rest =>
    refine ⟨_, rfl, ?_⟩
    rcases placeholder_kind state rest with ⟨name, some⟩ | ⟨text, some⟩
    · cases some.symm.trans isToken
      exact Or.inr rfl
    · cases some.symm.trans isToken
      exact (by decide : '<' ≠ '\n')
  | spaces => cases isToken
  | docString rest _ mark =>
    refine ⟨_, rfl, ?_⟩
    rcases doc_string_kind state _ with ⟨content, some⟩ | ⟨run, some⟩
    · cases some.symm.trans isToken
      exact doc_string_fence mark
    · cases some.symm.trans isToken
      exact Text.ne_feed_of_fence_mark mark
  | step rest unread visible => cases isToken; exact ⟨_, rfl, visible, indented unread⟩
  | scope rest unread visible => cases isToken; exact ⟨_, rfl, visible, indented unread⟩
  | description rest unread visible => cases isToken; exact ⟨_, rfl, visible, indented unread⟩
  | title rest _ _ notFeed =>
    refine ⟨_, rfl, ?_⟩
    rcases stretch_kind .title state (· == '<') (_ :: rest) with none | ⟨text, some⟩
    · cases none.symm.trans isToken
    · cases some.symm.trans isToken
      exact notFeed
  | escape rest =>
    obtain ⟨text, some⟩ := escape_kind state rest
    cases some.symm.trans isToken
    exact ⟨_, rfl, (by decide : '\\' ≠ '\n')⟩
  | matchText rest _ _ _ plain =>
    refine ⟨_, rfl, ?_⟩
    rcases stretch_kind .matchText state Text.isSymbol (_ :: rest) with none | ⟨text, some⟩
    · cases none.symm.trans isToken
    · cases some.symm.trans isToken
      exact Text.ne_feed_of_not_symbol plain
  | skip => cases isToken

-- A comment that does not take the line feed behind it has none behind it, when it could.
theorem comment_at_start (state : LineState) (rest : Text) (unread : state.atStart = true) :
    (∃ front, ('#' :: rest).take (comment state rest).width = front ++ ['\n']) ∨
      ('#' :: rest).drop (comment state rest).width = [] := by
  have ends := Text.rest_of_line_ends rest
  have body : rest.take (Text.restOfLine rest).length = Text.restOfLine rest :=
    Text.take_run _ rest
  cases behind : rest.drop (Text.restOfLine rest).length with
  | nil =>
    right
    simp [comment, behind, Nat.add_comm 1]
  | cons c tail =>
    rw [behind] at ends
    cases beq_iff_eq.mp ends
    left
    refine ⟨'#' :: Text.restOfLine rest, ?_⟩
    simp [comment, behind, unread, Nat.add_comm 1, List.take_add, body]

theorem at_start_of_reads (reads : Reads language state text lexeme)
    (stays : lexeme.state.atStart = true) :
    (∃ front, text.take lexeme.width = front ++ ['\n']) ∨
      (state.atStart = true ∧ (text.take lexeme.width).all Text.isSpace = true) ∨
      text.drop lexeme.width = [] := by
  cases reads with
  | newLine rest => exact Or.inl ⟨[], rfl⟩
  | comment rest => exact (comment_at_start state rest stays).imp_right Or.inr
  | tag | cell => cases stays
  | placeholder rest => rw [placeholder_state] at stays; cases stays
  | spaces rest unread =>
    refine Or.inr (Or.inl ⟨unread, ?_⟩)
    simp only [Text.take_run, List.all_takeWhile]
  | docString => rw [doc_string_state] at stays; cases stays
  | step | scope | description => cases stays
  | title _ read => rw [stretch_state, read] at stays; cases stays
  | escape _ read => rw [escape_state, read] at stays; cases stays
  | matchText _ read => rw [stretch_state, read] at stays; cases stays
  | skip _ read => rw [read] at stays; cases stays

end Lexeme

namespace Lexer

structure Placed (lexer : Lexer) : Prop where
  place : lexer.cursor.place = Place.endOf lexer.cursor.behind.reverse
  indented : lexer.state.atStart = true →
    lexer.cursor.ahead = [] ∨
      (Text.lastLine lexer.cursor.behind.reverse).all Text.isSpace = true

theorem placed_of_text (text : Text) (source : Option Text) : (ofText text source).Placed :=
  ⟨rfl, fun _ => Or.inr rfl⟩

theorem placed_behind {lexer : Lexer} (placed : lexer.Placed) {language : Language}
    {lexeme : Lexeme} (reads : Lexeme.Reads language lexer.state lexer.cursor.ahead lexeme) :
    Placed ⟨lexer.cursor.advanceBy lexeme.width, lexeme.state⟩ where
  place := by
    simp only [Cursor.advance_by_place, Cursor.advance_by_behind, List.reverse_append,
      List.reverse_reverse, Place.end_of_append, placed.place]
  indented := by
    intro stays
    simp only [Cursor.advance_by_ahead, Cursor.advance_by_behind, List.reverse_append,
      List.reverse_reverse]
    rcases Lexeme.at_start_of_reads reads stays with ⟨front, taken⟩ | ⟨unread, spaces⟩ | none
    · rw [taken, ← List.append_assoc, Text.last_line_append_feed]
      exact Or.inr rfl
    · have unbroken : '\n' ∉ lexer.cursor.ahead.take lexeme.width := by
        intro member
        cases List.all_eq_true.mp spaces _ member
      rw [Text.last_line_append unbroken, List.all_append, spaces, Bool.and_true]
      refine (placed.indented unread).imp_left ?_
      intro none
      rw [none, List.drop_nil]
    · exact Or.inl none

theorem placed_read {lexer after : Lexer} (placed : lexer.Placed) {language : Language}
    {reading : Reading} (found : lexer.read language = some (reading, after)) : after.Placed := by
  obtain ⟨lexeme, reads, _, rfl⟩ := read_inversion found
  exact placed_behind placed reads

theorem text_take_consumed (cursor : Cursor) :
    cursor.text.take cursor.consumed = cursor.behind.reverse := by
  simp [Cursor.text, Cursor.consumed]

theorem text_at_consumed (cursor : Cursor) :
    cursor.text[cursor.consumed]? = cursor.ahead.head? := by
  simp [Cursor.text, Cursor.consumed, List.getElem?_append_right, List.head?_eq_getElem?]

theorem token_stands {lexer after : Lexer} (placed : lexer.Placed) {language : Language}
    {token : Token} (found : lexer.read language = some (.token token, after)) :
    token.StandsAt lexer.cursor.text lexer.cursor.source lexer.consumed := by
  obtain ⟨lexeme, reads, isToken, position, _⟩ := read_token_inversion found
  constructor
  · rw [position, consumed, text_take_consumed, ← placed.place]
    rfl
  · rw [consumed, text_take_consumed, text_at_consumed]
    apply Lexeme.can_begin_of_reads reads isToken
    intro unread
    refine (placed.indented unread).resolve_left ?_
    intro none
    have some := Lexeme.width_pos_of_reads reads
    have inside := Lexeme.width_le_of_reads reads
    rw [none, List.length_nil] at inside
    omega

-- Each token begins behind the lexemes of the tokens before it, and those have taken characters.
theorem walk_stands {context : ScanContext} {lexer : Lexer} {run : Run}
    (walk : Walk context lexer run) (placed : lexer.Placed) :
    ∃ indices : List Nat, indices.Pairwise (· < ·) ∧
      (∀ index ∈ indices, lexer.consumed ≤ index) ∧
      List.Forall₂ (Token.StandsAt lexer.cursor.text lexer.cursor.source) indices
        run.tokens := by
  induction walk with
  | ended => exact ⟨[], List.Pairwise.nil, by simp, List.Forall₂.nil⟩
  | @token context lexer after token run found _ ih =>
    obtain ⟨indices, ordered, behind, stand⟩ := ih (placed_read placed found)
    have more := (read_consumed found).1
    rw [read_text found, read_source found] at stand
    refine ⟨lexer.consumed :: indices, ?_, ?_, List.Forall₂.cons (token_stands placed found) stand⟩
    · exact List.pairwise_cons.mpr
        ⟨fun index member => more.trans_le (behind index member), ordered⟩
    · intro index member
      rcases List.mem_cons.mp member with rfl | later
      · exact Nat.le_refl _
      · exact (Nat.le_of_lt more).trans (behind index later)
  | trivia found _ ih | comment found _ ih =>
    obtain ⟨indices, ordered, behind, stand⟩ := ih (placed_read placed found)
    have more := (read_consumed found).1
    rw [read_text found, read_source found] at stand
    exact ⟨indices, ordered,
      fun index member => (Nat.le_of_lt more).trans (behind index member), stand⟩

end Lexer

-- Unless a coordinate has stopped growing, later in the text is later in reading order.
theorem Token.stands_before {text : Text} {source : Option Locator} {index later : Nat}
    {first second : Token} (firstStands : first.StandsAt text source index)
    (secondStands : second.StandsAt text source later) (order : index < later)
    (lineKept : second.position.line < lastCoordinate)
    (columnKept : first.position.column < lastCoordinate) :
    first.position.toPlace.Before second.position.toPlace := by
  obtain ⟨c, inside, _⟩ := secondStands.character
  rw [firstStands.position] at columnKept ⊢
  rw [secondStands.position] at lineKept ⊢
  have between : text.take later = text.take index ++ (text.drop index).take (later - index) := by
    rw [← List.take_add, Nat.add_sub_cancel' (Nat.le_of_lt order)]
  rw [between] at lineKept ⊢
  have some : (text.drop index).take (later - index) ≠ [] := by
    have bound := (List.getElem?_eq_some_iff.mp inside).1
    apply List.ne_nil_of_length_pos
    rw [List.length_take, List.length_drop]
    omega
  exact Place.end_of_before _ _ some lineKept columnKept

theorem drain_tokens_stand (text : Text) (source : Option Text) (context : ScanContext) :
    let lexer := Lexer.ofText text source
    let tokens := (lexer.drain context).tokens
    (∃ indices : List Nat, indices.Pairwise (· < ·) ∧ (∀ index ∈ indices, index < text.length) ∧
      List.Forall₂ (Token.StandsAt text lexer.cursor.source) indices tokens) ∧
    tokens.Pairwise fun first second =>
      second.position.line < lastCoordinate → first.position.column < lastCoordinate →
        first.position.toPlace.Before second.position.toPlace := by
  intro lexer tokens
  obtain ⟨indices, ordered, _, stand⟩ :=
    Lexer.walk_stands (Lexer.walk_drain context lexer) (Lexer.placed_of_text text source)
  obtain ⟨same, each⟩ := List.forall₂_iff_get.mp stand
  refine ⟨⟨indices, ordered, ?_, stand⟩, ?_⟩
  · intro index member
    obtain ⟨i, inside, rfl⟩ := List.getElem_of_mem member
    obtain ⟨c, held, _⟩ := (each i inside (same ▸ inside)).character
    exact (List.getElem?_eq_some_iff.mp held).1
  · apply List.pairwise_iff_getElem.mpr
    intro i j insideI insideJ less
    have order := List.pairwise_iff_getElem.mp ordered i j (same ▸ insideI) (same ▸ insideJ) less
    exact Token.stands_before (each i _ insideI) (each j _ insideJ) order

end Gherkin
