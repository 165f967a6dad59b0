import Gherkin.Proofs.Scan.Leg
import Gherkin.Proofs.Scan.LineStart
import Gherkin.Proofs.Token.Outcome
/-!
The tokens of a line, told lexeme by lexeme from what the line has shown so far and what is left of
it. They are the same wherever the line stands and whatever lines come behind it, and what the line
has shown does not matter any more where it ends.
-/
namespace Gherkin

namespace LineState

/-- Whether the rest of a line in this state gives tokens of these kinds and no others. -/
def Gives (context : ScanContext) (state : LineState) (rest : Text) (kinds : List TokenKind) :
    Prop :=
  ∀ (cursor : Cursor) (more : Text), Text.atLineEnd more = true → cursor.ahead = rest ++ more →
    (Lexer.drain context ⟨cursor, state⟩).tokens.map (·.kind) =
      kinds ++
        (Lexer.drain context ⟨cursor.advanceBy rest.length, {}⟩).tokens.map (·.kind)

end LineState

namespace Lexer
variable {context : ScanContext}

theorem read_first {language : Language} {lexer : Lexer} {lexeme : Lexeme}
    (first : Lexeme.First language lexer.state lexer.cursor.ahead lexeme) :
    lexer.read language =
      some (lexeme.kind.reading lexer.position,
        ⟨lexer.cursor.advanceBy lexeme.width, lexeme.state⟩) := by
  obtain ⟨c, rest, ahead, rfl⟩ := first
  simp only [read, ahead]

theorem drain_at_line_end {cursor : Cursor} (ended : Text.atLineEnd cursor.ahead = true)
    (state other : LineState) :
    (drain context ⟨cursor, state⟩).tokens = (drain context ⟨cursor, other⟩).tokens := by
  cases ahead : cursor.ahead with
  | nil => rw [drain_tokens_of_ended ahead, drain_tokens_of_ended ahead]
  | cons c rest =>
    obtain rfl : c = '\n' := Text.feed_of_at_line_end ended c (by rw [ahead]; rfl)
    have found (state : LineState) := @read_feed ⟨cursor, state⟩ context.language rest ahead
    rw [drain_tokens_behind (found state), drain_tokens_behind (found other)]
    rfl

end Lexer

namespace LineState
variable {context : ScanContext} {state after : LineState} {front rest : Text}
  {kinds : List TokenKind}

theorem gives_nil (context : ScanContext) (state : LineState) : Gives context state [] [] := by
  intro cursor more ended ahead
  rw [List.nil_append] at ahead
  exact congrArg (List.map _) (Lexer.drain_at_line_end (ahead ▸ ended) state {})

theorem gives_cons {kind : TokenKind}
    (first : ∀ more, Text.atLineEnd more = true →
      Lexeme.First context.language state (front ++ (rest ++ more))
        ⟨.token kind, front.length, after⟩)
    (later : Gives context after rest kinds) :
    Gives context state (front ++ rest) (kind :: kinds) := by
  intro cursor more ended ahead
  rw [List.append_assoc] at ahead
  have found := @Lexer.read_first context.language ⟨cursor, state⟩ _ (ahead ▸ first more ended)
  have behind : (cursor.advanceBy front.length).ahead = rest ++ more := by
    rw [Cursor.advance_by_ahead, ahead, List.drop_left]
  have goesOn := later (cursor.advanceBy front.length) more ended behind
  rw [Cursor.advance_by_add, ← List.length_append] at goesOn
  rw [Lexer.drain_tokens_behind found, List.map_append]
  exact congrArg (kind :: ·) goesOn

theorem gives_one {kind : TokenKind}
    (first : ∀ more, Text.atLineEnd more = true →
      Lexeme.First context.language state (front ++ more) ⟨.token kind, front.length, after⟩) :
    Gives context state front [kind] := by
  rw [← List.append_nil front]
  exact gives_cons first (gives_nil context after)

theorem gives_behind_trivia
    (first : ∀ more, Text.atLineEnd more = true →
      Lexeme.First context.language state (front ++ (rest ++ more))
        ⟨.trivia, front.length, after⟩)
    (later : Gives context after rest kinds) : Gives context state (front ++ rest) kinds := by
  intro cursor more ended ahead
  rw [List.append_assoc] at ahead
  have found := @Lexer.read_first context.language ⟨cursor, state⟩ _ (ahead ▸ first more ended)
  have behind : (cursor.advanceBy front.length).ahead = rest ++ more := by
    rw [Cursor.advance_by_ahead, ahead, List.drop_left]
  have goesOn := later (cursor.advanceBy front.length) more ended behind
  rw [Cursor.advance_by_add, ← List.length_append] at goesOn
  rw [Lexer.drain_tokens_behind found]
  exact goesOn

-- The tokens of a line are those in front of its line break.
theorem Gives.before_break (gives : Gives context state rest kinds)
    (unbroken : ∀ kind ∈ kinds, kind.isNewLine = false) {cursor : Cursor} {more : Text}
    (ended : Text.atLineEnd more = true) (ahead : cursor.ahead = rest ++ more) :
    ((Lexer.drain context ⟨cursor, state⟩).tokens.map (·.kind)).takeWhile (!·.isNewLine) =
      kinds := by
  have behind : (cursor.advanceBy rest.length).ahead = more := by
    rw [Cursor.advance_by_ahead, ahead, List.drop_left]
  rw [gives cursor more ended ahead]
  apply Text.run_exact fun kind member => by simp [unbroken kind member]
  intro kind head
  cases more with
  | nil =>
    rw [Lexer.drain_tokens_of_ended behind] at head
    cases head
  | cons c others =>
    obtain rfl := Text.feed_of_at_line_end ended c rfl
    rw [Lexer.drain_tokens_behind (Lexer.read_feed context.language behind)] at head
    cases head
    rfl

/-- A text that is nothing but a line gives what the line does. -/
theorem Gives.lex {line : Text} (gives : Gives context.resetLanguage {} line kinds)
    (source : Option Text) :
    ((Lexer.ofText line source).lex context).tokens.map (·.kind) = kinds := by
  let start := (Lexer.ofText line source).cursor
  have ahead : start.ahead = line := rfl
  let behind : Lexer := ⟨start.advanceBy line.length, {}⟩
  have ended : behind.cursor.ahead = [] := by
    rw [Cursor.advance_by_ahead, ahead, List.drop_length]
  have whole := gives start [] rfl (by rw [ahead, List.append_nil])
  rw [Lexer.drain_tokens_of_ended ended] at whole
  exact whole.trans (List.append_nil kinds)

-- Spaces at the start of a line are passed over, those of the rest together with those in front.
theorem gives_behind_spaces (unread : state.atStart = true)
    (blank : ∀ c ∈ front, Text.isSpace c = true) (gives : Gives context state rest kinds) :
    Gives context state (front ++ rest) kinds := by
  intro cursor more ended ahead
  rw [List.append_assoc] at ahead
  let indented : Lexer := ⟨cursor, state⟩
  let start : Lexer := ⟨cursor.advanceBy front.length, state⟩
  have behind : start.cursor.ahead = rest ++ more := by
    rw [Cursor.advance_by_ahead, ahead, List.drop_left]
  have same : indented.pastSpaces = start.pastSpaces := by
    rw [Lexer.pastSpaces, Lexer.pastSpaces, ahead, behind,
      List.takeWhile_append_of_pos blank, List.length_append, ← Cursor.advance_by_add]
  have drained : indented.drain context = start.drain context := by
    rw [← Lexer.drain_past_spaces context indented unread, same,
      Lexer.drain_past_spaces context start unread]
  have goesOn := gives (cursor.advanceBy front.length) more ended behind
  rw [Cursor.advance_by_add, ← List.length_append] at goesOn
  exact (congrArg (fun run => run.tokens.map (·.kind)) drained).trans goesOn

end LineState
end Gherkin
