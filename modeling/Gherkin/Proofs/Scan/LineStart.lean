import Gherkin.Proofs.Text.Runs
import Gherkin.Proofs.Scan.Walk
/-!
What a lexer passes over at the start of a line. Spaces there leave the line at its start, whatever
comes behind them, and a comment takes its whole line: behind it the lexer is at the start of the
next, as if the line had not been there.
-/
namespace Gherkin

namespace Text

theorem rest_of_line_append_feed {body : Text} (unbroken : '\n' ∉ body) (rest : Text) :
    restOfLine (body ++ '\n' :: rest) = body := by
  have inside : ∀ c ∈ body, (c != '\n') = true := by
    intro c member
    rw [bne_iff_ne]
    rintro rfl
    exact unbroken member
  rw [restOfLine, List.takeWhile_append_of_pos inside]
  simp

end Text

theorem Place.behind_line (place : Place) {line : Text} (unbroken : '\n' ∉ line) :
    (line ++ ['\n']).foldl Place.after place = ⟨nextCoordinate place.line, 1⟩ := by
  induction line generalizing place with
  | nil => rfl
  | cons c rest ih =>
    obtain ⟨notFeed, unbrokenRest⟩ := List.ne_and_not_mem_of_not_mem_cons unbroken
    rw [List.cons_append, List.foldl_cons, ih _ unbrokenRest, after, if_neg (Ne.symm notFeed)]

namespace Lexeme

theorem read_space (language : Language) {state : LineState} {c : Char} (rest : Text)
    (unread : state.atStart = true) (space : Text.isSpace c = true) :
    read language state c rest =
      ⟨.trivia, ((c :: rest).takeWhile Text.isSpace).length, state⟩ := by
  obtain ⟨feed, mark, tagged, bar, bracket, _⟩ :=
    Text.marks_of_not_symbol (Text.not_symbol_of_space space)
  have some : ((c :: rest).takeWhile Text.isSpace).isEmpty = false := by simp [space]
  rw [read, if_neg feed, if_neg mark, if_neg tagged, if_neg bar, if_neg bracket, if_pos unread]
  simp only [openLine, some, Bool.false_eq_true, ↓reduceIte]

theorem read_comment_line (language : Language) {state : LineState} {body : Text} (rest : Text)
    (unread : state.atStart = true) (unbroken : '\n' ∉ body) :
    read language state '#' (body ++ '\n' :: rest) =
      ⟨.comment body true, body.length + 2, state⟩ := by
  have line := Text.rest_of_line_append_feed unbroken rest
  have read : read language state '#' (body ++ '\n' :: rest) =
      comment state (body ++ '\n' :: rest) := rfl
  simp [read, comment, line, unread, Nat.add_comm, Nat.add_left_comm]

end Lexeme

namespace Lexer
variable {context : ScanContext} {lexer : Lexer} {run : Run}

/-- The lexer behind the spaces ahead of it. -/
def pastSpaces (lexer : Lexer) : Lexer :=
  ⟨lexer.cursor.advanceBy (lexer.cursor.ahead.takeWhile Text.isSpace).length, lexer.state⟩

@[simp] theorem past_spaces_ahead (lexer : Lexer) :
    lexer.pastSpaces.cursor.ahead = lexer.cursor.ahead.dropWhile Text.isSpace := by
  rw [pastSpaces, Cursor.advance_by_ahead, Text.drop_run]

@[simp] theorem past_spaces_source (lexer : Lexer) :
    lexer.pastSpaces.cursor.source = lexer.cursor.source :=
  Cursor.advance_by_source _ _

theorem walk_past_spaces_iff (lexer : Lexer) (unread : lexer.state.atStart = true) :
    Walk context lexer.pastSpaces run ↔ Walk context lexer run := by
  cases ahead : lexer.cursor.ahead with
  | nil => rw [pastSpaces, ahead]; rfl
  | cons c rest =>
    cases space : Text.isSpace c with
    | false =>
      have none : (c :: rest).takeWhile Text.isSpace = [] := by simp [space]
      rw [pastSpaces, ahead, none]
      rfl
    | true =>
      have found : lexer.read context.language = some (.trivia, lexer.pastSpaces) := by
        simp only [read, ahead, Lexeme.read_space context.language rest unread space, pastSpaces]
        rfl
      constructor
      · intro walk
        exact Walk.trivia found walk
      · intro walk
        have first := walk_inversion walk
        rwa [found] at first

theorem drain_past_spaces (context : ScanContext) (lexer : Lexer)
    (unread : lexer.state.atStart = true) :
    lexer.pastSpaces.drain context = lexer.drain context :=
  drain_of_walk ((walk_past_spaces_iff lexer unread).mpr (walk_drain context lexer))

/-- The lexer behind a line with a comment of this body. -/
def pastComment (body : Text) (lexer : Lexer) : Lexer :=
  ⟨lexer.cursor.advanceBy (body.length + 2), lexer.state⟩

theorem read_comment_line (language : Language) {body rest : Text}
    (ahead : lexer.cursor.ahead = '#' :: (body ++ '\n' :: rest))
    (unread : lexer.state.atStart = true) (unbroken : '\n' ∉ body) :
    lexer.read language = some (.comment ⟨lexer.position, body, true⟩, lexer.pastComment body) := by
  simp only [read, ahead, Lexeme.read_comment_line language rest unread unbroken, pastComment]
  rfl

theorem past_comment_ahead {body rest : Text}
    (ahead : lexer.cursor.ahead = '#' :: (body ++ '\n' :: rest)) :
    (lexer.pastComment body).cursor.ahead = rest := by
  rw [pastComment, Cursor.advance_by_ahead, ahead]
  simp

theorem past_comment_place {body rest : Text}
    (ahead : lexer.cursor.ahead = '#' :: (body ++ '\n' :: rest)) (unbroken : '\n' ∉ body) :
    (lexer.pastComment body).cursor.place = ⟨nextCoordinate lexer.cursor.place.line, 1⟩ := by
  have line : lexer.cursor.ahead.take (body.length + 2) = ('#' :: body) ++ ['\n'] := by
    rw [ahead]
    simp [List.take_append, List.take_of_length_le]
  rw [pastComment, Cursor.advance_by_place, line, Place.behind_line]
  exact List.not_mem_cons_of_ne_of_not_mem (by decide) unbroken

end Lexer
end Gherkin
