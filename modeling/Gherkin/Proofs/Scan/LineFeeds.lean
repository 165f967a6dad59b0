import Mathlib.Algebra.GroupWithZero.Nat
import Gherkin.Proofs.Scan.Walk
import Gherkin.Proofs.Token.Feeds
/-!
No line feed of a text is lost, and none is made up. Every one of them is a line break among the
tokens, stands in the body of a doc string, or ends a comment that has its line to itself. That is
so because each reading of a lexer moves it over the line feeds of what it has read and over no
other.
-/
namespace Gherkin

def Reading.lineFeeds : Reading → Nat
  | .token ⟨_, kind⟩ => kind.lineFeeds
  | .comment ⟨_, _, breaksLine⟩ => breaksLine.toNat
  | .trivia => 0

/-- The line feeds of all that a run has read: its line breaks, those in its doc strings and those
of the comments that have taken theirs. -/
def Run.lineFeeds (run : Run) : Nat :=
  run.tokens.countP (·.kind.isNewLine) +
    ((run.tokens.filterMap (·.kind.docString?)).map (·.raw.count '\n')).sum +
    run.comments.countP (·.breaksLine)

theorem LexemeKind.reading_line_feeds (position : Position) (kind : LexemeKind) :
    (kind.reading position).lineFeeds = kind.lineFeeds := by
  cases kind <;> rfl

theorem Run.with_token_line_feeds (token : Token) (run : Run) :
    (run.withToken token).lineFeeds = token.kind.lineFeeds + run.lineFeeds := by
  obtain ⟨position, kind⟩ := token
  cases kind <;>
    simp [lineFeeds, withToken, TokenKind.lineFeeds, TokenKind.isNewLine, TokenKind.docString?]
  -- A line break and a doc string have each their own summand.
  all_goals omega

theorem Run.with_comment_line_feeds (comment : Comment) (events : List ScanEvent) (run : Run) :
    (run.withComment comment events).lineFeeds = comment.breaksLine.toNat + run.lineFeeds := by
  cases taken : comment.breaksLine with
  | false => simp [lineFeeds, withComment, taken]
  | true =>
    simp only [lineFeeds, withComment, List.countP_cons, taken, if_true, Bool.toNat_true]
    omega

theorem breaks_of_line_feeds {reading : Reading} (some : 0 < reading.lineFeeds) :
    (∃ token, reading = .token token ∧
      (token.kind = .newLine ∨ ∃ content, token.kind = .docString content)) ∨
    ∃ comment, reading = .comment comment ∧ comment.breaksLine = true := by
  cases reading with
  | token token =>
    obtain ⟨position, kind⟩ := token
    refine Or.inl ⟨_, rfl, ?_⟩
    cases kind with
    | newLine => exact Or.inl rfl
    | docString content => exact Or.inr ⟨content, rfl⟩
    | _ => cases some
  | comment comment =>
    obtain ⟨position, body, breaksLine⟩ := comment
    cases breaksLine with
    | false => cases some
    | true => exact Or.inr ⟨_, rfl, rfl⟩
  | trivia => cases some

namespace Lexer
variable {lexer after : Lexer} {language : Language}

theorem read_line_feeds {reading : Reading}
    (found : lexer.read language = some (reading, after)) :
    ∃ taken, lexer.cursor.ahead = taken ++ after.cursor.ahead ∧
      taken.count '\n' = reading.lineFeeds := by
  obtain ⟨lexeme, reads, rfl, rfl⟩ := read_inversion found
  refine ⟨lexer.cursor.ahead.take lexeme.width, ?_, ?_⟩
  · rw [Cursor.advance_by_ahead, List.take_append_drop]
  · rw [LexemeKind.reading_line_feeds, Lexeme.feeds_of_reads reads]

-- A comment takes a line feed when it begins its line and a line feed ends it.
theorem read_comment_breaks {comment : Comment}
    (found : lexer.read language = some (.comment comment, after)) :
    '\n' ∉ comment.body ∧
      (comment.breaksLine = true ↔ lexer.state.atStart = true ∧
        ∃ rest, lexer.cursor.ahead = '#' :: (comment.body ++ '\n' :: rest)) := by
  obtain ⟨lexeme, reads, isComment, _, _⟩ := read_comment_inversion found
  rcases Lexeme.kind_of_reads reads with ⟨_, some⟩ | none | ⟨rest, ahead, rfl⟩
  · cases some.symm.trans isComment
  · cases none.symm.trans isComment
  · obtain ⟨body, breaks⟩ := LexemeKind.comment.inj isComment
    rw [← body, ← breaks, ahead, Bool.and_eq_true, beq_iff_eq, List.head?_eq_some_iff]
    have unbroken := Text.rest_of_line_unbroken rest
    have whole := List.take_append_drop (Text.restOfLine rest).length rest
    have front : rest.take (Text.restOfLine rest).length = Text.restOfLine rest :=
      Text.take_run _ rest
    rw [front] at unbroken whole
    refine ⟨unbroken, and_congr_right fun _ => exists_congr fun behind => ?_⟩
    constructor
    · intro fed
      rw [← fed, whole]
    · intro same
      exact List.append_cancel_left (whole.trans ((List.cons_inj_right _).mp same))

theorem walk_line_feeds {context : ScanContext} {run : Run} (walk : Walk context lexer run) :
    lexer.cursor.ahead.count '\n' = run.lineFeeds := by
  induction walk with
  | ended done => rw [done]; rfl
  | token found _ ih =>
    obtain ⟨taken, ahead, feeds⟩ := read_line_feeds found
    rw [ahead, List.count_append, feeds, ih, Run.with_token_line_feeds]
    rfl
  | trivia found _ ih =>
    obtain ⟨taken, ahead, feeds⟩ := read_line_feeds found
    rw [ahead, List.count_append, feeds, ih]
    exact Nat.zero_add _
  | comment found _ ih =>
    obtain ⟨taken, ahead, feeds⟩ := read_line_feeds found
    rw [ahead, List.count_append, feeds, ih, Run.with_comment_line_feeds]
    rfl

end Lexer

theorem drain_line_feeds (text : Text) (source : Option Text) (context : ScanContext) :
    let run := (Lexer.ofText text source).drain context
    text.count '\n' =
      run.tokens.countP (·.kind.isNewLine) +
        ((run.tokens.filterMap (·.kind.docString?)).map (·.raw.count '\n')).sum +
        run.comments.countP (·.breaksLine) ∧
    ∀ (language : Language) (lexer after : Lexer) (reading : Reading),
      lexer.read language = some (reading, after) →
      (∃ taken, lexer.cursor.ahead = taken ++ after.cursor.ahead ∧
        ('\n' ∈ taken →
          (∃ token, reading = .token token ∧
            (token.kind = .newLine ∨ ∃ content, token.kind = .docString content)) ∨
          ∃ comment, reading = .comment comment ∧ comment.breaksLine = true)) ∧
      ∀ comment, reading = .comment comment →
        (comment.breaksLine = true ↔ lexer.state.atStart = true ∧
          ∃ rest, lexer.cursor.ahead = '#' :: (comment.body ++ '\n' :: rest)) := by
  refine ⟨Lexer.walk_line_feeds (Lexer.walk_drain context (Lexer.ofText text source)), ?_⟩
  intro language lexer after reading found
  constructor
  · obtain ⟨taken, ahead, feeds⟩ := Lexer.read_line_feeds found
    refine ⟨taken, ahead, fun broken => breaks_of_line_feeds ?_⟩
    rw [← feeds]
    exact List.count_pos_iff.mpr broken
  · rintro comment rfl
    exact (Lexer.read_comment_breaks found).2

end Gherkin
