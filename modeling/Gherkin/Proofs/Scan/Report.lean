import Mathlib.Data.List.Forall2
import Gherkin.Proofs.Scan.Heeding
import Gherkin.Proofs.Scan.Reach
import Gherkin.Proofs.Token.Outcome
/-!
What a scan reports. The comments that it passes, in the order in which they stand in the text,
settle the language that it ends in and the diagnostics of directives that it adds; its tokens
settle whether it adds that there is no structure. Nothing else of the text and nothing that the
context held before has a say.
-/
namespace Gherkin

/-- Whether a comment stands so many characters ahead of a cursor: its mark is there, and its body
is what the line holds behind the mark. -/
structure Comment.StandsAhead (cursor : Cursor) (offset : Nat) (comment : Comment) : Prop where
  position : comment.position = (cursor.advanceBy offset).position
  body : ∃ rest, cursor.ahead.drop offset = '#' :: rest ∧ comment.body = Text.restOfLine rest

theorem Comment.complaint_none_or_no_language (comment : Comment) :
    comment.complaint? = none ∨ comment.language? = none := by
  unfold complaint?
  split
  · next unknown => exact Or.inr unknown
  · exact Or.inl rfl

namespace Lexer
variable {context : ScanContext} {lexer after : Lexer} {run : Run}

theorem comment_stands {language : Language} {comment : Comment}
    (found : lexer.read language = some (.comment comment, after)) :
    comment.StandsAhead lexer.cursor 0 := by
  obtain ⟨lexeme, reads, isComment, position, _⟩ := read_comment_inversion found
  rcases Lexeme.kind_of_reads reads with ⟨_, some⟩ | none | ⟨rest, ahead, rfl⟩
  · cases some.symm.trans isComment
  · cases none.symm.trans isComment
  · obtain ⟨body, _⟩ := LexemeKind.comment.inj isComment
    exact ⟨position, rest, ahead, body.symm⟩

theorem stands_behind {language : Language} {reading : Reading}
    (found : lexer.read language = some (reading, after)) :
    ∃ width, 0 < width ∧ ∀ {offset : Nat} {comment : Comment},
      comment.StandsAhead after.cursor offset →
        comment.StandsAhead lexer.cursor (width + offset) := by
  obtain ⟨lexeme, reads, _, rfl⟩ := read_inversion found
  refine ⟨lexeme.width, Lexeme.width_pos_of_reads reads, fun stands => ?_⟩
  obtain ⟨position, rest, ahead, body⟩ := stands
  rw [Cursor.advance_by_add] at position
  rw [Cursor.advance_by_ahead, List.drop_drop] at ahead
  exact ⟨position, rest, ahead, body⟩

-- The offsets behind a lexeme are counted from its end, so they all grow by its width.
theorem offsets_behind {language : Language} {reading : Reading} {comments : List Comment}
    (found : lexer.read language = some (reading, after))
    (behind : ∃ offsets : List Nat, offsets.Pairwise (· < ·) ∧
      List.Forall₂ (Comment.StandsAhead after.cursor) offsets comments) :
    ∃ offsets : List Nat, offsets.Pairwise (· < ·) ∧ (∀ offset ∈ offsets, 0 < offset) ∧
      List.Forall₂ (Comment.StandsAhead lexer.cursor) offsets comments := by
  obtain ⟨width, some, stands⟩ := stands_behind found
  obtain ⟨offsets, ordered, stand⟩ := behind
  refine ⟨offsets.map (width + ·), ?_, ?_, ?_⟩
  · exact ordered.map _ fun _ _ less => Nat.add_lt_add_left less width
  · intro offset member
    obtain ⟨former, _, rfl⟩ := List.mem_map.mp member
    omega
  · exact List.forall₂_map_left_iff.mpr (stand.imp fun _ _ => stands)

theorem walk_comments_stand (walk : Walk context lexer run) :
    ∃ offsets : List Nat, offsets.Pairwise (· < ·) ∧
      List.Forall₂ (Comment.StandsAhead lexer.cursor) offsets run.comments := by
  induction walk with
  | ended => exact ⟨[], List.Pairwise.nil, List.Forall₂.nil⟩
  | token found _ ih | trivia found _ ih =>
    obtain ⟨offsets, ordered, _, stand⟩ := offsets_behind found ih
    exact ⟨offsets, ordered, stand⟩
  | comment found _ ih =>
    obtain ⟨offsets, ordered, behind, stand⟩ := offsets_behind found ih
    exact ⟨0 :: offsets, List.pairwise_cons.mpr ⟨behind, ordered⟩,
      List.Forall₂.cons (comment_stands found) stand⟩

end Lexer

theorem TokenKind.not_structural_iff (kind : TokenKind) :
    kind.isStructural = false ↔ kind.isNewLine = true ∨ kind.isDescription = true := by
  cases kind <;> simp [isStructural, isNewLine, isDescription]

/-- The diagnostic of a text without structural tokens, for a text that has none. -/
def Diagnostic.verdict (source : Option Locator) (tokens : List Token) : List Diagnostic :=
  if tokens.any fun token => token.kind.isStructural then [] else [.noValidGherkin source]

theorem Diagnostic.verdict_cases (source : Option Locator) (tokens : List Token) :
    (verdict source tokens = [.noValidGherkin source] ∧
      ∀ token ∈ tokens, token.kind.isNewLine = true ∨ token.kind.isDescription = true) ∨
    (verdict source tokens = [] ∧
      ∃ token ∈ tokens, token.kind.isNewLine = false ∧ token.kind.isDescription = false) := by
  unfold verdict
  split
  · next some =>
    obtain ⟨token, member, structural⟩ := List.any_eq_true.mp some
    refine Or.inr ⟨rfl, token, member, ?_⟩
    simpa [TokenKind.isStructural] using structural
  · next none =>
    refine Or.inl ⟨rfl, fun token member => ?_⟩
    rw [← TokenKind.not_structural_iff]
    by_contra structural
    exact none (List.any_eq_true.mpr ⟨token, member, Bool.not_eq_false _ ▸ structural⟩)

theorem Diagnostic.verdict_of_structural {source : Option Locator} {tokens others : List Token}
    (same : others.map (·.kind.isStructural) = tokens.map (·.kind.isStructural)) :
    verdict source others = verdict source tokens := by
  have structural (tokens : List Token) : (tokens.any fun token => token.kind.isStructural) =
      (tokens.map (·.kind.isStructural)).any id := by
    rw [List.any_map]
    rfl
  rw [verdict, verdict, structural, structural, same]

-- The kinds of the tokens decide, and not where they stand.
theorem Diagnostic.verdict_of_kinds {source : Option Locator} {tokens others : List Token}
    (same : others.map (·.kind) = tokens.map (·.kind)) :
    verdict source others = verdict source tokens := by
  apply verdict_of_structural
  have structural := congrArg (List.map TokenKind.isStructural) same
  rwa [List.map_map, List.map_map] at structural

namespace Lexer

/-- All that a scan of its own leaves of its context. -/
theorem lex_context (context : ScanContext) (lexer : Lexer) :
    (lexer.lex context).context =
      { (lexer.drain context.resetLanguage).context with
        diagnostics := (lexer.drain context.resetLanguage).context.diagnostics ++
          Diagnostic.verdict lexer.cursor.source (lexer.lex context).tokens } := by
  unfold lex Diagnostic.verdict
  dsimp only
  split
  · rw [List.append_nil]
  · rfl

theorem lex_default (context : ScanContext) (lexer : Lexer) :
    (lexer.lex context).context.defaultLanguage = context.defaultLanguage := by
  rw [lex_context, walk_context (walk_drain context.resetLanguage lexer),
    ScanContext.heed_all_default]
  rfl

theorem lex_language (context : ScanContext) (lexer : Lexer) :
    (lexer.lex context).context.language =
      ((lexer.lex context).comments.filterMap Comment.language?).getLast?.getD
        context.defaultLanguage := by
  rw [lex_context, walk_context (walk_drain context.resetLanguage lexer),
    ScanContext.heed_all_language]
  rfl

theorem lex_diagnostics (context : ScanContext) (lexer : Lexer) :
    (lexer.lex context).context.diagnostics =
      context.diagnostics ++ (lexer.lex context).comments.filterMap Comment.complaint? ++
        Diagnostic.verdict lexer.cursor.source (lexer.lex context).tokens := by
  rw [lex_context, walk_context (walk_drain context.resetLanguage lexer),
    ScanContext.heed_all_diagnostics]
  rfl

end Lexer

theorem lex_reports (context : ScanContext) (lexer : Lexer) :
    let run := lexer.lex context
    let source := lexer.cursor.source
    (∀ comment, comment ∈ run.comments ↔ lexer.Passes context.resetLanguage comment) ∧
    (∃ offsets : List Nat, offsets.Pairwise (· < ·) ∧
      List.Forall₂ (Comment.StandsAhead lexer.cursor) offsets run.comments) ∧
    run.context.defaultLanguage = context.defaultLanguage ∧
    run.context.language =
      (run.comments.filterMap Comment.language?).getLast?.getD context.defaultLanguage ∧
    (∃ verdict, run.context.diagnostics =
        context.diagnostics ++ run.comments.filterMap Comment.complaint? ++ verdict ∧
      ((verdict = [.noValidGherkin source] ∧
          ∀ token ∈ run.tokens, token.kind.isNewLine = true ∨ token.kind.isDescription = true) ∨
        (verdict = [] ∧ ∃ token ∈ run.tokens,
          token.kind.isNewLine = false ∧ token.kind.isDescription = false))) ∧
    ∀ (reached : ScanContext) (comment : Comment),
      comment.complaint? = none ∨ (reached.heed comment).1.language = reached.language := by
  intro run source
  have walk := Lexer.walk_drain context.resetLanguage lexer
  have heeded := Lexer.walk_context walk
  have passed := Lexer.mem_comments_iff walk
  have stand := Lexer.walk_comments_stand walk
  refine ⟨passed, stand, ?_, ?_, ?_, ?_⟩
  · rw [Lexer.lex_context, heeded, ScanContext.heed_all_default]
    rfl
  · rw [Lexer.lex_context, heeded, ScanContext.heed_all_language]
    rfl
  · exact ⟨Diagnostic.verdict source run.tokens, Lexer.lex_diagnostics context lexer,
      Diagnostic.verdict_cases source run.tokens⟩
  · intro reached comment
    refine comment.complaint_none_or_no_language.imp_right fun unknown => ?_
    rw [ScanContext.heed_context, unknown]
    rfl

end Gherkin
