import Gherkin.Proofs.Text.Lines
import Gherkin.Proofs.Text.Trimmed
import Gherkin.Proofs.Token.Outcome
/-!
What tokens carry. A reader of a line gives text of that line, and where the line ends or a cell
does it takes the spaces away; only a cell and a doc string may hold line feeds, and a doc string
has no blank line at its end. No text that is matched or shown is empty: what makes a reader begin
is a character that it keeps.
-/
namespace Gherkin

/-- Whether a doc string is laid out: its content type says something and is trimmed, and its last
line is not blank. -/
structure DocString.LaidOut (content : DocString) : Prop where
  contentType : ∀ type, content.contentType = some type →
    type ≠ [] ∧ '\n' ∉ type ∧ Text.IsTrimmed Text.isBlank type
  literal : content.literal = [] ∨ Text.isBlankText (Text.lastLine content.literal) = false

/-- Whether a token that begins with a mark carries text of the form that its kind has. The name of
a header is trimmed in a cell, and in a placeholder it is what the line holds up to the bracket. -/
def TokenKind.WellFormed (mark : Char) : TokenKind → Prop
  | .newLine | .scope _ | .keyword _ => True
  | .tag name => ∀ c ∈ name, Text.isBlank c = false ∧ c ≠ '@' ∧ c ≠ '#'
  | .title text => text ≠ [] ∧ '\n' ∉ text ∧ '<' ∉ text
  | .description text => text ≠ [] ∧ '\n' ∉ text ∧ Text.IsTrimmed Text.isSpace text
  | .matchText text => text ≠ [] ∧ '\n' ∉ text
  | .docString content => content.LaidOut
  | .tableCell text => Text.IsTrimmed Text.isSpace text
  | .tableHeader name =>
    (mark = '|' ∧ Text.IsTrimmed Text.isSpace name) ∨ (mark = '<' ∧ '>' ∉ name ∧ '\n' ∉ name)

namespace Text

theorem feed_not_mem_line_until (stop : Char → Bool) (text : Text) :
    '\n' ∉ lineUntil stop text := by
  intro member
  have goes := List.mem_takeWhile_imp member
  simp at goes

theorem stop_not_mem_line_until {stop : Char → Bool} {c : Char} (stops : stop c = true)
    (text : Text) : c ∉ lineUntil stop text := by
  intro member
  have goes := List.mem_takeWhile_imp member
  simp [stops] at goes

theorem feed_not_mem_rest_of_line (text : Text) : '\n' ∉ restOfLine text := by
  intro member
  have goes := List.mem_takeWhile_imp member
  simp at goes

end Text

namespace DocString

theorem unindent_suffix (indentation : Nat) (line : Text) : unindent indentation line <:+ line :=
  List.drop_suffix _ _

theorem layout_laid_out (raw decoded : Text) : (layout raw decoded).LaidOut := by
  let lines := Text.lines decoded
  let content := lines.tail.map (unindent (indentation lines.tail))
  have unbroken : ∀ line ∈ lines, '\n' ∉ line := fun _ => Text.feed_not_mem_line
  constructor
  · intro type given
    have some : Text.trim Text.isBlank (lines.headD []) ≠ [] ∧
        Text.trim Text.isBlank (lines.headD []) = type := by
      simpa [layout] using given
    obtain ⟨some, rfl⟩ := some
    refine ⟨some, ?_, Text.trim_is_trimmed _ _⟩
    have first : '\n' ∉ lines.headD [] := by
      cases cut : lines with
      | nil => exact List.not_mem_nil
      | cons line rest => exact unbroken line (cut ▸ List.mem_cons_self)
    exact fun feed => first (Text.mem_of_mem_trim feed)
  · show Text.unlines (Text.trimEnd Text.isBlankText content) = [] ∨
      Text.isBlankText
        (Text.lastLine (Text.unlines (Text.trimEnd Text.isBlankText content))) = false
    cases ends : (Text.trimEnd Text.isBlankText content).getLast? with
    | none =>
      rw [List.getLast?_eq_none_iff.mp ends]
      exact Or.inl rfl
    | some last =>
      right
      have member : last ∈ content :=
        (Text.trim_end_initial _ _).subset (List.mem_of_getLast? ends)
      obtain ⟨line, inside, rfl⟩ := List.mem_map.mp member
      have kept : '\n' ∉ unindent (indentation lines.tail) line := fun feed =>
        unbroken line (List.mem_of_mem_tail inside) ((unindent_suffix _ line).subset feed)
      rw [Text.last_line_unlines ends kept]
      exact Text.trim_end_last ends

end DocString

namespace Lexeme
variable {language : Language} {state : LineState} {text : Text} {lexeme : Lexeme}
  {kind : TokenKind}

theorem tag_well_formed (mark : Char) (rest : Text) :
    (TokenKind.tag (rest.takeWhile Text.isTagChar)).WellFormed mark := by
  intro c member
  have named := List.mem_takeWhile_imp member
  simpa [Text.isTagChar, and_assoc] using named

theorem cell_well_formed (rest : Text) (isToken : (cell state rest).kind = .token kind) :
    kind.WellFormed '|' := by
  simp only [cell] at isToken
  split at isToken
  · cases isToken
    split
    · exact Or.inl ⟨rfl, Text.trim_is_trimmed _ _⟩
    · exact Text.trim_is_trimmed _ _
  · cases isToken

theorem placeholder_well_formed (rest : Text)
    (isToken : (placeholder state rest).kind = .token kind) : kind.WellFormed '<' := by
  have unbroken := Text.feed_not_mem_line_until (· == '>') rest
  unfold placeholder at isToken
  dsimp only at isToken
  split at isToken
  · cases isToken
    exact Or.inr ⟨rfl, Text.stop_not_mem_line_until (by decide) rest, unbroken⟩
  · cases isToken
    exact ⟨List.cons_ne_nil _ _, List.not_mem_cons_of_ne_of_not_mem (by decide) unbroken⟩

theorem doc_string_well_formed {c : Char} (rest : Text) (mark : Text.isFenceMark c = true)
    (isToken : (docString state (c :: rest)).kind = .token kind) : kind.WellFormed c := by
  unfold docString at isToken
  dsimp only at isToken
  split at isToken
  · cases isToken
    exact DocString.layout_laid_out _ _
  · cases isToken
    refine ⟨by simp [Text.fenceRun, mark], fun feed => ?_⟩
    exact Text.ne_feed_of_fence_mark (List.mem_takeWhile_imp feed) rfl

theorem description_well_formed {c : Char} (rest : Text) (visible : Text.isBlank c = false) :
    (TokenKind.description (Text.trim Text.isSpace (Text.restOfLine (c :: rest)))).WellFormed
      c := by
  have notFeed := Text.ne_feed_of_not_blank visible
  have member : c ∈ Text.restOfLine (c :: rest) := by
    rw [Text.rest_of_line_cons rest notFeed]
    exact List.mem_cons_self
  have wanted : Text.isSpace c = false := by simp [Text.isSpace, visible]
  refine ⟨Text.trim_ne_nil_of_mem member wanted, ?_, Text.trim_is_trimmed _ _⟩
  exact fun feed => Text.feed_not_mem_rest_of_line _ (Text.mem_of_mem_trim feed)

theorem shown_token {make : Text → TokenKind} {shown : Text}
    (isToken : (if shown.isEmpty then LexemeKind.trivia else .token (make shown)) = .token kind) :
    kind = make shown ∧ shown ≠ [] := by
  cases shown with
  | nil => cases isToken
  | cons c rest => cases isToken; exact ⟨rfl, List.cons_ne_nil _ _⟩

-- Text up to a stop character is part of what is read up to there, and it is shown if there is any.
theorem stretch_token {make : Text → TokenKind} {stop : Char → Bool}
    (isToken : (stretch make state stop text).kind = .token kind) :
    ∃ shown, kind = make shown ∧ shown ≠ [] ∧ shown ⊆ Text.lineUntil stop text := by
  unfold stretch at isToken
  dsimp only at isToken
  split at isToken
  · cases isToken
  · obtain ⟨same, some⟩ := shown_token isToken
    refine ⟨_, same, some, ?_⟩
    split
    · exact (Text.trim_end_initial _ _).subset
    · exact List.Subset.refl _

theorem escape_well_formed (mark : Char) (rest : Text)
    (isToken : (escape state rest).kind = .token kind) : kind.WellFormed mark := by
  unfold escape at isToken
  split at isToken
  · next c hidden =>
    cases isToken
    have symbol := (Option.filter_eq_some_iff.mp hidden).2
    have notFeed : c ≠ '\n' := by simpa using (Bool.and_eq_true_iff.mp symbol).2
    refine ⟨List.cons_ne_nil _ _, List.not_mem_cons_of_ne_of_not_mem (Ne.symm notFeed) ?_⟩
    split
    · exact List.not_mem_nil
    · exact Text.feed_not_mem_line_until _ _
  · cases isToken
    exact ⟨List.cons_ne_nil _ _, List.not_mem_cons_of_ne_of_not_mem (by decide)
      (Text.feed_not_mem_line_until _ _)⟩

/-- A token carries text of the form that its kind has, whatever it is read from. -/
theorem well_formed_of_reads (reads : Reads language state text lexeme)
    (isToken : lexeme.kind = .token kind) :
    ∃ mark, text.head? = some mark ∧ kind.WellFormed mark := by
  cases reads with
  | newLine rest => cases isToken; exact ⟨_, rfl, trivial⟩
  | comment rest => cases isToken
  | tag rest => cases isToken; exact ⟨_, rfl, tag_well_formed _ rest⟩
  | cell rest => exact ⟨_, rfl, cell_well_formed rest isToken⟩
  | placeholder rest => exact ⟨_, rfl, placeholder_well_formed rest isToken⟩
  | spaces => cases isToken
  | docString rest _ mark => exact ⟨_, rfl, doc_string_well_formed rest mark isToken⟩
  | step rest => cases isToken; exact ⟨_, rfl, trivial⟩
  | scope rest => cases isToken; exact ⟨_, rfl, trivial⟩
  | description rest _ visible =>
    cases isToken
    exact ⟨_, rfl, description_well_formed rest visible⟩
  | title rest =>
    obtain ⟨shown, rfl, some, inside⟩ := stretch_token isToken
    exact ⟨_, rfl, some, fun feed => Text.feed_not_mem_line_until _ _ (inside feed),
      fun bracket => Text.stop_not_mem_line_until (by decide) _ (inside bracket)⟩
  | escape rest => exact ⟨_, rfl, escape_well_formed _ rest isToken⟩
  | matchText rest =>
    obtain ⟨shown, rfl, some, inside⟩ := stretch_token isToken
    exact ⟨_, rfl, some, fun feed => Text.feed_not_mem_line_until _ _ (inside feed)⟩
  | skip => cases isToken

end Lexeme
end Gherkin
