import Mathlib.Order.Bounds.Basic
import Gherkin.Proofs.Scan.Leg
import Gherkin.Proofs.Scan.LineStart
import Gherkin.Proofs.Token.Layout
/-!
Reading doc strings. A run of quotes and backticks is read as such at the start of a line when it
is a fence, and elsewhere always, but for titles. Behind a fence all is body up to the first place
that closes it; any other run is text to be matched. A doc string that is written with its fences
and escapes comes back as it was.
-/
namespace Gherkin

namespace Lexeme

theorem read_of_mark (language : Language) {state : LineState} {c : Char} (rest : Text)
    (mark : Text.isFenceMark c = true)
    (inTurn : if state.atStart then Text.isFence (Text.fenceRun (c :: rest)) = true
      else state.scope = none) :
    read language state c rest = docString state (c :: rest) := by
  have marked : c = '"' ∨ c = '\x60' := by simpa [Text.isFenceMark] using mark
  have visible : ((c :: rest).takeWhile Text.isSpace).isEmpty = true := by
    rcases marked with rfl | rfl <;> rfl
  have passed : read language state c rest =
      if state.atStart then openLine language state (c :: rest)
      else if state.scope.isSome then stretch .title state (· == '<') (c :: rest)
      else docString state (c :: rest) := by
    rcases marked with rfl | rfl <;> rfl
  rw [passed]
  split
  · next unread =>
    rw [if_pos unread] at inTurn
    unfold openLine lineStart
    rw [if_pos visible, if_pos inTurn]
  · next read =>
    rw [if_neg read] at inTurn
    rw [inTurn]
    rfl

end Lexeme

namespace Lexer
variable {lexer : Lexer}

/-- Whether a lexer is at a run of quotes and backticks that it reads as such: a fence where the
line begins, and any run behind that, but for titles. -/
def AtRun (lexer : Lexer) : Prop :=
  lexer.cursor.current?.any Text.isFenceMark = true ∧
    if lexer.state.atStart then Text.isFence (Text.fenceRun lexer.cursor.ahead) = true
    else lexer.state.scope = none

def Gives (language : Language) (lexer : Lexer) (kind : TokenKind) (width : Nat) : Prop :=
  lexer.read language =
    some (.token ⟨lexer.position, kind⟩, ⟨lexer.cursor.advanceBy width, lexer.state.opened⟩)

theorem drain_tokens_of_gives {context : ScanContext} {kind : TokenKind} {width : Nat}
    (gives : lexer.Gives context.language kind width) :
    (lexer.drain context).tokens =
      ⟨lexer.position, kind⟩ ::
        (drain context ⟨lexer.cursor.advanceBy width, lexer.state.opened⟩).tokens :=
  drain_tokens_behind gives

theorem read_at_run (language : Language) (begins : lexer.AtRun) :
    let found := Lexeme.docString lexer.state lexer.cursor.ahead
    lexer.read language =
      some (found.kind.reading lexer.position, ⟨lexer.cursor.advanceBy found.width, found.state⟩) := by
  obtain ⟨mark, inTurn⟩ := begins
  cases ahead : lexer.cursor.ahead with
  | nil => rw [Cursor.current?, ahead] at mark; cases mark
  | cons c rest =>
    rw [Cursor.current?, ahead] at mark
    rw [ahead] at inTurn
    simp only [read, ahead]
    rw [Lexeme.read_of_mark language rest mark inTurn]

/-- A run that is no fence is text to be matched. A fence opens a doc string that goes on to the
first place where it is closed, or else to the end of the text. -/
theorem read_doc_string (language : Language) (lexer : Lexer) (begins : lexer.AtRun) :
    let run := Text.fenceRun lexer.cursor.ahead
    let body := lexer.cursor.ahead.drop run.length
    (Text.isFence run = false → lexer.Gives language (.matchText run) run.length) ∧
    (Text.isFence run = true →
      (∃ place, IsLeast {place | DocString.ClosesAt run body place} place ∧
        lexer.Gives language (.docString (.ofBody (body.take place)))
          (run.length + (place + 3))) ∨
      ((∀ place, ¬DocString.ClosesAt run body place) ∧
        lexer.Gives language (.docString (.ofBody body)) (run.length + body.length))) := by
  intro run body
  have found := read_at_run language begins
  constructor
  · intro unfenced
    have plain : Lexeme.docString lexer.state lexer.cursor.ahead =
        ⟨.token (.matchText run), run.length, lexer.state.opened⟩ :=
      if_neg (Bool.eq_false_iff.mp unfenced)
    rwa [plain] at found
  · intro fenced
    rcases Lexeme.doc_string_delimited lexer.state fenced rfl rfl with
      ⟨place, first, closed⟩ | ⟨never, unclosed⟩
    · rw [closed] at found
      exact Or.inl ⟨place, first, found⟩
    · rw [unclosed] at found
      exact Or.inr ⟨never, found⟩

theorem read_doc_string_past_runs :
    let text := Text.ofString "\"\"\"\n\\\"\"\" x\"\"\"\" y"
    let lexer : Lexer := ⟨.ofText text none, { atStart := false, keyword := some .action }⟩
    let raw := Text.ofString "\n\\\"\"\" x\""
    lexer.AtRun ∧
      lexer.Gives .default (.docString ⟨raw, Text.ofString "\"\"\" x\"", none⟩) 14 := by
  intro text lexer raw
  have begins : lexer.AtRun := ⟨rfl, rfl⟩
  have first : IsLeast {place | DocString.ClosesAt ['"', '"', '"'] (text.drop 3) place} 8 := by
    have least : ∀ place ∈ Item.offsets Item.isSingle (Item.ofText DocString.escapable (text.drop 3)),
        DocString.ClosesAt ['"', '"', '"'] (text.drop 3) place → 8 ≤ place := by decide
    constructor
    · show DocString.ClosesAt ['"', '"', '"'] (text.drop 3) 8
      decide
    · exact fun place closes => least place closes.1 closes
  obtain ⟨_, fenced⟩ := read_doc_string .default lexer begins
  rcases fenced rfl with ⟨place, least, gives⟩ | ⟨never, _⟩
  · obtain rfl : place = 8 := least.unique first
    exact ⟨begins, gives⟩
  · exact absurd first.1 (never 8)

theorem at_run_of_fence (fenced : Text.isFence (Text.fenceRun lexer.cursor.ahead) = true)
    (unread : lexer.state.atStart = true) : lexer.AtRun := by
  constructor
  · cases ahead : lexer.cursor.ahead with
    | nil => rw [ahead] at fenced; cases fenced
    | cons c rest =>
      rw [ahead] at fenced
      rw [Cursor.current?, ahead]
      exact Text.mark_of_fence_run fenced
  · rwa [if_pos unread]

theorem read_written_doc_string (language : Language) (draft : DocString.Draft) {more : Text}
    (ahead : lexer.cursor.ahead = draft.fence ++ (draft.body ++ (draft.fence ++ more)))
    (maximal : more.head?.any Text.isFenceMark = false) (unread : lexer.state.atStart = true) :
    lexer.Gives language (.docString draft.docString)
      (draft.fence.length + draft.body.length + draft.fence.length) := by
  have some : draft.decoded ≠ [] := by simp [DocString.Draft.decoded]
  have run : Text.fenceRun lexer.cursor.ahead = draft.fence := by
    rw [ahead, ← draft.encode_decoded]
    exact Text.fence_run_of_is_fence draft.fenced (DocString.encode_head_unmarked some _)
  have found := read_at_run language (at_run_of_fence (run ▸ draft.fenced) unread)
  have lexeme := Lexeme.doc_string_encoded lexer.state draft.fenced some maximal
  rw [draft.encode_decoded, draft.layout_decoded, ← ahead] at lexeme
  rwa [lexeme] at found

-- The doc string may stand at the start of any line, and what follows it is read from there on.
theorem drain_written_doc_string (context : ScanContext) (draft : DocString.Draft) {more : Text}
    (ahead : lexer.cursor.ahead = draft.written ++ more)
    (maximal : more.head?.any Text.isFenceMark = false) (unread : lexer.state.atStart = true) :
    ∃ behind : Lexer, behind.cursor.ahead = more ∧
      (lexer.drain context).tokens =
        ⟨lexer.pastSpaces.position, .docString draft.docString⟩ ::
          (behind.drain context).tokens := by
  have opening : lexer.pastSpaces.cursor.ahead =
      draft.fence ++ (draft.body ++ (draft.fence ++ more)) := by
    have unspaced (rest : Text) :
        (draft.fence ++ rest).dropWhile Text.isSpace = draft.fence ++ rest := by
      rcases Text.is_fence_iff.mp draft.fenced with same | same <;> rw [same] <;> rfl
    rw [past_spaces_ahead, ahead, DocString.Draft.written, List.append_assoc, List.append_assoc,
      List.append_assoc, List.dropWhile_append_of_pos draft.before_spaces, unspaced]
  have found := read_written_doc_string context.language draft opening maximal unread
  have drained := congrArg Run.tokens (drain_past_spaces context lexer unread)
  refine ⟨_, ?_, drained.symm.trans (drain_tokens_of_gives found)⟩
  · rw [Cursor.advance_by_ahead, opening, ← List.drop_drop, ← List.drop_drop, List.drop_left,
      List.drop_left, List.drop_left]

end Lexer

/-- A doc string that is written on lines of its own is read as it was. -/
theorem lex_written_doc_string (source : Option Text) (context : ScanContext)
    (draft : DocString.Draft) :
    ((Lexer.ofText (draft.written ++ ['\n']) source).lex context).tokens.map (·.kind) =
      [.docString draft.docString, .newLine] := by
  have start : (Lexer.ofText (draft.written ++ ['\n']) source).cursor.ahead =
      draft.written ++ ['\n'] := rfl
  obtain ⟨behind, ahead, tokens⟩ :=
    Lexer.drain_written_doc_string context.resetLanguage draft start rfl rfl
  rw [Lexer.lex_tokens, tokens, Lexer.drain_tokens_last_feed ahead]
  rfl

theorem lex_written_doc_string_quoted :
    let text := Text.ofString "\"\"\" a\\`\n\n   b```"
    let body := Text.ofString
      "json \\\"x\\\"\n \t\\\"\\\"\\\" a\\\\\\`\n \t\n \t   b\\`\\`\\`\n\t"
    ((Lexer.ofText (Text.ofString "  ```" ++ body ++ Text.ofString "```\n")).lex
        .standard).tokens.map (·.kind) =
      [.docString ⟨body, text, some (Text.ofString "json \"x\"")⟩, .newLine] := by
  intro text body
  let draft : DocString.Draft :=
    { fence := ['\x60', '\x60', '\x60']
      type := Text.ofString "json \"x\""
      text
      before := [' ', ' ']
      indent := [' ', '\t']
      after := ['\t']
      fenced := rfl
      named := ⟨by rintro _ ⟨⟩; rfl, by rintro _ ⟨⟩; rfl⟩
      oneLine := by decide
      content := ⟨by rintro _ ⟨⟩; exact ⟨'"', rfl, rfl⟩, by rintro _ ⟨⟩; rfl⟩
      spaced := List.all_eq_true.mp rfl }
  exact lex_written_doc_string none .standard draft

end Gherkin
