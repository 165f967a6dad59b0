import Gherkin.Proofs.Scan.Leg
import Gherkin.Proofs.Token.Payload
import Gherkin.Proofs.Token.Row
/-!
Reading a row of a table. A row is read bar by bar, one cell a time, so its tokens are those that
its items make, cut at the plain bars; and cells that are written with their meaningful characters
escaped come back as they were.
-/
namespace Gherkin

namespace Lexer
variable {context : ScanContext} {lexer : Lexer} {rest : Text} {row behind : List Item}

theorem read_bar (language : Language) (ahead : lexer.cursor.ahead = '|' :: rest) :
    lexer.read language =
      some ((Lexeme.cell lexer.state rest).kind.reading lexer.position,
        ⟨lexer.cursor.advanceBy (Lexeme.cell lexer.state rest).width,
          (Lexeme.cell lexer.state rest).state⟩) := by
  simp only [read, ahead]
  rfl

-- The bar that closes a cell is not taken with it, so it is there to open the next one.
theorem row_leg (cut : Item.ofText Cell.escapable rest = row ++ behind)
    (unbroken : .single '\n' ∉ row)
    (ended : ∀ item, behind.head? = some item → item = .single '\n')
    (ahead : lexer.cursor.ahead = '|' :: rest) :
    Leg context lexer
      ((Cell.tokens lexer.cursor (Cell.bar :: row)).map .token ++ [.trivia]) context
      ⟨lexer.cursor.advanceBy (1 + (Item.text row).length), lexer.state.opened⟩ := by
  induction row using Cell.row_induction generalizing lexer rest with
  | opened segment free =>
    have found := read_bar context.language ahead
    rw [Lexeme.cell_opened lexer.state cut free unbroken ended] at found
    rw [Cell.tokens_opened _ free]
    exact Leg.later found (Leg.here _ _)
  | closed segment later free ih =>
    obtain ⟨unbrokenSegment, unbrokenLater⟩ : .single '\n' ∉ segment ∧ .single '\n' ∉ later := by
      simpa [Cell.bar] using unbroken
    rw [List.append_assoc] at cut
    have found := read_bar context.language ahead
    rw [Lexeme.cell_closed lexer.state cut free unbrokenSegment] at found
    have next : rest.drop (Item.text segment).length = '|' :: Item.text (later ++ behind) := by
      rw [← Item.text_of_text Cell.escapable rest, cut, Item.text_append, List.drop_left]
      rfl
    have cutLater : Item.ofText Cell.escapable (Item.text (later ++ behind)) = later ++ behind :=
      Item.of_text_tail (Item.of_text_back cut)
    let after : Lexer :=
      ⟨lexer.cursor.advanceBy (1 + (Item.text segment).length), lexer.state.opened⟩
    have aheadAfter : after.cursor.ahead = '|' :: Item.text (later ++ behind) := by
      rw [Cursor.advance_by_ahead, ahead, Nat.add_comm, List.drop_succ_cons, next]
    have place : after.cursor.advanceBy (1 + (Item.text later).length) =
        lexer.cursor.advanceBy (1 + (Item.text (segment ++ Cell.bar :: later)).length) := by
      rw [Cursor.advance_by_add, Item.text_append, Item.text_cons, List.length_append,
        List.length_append, Nat.add_assoc]
      rfl
    have leg := ih cutLater unbrokenLater aheadAfter
    rw [place] at leg
    rw [Cell.tokens_closed _ free]
    exact Leg.later found leg

/-- A row is read to the end of its line and gives one token for every cell between two bars, at the
bar that opens it; what is behind the last bar gives none. -/
theorem read_row (context : ScanContext) (lexer : Lexer)
    (opened : lexer.cursor.current? = some '|') :
    let line := Text.restOfLine lexer.cursor.ahead
    let row := Item.ofText Cell.escapable line
    let tokens := Cell.tokens lexer.cursor row
    let lineEnd : Lexer := ⟨lexer.cursor.advanceBy line.length, lexer.state.opened⟩
    tokens.map (·.kind) = (Cell.segments row).map Cell.kindOf ∧
    Leg context lexer (tokens.map .token ++ [.trivia]) context lineEnd ∧
    Text.atLineEnd lineEnd.cursor.ahead = true ∧
    (lexer.drain context).tokens = tokens ++ (lineEnd.drain context).tokens := by
  intro line row tokens lineEnd
  obtain ⟨rest, ahead⟩ := List.head?_eq_some_iff.mp opened
  have lineEq : line = '|' :: Text.restOfLine rest := by
    rw [← Text.rest_of_line_cons rest (by decide), ← ahead]
  have rowEq : row = Cell.bar :: Item.ofText Cell.escapable (Text.restOfLine rest) :=
    (congrArg _ lineEq).trans (Item.of_text_plain (by decide) _)
  obtain ⟨behind, cut, ended⟩ :=
    @Item.of_text_rest_of_line Cell.escapable (by decide) rest
  have unbroken : .single '\n' ∉ Item.ofText Cell.escapable (Text.restOfLine rest) :=
    fun member => Text.feed_not_mem_rest_of_line rest (Item.mem_of_single_mem member)
  have leg : Leg context lexer _ context _ := row_leg cut unbroken ended ahead
  rw [Item.text_of_text, ← rowEq, Nat.add_comm, ← List.length_cons, ← lineEq] at leg
  refine ⟨?_, leg, ?_, ?_⟩
  · have kinds := Cell.tokens_kinds lexer.cursor (Item.ofText Cell.escapable (Text.restOfLine rest))
    rwa [← rowEq] at kinds
  · rw [Cursor.advance_by_ahead]
    exact Text.rest_of_line_ends lexer.cursor.ahead
  · rw [drain_tokens_of_leg leg, List.filterMap_append, Reading.filter_map_tokens]
    exact congrArg (· ++ _) (List.append_nil tokens)

theorem read_row_fenced :
    let line := Text.ofString "| a\\|b |\t<h> | \\<c> |x\\"
    let lexer : Lexer := ⟨.ofText line none, { atStart := false, scope := some .feature }⟩
    lexer.cursor.current? = some '|' ∧
      (lexer.drain .standard).tokens =
        [⟨⟨⟨1, 1⟩, none⟩, .tableCell ['a', '|', 'b']⟩, ⟨⟨⟨1, 8⟩, none⟩, .tableHeader ['h']⟩,
          ⟨⟨⟨1, 14⟩, none⟩, .tableCell ['<', 'c', '>']⟩] := by
  intro line lexer
  have opened : lexer.cursor.current? = some '|' := rfl
  obtain ⟨_, _, _, tokens⟩ := read_row .standard lexer opened
  refine ⟨opened, tokens.trans ?_⟩
  rw [drain_tokens_of_ended (by decide), List.append_nil]
  decide +kernel

end Lexer

-- The row may stand anywhere, and what follows its line is read from the line feed on.
theorem Lexer.drain_written_row (context : ScanContext) {lexer : Lexer}
    {contents : List Cell.Content}
    (trimmed : ∀ content ∈ contents, Text.IsTrimmed Text.isSpace content.text) {more : Text}
    (ahead : lexer.cursor.ahead =
      '|' :: contents.flatMap Cell.Content.written ++ '\n' :: more) :
    ∃ lineEnd : Lexer, lineEnd.cursor.ahead = '\n' :: more ∧
      (lexer.drain context).tokens.map (·.kind) =
        contents.map Cell.Content.kind ++ (lineEnd.drain context).tokens.map (·.kind) := by
  let row := Cell.Content.row contents
  let lineEnd : Lexer :=
    ⟨lexer.cursor.advanceBy (1 + (Item.text row).length), lexer.state.opened⟩
  have cut : Item.ofText Cell.escapable (Item.text row ++ '\n' :: more) =
      row ++ .single '\n' :: Item.ofText Cell.escapable more := by
    rw [Item.of_text_append (Cell.Content.row_stands contents), Item.of_text_plain (by decide)]
  have ended : ∀ item,
      (Item.single '\n' :: Item.ofText Cell.escapable more).head? = some item →
        item = .single '\n' := by
    rintro item ⟨⟩
    rfl
  rw [← Cell.Content.text_row, List.cons_append] at ahead
  have leg : Leg context lexer _ context lineEnd :=
    row_leg cut (Cell.Content.feed_not_mem_row contents) ended ahead
  refine ⟨lineEnd, ?_, ?_⟩
  · rw [Cursor.advance_by_ahead, ahead, Nat.add_comm, List.drop_succ_cons, List.drop_left]
  · rw [drain_tokens_of_leg leg, List.filterMap_append, Reading.filter_map_tokens,
      List.map_append, List.map_append, Cell.tokens_kinds, Cell.Content.row_kinds trimmed]
    exact congrArg (· ++ _) (List.append_nil _)

/-- Cells that are written in a row are read as they were. -/
theorem lex_written_row (source : Option Text) (context : ScanContext)
    (contents : List Cell.Content)
    (trimmed : ∀ content ∈ contents, Text.IsTrimmed Text.isSpace content.text) :
    let line := '|' :: contents.flatMap Cell.Content.written ++ ['\n']
    ((Lexer.ofText line source).lex context).tokens.map (·.kind) =
      contents.map Cell.Content.kind ++ [.newLine] := by
  intro line
  obtain ⟨lineEnd, ahead, kinds⟩ :=
    Lexer.drain_written_row context.resetLanguage trimmed
      (show (Lexer.ofText line source).cursor.ahead = _ from rfl)
  rw [Lexer.lex_tokens, kinds, Lexer.drain_tokens_last_feed ahead]
  rfl

theorem lex_written_row_escaped :
    let contents : List Cell.Content :=
      [.plain (Text.ofString "a|\\n<b>"), .header [], .header ['\n', '>'], .plain ['#', '@', '"']]
    (∀ content ∈ contents, Text.IsTrimmed Text.isSpace content.text) ∧
      ((Lexer.ofText
        (Text.ofString "| a\\|\\\\n\\<b\\> | <> | <\\n\\>> | #@\" |\n")).lex .standard).tokens.map
          (·.kind) =
        [.tableCell (Text.ofString "a|\\n<b>"), .tableHeader [], .tableHeader ['\n', '>'],
          .tableCell ['#', '@', '"'], .newLine] := by
  intro contents
  have trimmed : ∀ content ∈ contents, Text.IsTrimmed Text.isSpace content.text := by
    have ends : ∀ content ∈ contents, content.text.head?.all (!Text.isSpace ·) = true ∧
        content.text.getLast?.all (!Text.isSpace ·) = true := by decide
    intro content member
    obtain ⟨first, last⟩ := ends content member
    constructor
    · intro c head
      simpa [head] using first
    · intro c final
      simpa [final] using last
  exact ⟨trimmed, lex_written_row none .standard contents trimmed⟩

end Gherkin
