import Mathlib.Data.List.Basic
import Gherkin.Proofs.Token.Segment
/-!
Headers among the cells. What the reader notes of the brackets around a cell is enough to take them
away: the text of a header, without the spaces around it, has both of them, each written without a
backslash, so no header is left as it is for want of a bracket. A bracket that was escaped opens and
closes nothing, though it looks the same once it is decoded.
-/
namespace Gherkin.Cell

/-- The items of a cell, which end before a plain bar or a line feed. -/
def itemsOf (text : Text) : List Item := (Item.ofText escapable text).takeWhile (!ends ·)

def bracketed? (text : Text) : Option Text :=
  (['<'].isPrefixOf? text).bind (['>'].isSuffixOf? ·)

theorem bracketed_iff (text name : Text) :
    bracketed? text = some name ↔ text = '<' :: name ++ ['>'] := by
  rw [bracketed?, Option.bind_eq_some_iff]
  constructor
  · rintro ⟨inner, opened, closed⟩
    rw [List.isPrefixOf?_eq_some_iff_append_eq] at opened
    rw [List.isSuffixOf?_eq_some_iff_append_eq] at closed
    rw [← opened, ← closed]
    rfl
  · rintro rfl
    exact ⟨name ++ ['>'], List.isPrefixOf?_eq_some_iff_append_eq.mpr rfl,
      List.isSuffixOf?_eq_some_iff_append_eq.mpr rfl⟩

theorem unfenced_eq (text : Text) : unfenced text = (bracketed? text).getD text := by
  cases found : bracketed? text with
  | some name =>
    rw [(bracketed_iff text name).mp found]
    simp [unfenced]
  | none =>
    unfold unfenced
    split
    · next inner =>
      split
      · next closed =>
        obtain ⟨name, rfl⟩ := List.getLast?_eq_some_iff.mp closed
        cases found.symm.trans ((bracketed_iff _ name).mpr rfl)
      · rfl
    · rfl

theorem text_items_of (text : Text) :
    Item.text (itemsOf text) = text.take (ofText {} text).width := by
  let behind := Item.text ((Item.ofText escapable text).dropWhile (!ends ·))
  have whole : Item.text (itemsOf text) ++ behind = text := by
    rw [← Item.text_append, itemsOf, List.takeWhile_append_dropWhile, Item.text_of_text]
  have width : (ofText {} text).width = (Item.text (itemsOf text)).length :=
    congrArg Cell.width (of_text_items {} text)
  calc Item.text (itemsOf text)
      = (Item.text (itemsOf text) ++ behind).take (Item.text (itemsOf text)).length :=
        List.take_left.symm
    _ = text.take (ofText {} text).width := by rw [whole, width]

theorem shown_eq (text : Text) :
    Text.trim Text.isSpace (ofText {} text).text =
      (Text.trim Item.isSpace (itemsOf text)).map meaning := by
  have known : ∀ c, .pair c ∈ itemsOf text → c ∈ escapable := fun c member =>
    Item.escapable_of_pair_mem ((List.takeWhile_prefix _).subset member)
  rw [of_text_items]
  exact trim_meaning known

theorem fenced_iff_between (text : Text) :
    (ofText {} text).fence.isFenced = true ↔
      ∃ inner, Text.trim Item.isSpace (itemsOf text) =
        .single '<' :: inner ++ [.single '>'] := by
  rw [of_text_items]
  refine (HeaderFence.fenced_iff (itemsOf text)).trans ⟨?_, ?_⟩
  · rintro ⟨opened, closed⟩
    exact between_brackets opened closed
  · rintro ⟨inner, shown⟩
    rw [shown]
    exact ⟨rfl, List.getLast?_concat⟩

/-- A cell that counts as a header has both brackets, and neither was escaped. -/
theorem fenced_has_brackets (text : Text) :
    let cell := ofText {} text
    let shown := Text.trim Text.isSpace cell.text
    let written := Text.trim Item.isSpace (itemsOf text)
    (Item.text (itemsOf text) = text.take cell.width ∧ shown = written.map meaning) ∧
    (cell.fence.isFenced = true ↔
      ∃ inner, written = .single '<' :: inner ++ [.single '>']) ∧
    unfenced shown = (bracketed? shown).getD shown ∧
    (cell.fence.isFenced = true →
      2 ≤ shown.length ∧ ∃ name, shown = '<' :: name ++ ['>'] ∧ bracketed? shown = some name) ∧
    ∀ c, written.head? = some (.pair c) ∨ written.getLast? = some (.pair c) →
      cell.fence.isFenced = false := by
  intro cell shown written
  have meant : shown = written.map meaning := shown_eq text
  have fenced := fenced_iff_between text
  refine ⟨⟨text_items_of text, meant⟩, fenced, unfenced_eq shown, ?_, ?_⟩
  · intro header
    obtain ⟨inner, between⟩ := fenced.mp header
    have brackets : shown = '<' :: inner.map meaning ++ ['>'] := by
      rw [meant, show written = _ from between]
      simp [meaning]
    refine ⟨?_, inner.map meaning, brackets, (bracketed_iff _ _).mpr brackets⟩
    rw [brackets]
    simp
  · intro c escaped
    rw [Bool.eq_false_iff]
    intro header
    obtain ⟨inner, between⟩ := fenced.mp header
    rw [show written = _ from between] at escaped
    rcases escaped with first | last
    · cases first
    · rw [List.getLast?_concat] at last
      cases last

theorem fenced_has_brackets_escaped :
    let header := Text.ofString " <\\n\\>>\t| x"
    let plain := Text.ofString "\\<b>|"
    (ofText {} header).fence.isFenced = true ∧
      (∃ name, Text.trim Text.isSpace (ofText {} header).text = '<' :: name ++ ['>'] ∧
        bracketed? (Text.trim Text.isSpace (ofText {} header).text) = some name) ∧
      (Text.trim Item.isSpace (itemsOf plain)).head? = some (.pair '<') ∧
      (ofText {} plain).fence.isFenced = false := by
  intro header plain
  obtain ⟨-, -, -, brackets, -⟩ := fenced_has_brackets header
  obtain ⟨-, -, -, -, unfenced⟩ := fenced_has_brackets plain
  have fenced : (ofText {} header).fence.isFenced = true := by decide +kernel
  have escaped : (Text.trim Item.isSpace (itemsOf plain)).head? = some (.pair '<') := by
    decide +kernel
  exact ⟨fenced, (brackets fenced).2, escaped, unfenced '<' (Or.inl escaped)⟩

end Gherkin.Cell
