import Mathlib.Order.Bounds.Basic
import Gherkin.Proofs.Token.Payload
/-!
What the layout of a doc string keeps. All that goes is layout: spaces in front of a line, no more
than the first content line has, blanks around the content type, and blank lines at the end. The
characters that are not blank stay as they are and where they are, and a content that has been laid
out stays the same when it is laid out again.
-/
namespace Gherkin

namespace Text
variable {text : Text} {content : List Text}

/-- The characters of a text that are not blank. -/
def visible (text : Text) : Text := text.filter (!isBlank ·)

theorem visible_append (front back : Text) :
    visible (front ++ back) = visible front ++ visible back := List.filter_append ..

theorem visible_of_blank (blank : ∀ c ∈ text, isBlank c = true) : visible text = [] :=
  List.filter_eq_nil_iff.mpr fun c member => by simp [blank c member]

theorem visible_trim (text : Text) : visible (trim isBlank text) = visible text := by
  obtain ⟨front, back, whole, before, behind⟩ := trim_parts isBlank text
  conv_rhs => rw [whole]
  rw [visible_append, visible_append, visible_of_blank before, visible_of_blank behind,
    List.nil_append, List.append_nil]

theorem visible_unlines (content : List Text) :
    visible (unlines content) = content.flatMap visible := by
  induction content with
  | nil => rfl
  | cons first rest ih =>
    cases rest with
    | nil => simp [unlines]
    | cons second others =>
      rw [unlines_cons_cons, visible_append, List.flatMap_cons, ← ih]
      rfl

-- Blank lines show nothing, so none of what is shown goes with those at the end.
theorem visible_trim_end (content : List Text) :
    (trimEnd isBlankText content).flatMap visible = content.flatMap visible := by
  obtain ⟨back, whole, behind⟩ := trim_end_parts isBlankText content
  have hidden : back.flatMap visible = [] := by
    rw [List.flatMap_eq_nil_iff]
    intro line member
    exact visible_of_blank (List.all_eq_true.mp (behind line member))
  conv_rhs => rw [whole]
  rw [List.flatMap_append, hidden, List.append_nil]

/-- Trimming at the end leaves the items up to the last one that is wanted. -/
theorem trim_end_last_place {α : Type} (unwanted : α → Bool) (items : List α) :
    (∃ last,
      IsGreatest {place | ∃ item, items[place]? = some item ∧ unwanted item = false} last ∧
      trimEnd unwanted items = items.take (last + 1)) ∨
    ((∀ item ∈ items, unwanted item = true) ∧ trimEnd unwanted items = []) := by
  obtain ⟨back, whole, behind⟩ := trim_end_parts unwanted items
  cases ends : (trimEnd unwanted items).getLast? with
  | none =>
    have none := List.getLast?_eq_none_iff.mp ends
    rw [none, List.nil_append] at whole
    exact Or.inr ⟨whole ▸ behind, none⟩
  | some item =>
    have wanted := trim_end_last ends
    have initial := List.prefix_iff_eq_take.mp (trim_end_initial unwanted items)
    generalize trimEnd unwanted items = front at whole ends initial ⊢
    have pos : 0 < front.length := List.length_pos_of_mem (List.mem_of_getLast? ends)
    refine Or.inl ⟨front.length - 1, ⟨⟨item, ?_, wanted⟩, ?_⟩, ?_⟩
    · rw [whole, List.getElem?_append_left (Nat.sub_one_lt_of_lt pos),
        ← List.getLast?_eq_getElem?, ends]
    · rintro place ⟨other, found, shown⟩
      by_contra beyond
      rw [whole, List.getElem?_append_right (by omega)] at found
      exact Bool.noConfusion ((behind other (List.mem_of_getElem? found)).symm.trans shown)
    · rwa [Nat.sub_one_add_one (Nat.ne_of_gt pos)]

end Text

namespace DocString
variable {content more : List Text}

/-- How many spaces the first line behind that of the fence begins with, if it is not blank. -/
def depth (lines : List Text) : Nat :=
  match lines[1]? with
  | some line => if Text.isBlankText line then 0 else (line.takeWhile Text.isSpace).length
  | none => 0

theorem indentation_tail (lines : List Text) : indentation lines.tail = depth lines := by
  cases lines with
  | nil => rfl
  | cons first others => cases others <;> rfl

theorem unindent_zero (line : Text) : unindent 0 line = line := by
  rw [unindent, Nat.zero_min, List.drop_zero]

theorem unindent_parts (indentation : Nat) (line : Text) :
    ∃ front, line = front ++ unindent indentation line ∧ ∀ c ∈ front, Text.isSpace c = true := by
  refine ⟨_, (List.take_append_drop _ line).symm, fun c member => ?_⟩
  rw [← List.take_take, Text.take_run] at member
  exact List.mem_takeWhile_imp (List.mem_of_mem_take member)

theorem visible_unindent (indentation : Nat) (line : Text) :
    Text.visible (unindent indentation line) = Text.visible line := by
  obtain ⟨front, whole, spaces⟩ := unindent_parts indentation line
  have hidden : Text.visible front = [] :=
    Text.visible_of_blank fun c member => Text.is_blank_of_is_space (spaces c member)
  conv_rhs => rw [whole, Text.visible_append, hidden, List.nil_append]

theorem blank_unindent (indentation : Nat) (line : Text) :
    Text.isBlankText (unindent indentation line) = Text.isBlankText line := by
  obtain ⟨front, whole, spaces⟩ := unindent_parts indentation line
  have blank : front.all Text.isBlank = true :=
    List.all_eq_true.mpr fun c member => Text.is_blank_of_is_space (spaces c member)
  conv_rhs => rw [whole, Text.isBlankText, List.all_append, blank, Bool.true_and]
  rfl

-- Of a line that is not blank all leading spaces go, and a blank line sets no indentation.
theorem indentation_unindented (content : List Text) :
    indentation (content.map (unindent (indentation content))) = 0 := by
  cases content with
  | nil => rfl
  | cons first others =>
    rw [List.map_cons, indentation, blank_unindent]
    split
    · rfl
    · next shown =>
      have stopped := List.head?_dropWhile_not Text.isSpace first
      rw [indentation, if_neg shown, unindent, Nat.min_self, Text.drop_run]
      cases behind : first.dropWhile Text.isSpace with
      | nil => rfl
      | cons c rest =>
        rw [behind] at stopped
        simp [show Text.isSpace c = false from stopped]

theorem indentation_initial (initial : content <+: more) (some : content ≠ []) :
    indentation content = indentation more := by
  obtain ⟨back, rfl⟩ := initial
  cases content with
  | nil => exact absurd rfl some
  | cons first others => rfl

/-- The content lines of a decoded body that are kept, without their indentation. -/
def contentOf (decoded : Text) : List Text :=
  let lines := Text.lines decoded
  (Text.trimEnd Text.isBlankText lines).tail.map (unindent (depth lines))

theorem content_of_eq (decoded : Text) :
    contentOf decoded = Text.trimEnd Text.isBlankText
      ((Text.lines decoded).tail.map (unindent (indentation (Text.lines decoded).tail))) := by
  rw [contentOf, Text.trim_end_map (blank_unindent _), Text.trim_end_tail, indentation_tail]

theorem layout_literal (raw decoded : Text) :
    (layout raw decoded).literal = Text.unlines (contentOf decoded) := by
  rw [content_of_eq]
  rfl

theorem feed_not_mem_content (decoded : Text) : ∀ line ∈ contentOf decoded, '\n' ∉ line := by
  intro line member feed
  obtain ⟨whole, inside, rfl⟩ := List.mem_map.mp member
  have listed := (Text.trim_end_initial _ _).subset (List.mem_of_mem_tail inside)
  exact Text.feed_not_mem_line listed ((unindent_suffix _ whole).subset feed)

theorem content_indentation (decoded : Text) : indentation (contentOf decoded) = 0 := by
  cases empty : contentOf decoded with
  | nil => rfl
  | cons first others =>
    have initial : contentOf decoded <+: _ :=
      content_of_eq decoded ▸ Text.trim_end_initial Text.isBlankText _
    rw [← empty, indentation_initial initial (by simp [empty]), indentation_unindented]

theorem content_again (decoded : Text) :
    contentOf ('\n' :: Text.unlines (contentOf decoded)) = contentOf decoded := by
  have cut : Text.lines ('\n' :: Text.unlines (contentOf decoded)) =
      [] :: Text.lines (Text.unlines (contentOf decoded)) :=
    Text.lines_behind_line List.not_mem_nil _
  rw [content_of_eq, cut, List.tail_cons]
  by_cases some : contentOf decoded = []
  · rw [some]
    rfl
  · rw [Text.lines_unlines some (feed_not_mem_content decoded), content_indentation,
      funext unindent_zero, List.map_id']
    apply Text.trim_end_of_last
    intro line last
    rw [content_of_eq] at last
    exact Text.trim_end_last last

theorem visible_content (decoded : Text) :
    Text.visible (Text.unlines (contentOf decoded)) =
      (Text.lines decoded).tail.flatMap Text.visible := by
  rw [Text.visible_unlines, content_of_eq, Text.visible_trim_end, List.flatMap_map]
  exact congrArg (List.flatMap · _) (funext (visible_unindent _))

/-- A decoded body is laid out line by line. The first line is the content type, and the lines
behind it up to the last one that is not blank are the content, each without its leading spaces as
far as the first of them has some; no content is left when only the first line is not blank. Nothing
else is lost, so there is nothing that could be taken off once more. -/
theorem layout_keeps (raw decoded : Text) :
    let lines := Text.lines decoded
    let first := lines.headD []
    let laid := layout raw decoded
    laid.raw = raw ∧
    laid.contentType =
      (if Text.isBlankText first then none else some (Text.trim Text.isBlank first)) ∧
    ((∃ last,
      IsGreatest {place | ∃ line, lines[place]? = some line ∧ Text.isBlankText line = false} last ∧
      laid.literal = Text.unlines (((lines.take (last + 1)).drop 1).map fun line =>
        line.drop (min (depth lines) (line.takeWhile Text.isSpace).length))) ∨
      (∀ line ∈ lines, Text.isBlankText line = true) ∧ laid.literal = []) ∧
    Text.visible (laid.contentType.getD [] ++ laid.literal) = Text.visible decoded ∧
    ∀ again, (layout again ('\n' :: laid.literal)).literal = laid.literal := by
  intro lines first laid
  have literal : laid.literal = Text.unlines (contentOf decoded) := layout_literal raw decoded
  have type : laid.contentType =
      (if Text.isBlankText first then none else some (Text.trim Text.isBlank first)) :=
    if_congr Text.trim_eq_nil_iff rfl rfl
  refine ⟨rfl, type, ?_, ?_, ?_⟩
  · rw [literal, contentOf]
    rcases Text.trim_end_last_place Text.isBlankText lines with ⟨last, greatest, cut⟩ | ⟨all, cut⟩
    · refine Or.inl ⟨last, greatest, ?_⟩
      rw [cut, ← List.drop_one]
      rfl
    · refine Or.inr ⟨all, ?_⟩
      rw [cut]
      rfl
  · have named : Text.visible (laid.contentType.getD []) = Text.visible first := by
      rw [type]
      split
      · next blank => exact (Text.visible_of_blank (List.all_eq_true.mp blank)).symm
      · exact Text.visible_trim first
    obtain ⟨line, others, cut⟩ : ∃ line others, lines = line :: others :=
      List.exists_cons_of_ne_nil (Text.split_on_ne_nil _ decoded)
    calc Text.visible (laid.contentType.getD [] ++ laid.literal)
        = Text.visible first ++ lines.tail.flatMap Text.visible := by
          rw [Text.visible_append, named, literal, visible_content]
      _ = lines.flatMap Text.visible := by
          rw [show first = lines.headD [] from rfl, cut]
          rfl
      _ = Text.visible decoded := by rw [← Text.visible_unlines, Text.unlines_lines]
  · intro again
    rw [layout_literal, literal, content_again]

end DocString
end Gherkin
