import Gherkin.Proofs.Text.Items
import Gherkin.Proofs.Text.Trimmed
import Gherkin.Proofs.Token.Width
/-!
Cells, item by item. The reader of a cell decodes its text and keeps track of the brackets around
it at once. What it comes to can be told from the items of the cell afterwards: each stands for one
character, none that is escaped counts as a space, and the brackets that make a header are the
first and the last item that is no space.
-/
namespace Gherkin

/-- Whether an item is a space. What a backslash escapes is none. -/
def Item.isSpace : Item → Bool
  | single c => Text.isSpace c
  | pair _ => false

@[simp] theorem Item.single_beq (c d : Char) : (single c == single d) = (c == d) := by
  by_cases same : c = d <;> simp [same]

namespace Cell

def escapable : List Char := ['n', '|', '\\', '<', '>']

def meaning : Item → Char
  | .single c => c
  | .pair c => if c = 'n' then '\n' else c

/-- What the items of a cell make: a header when the first and the last of them that are no spaces
are plain angle brackets, the one opening and the other closing it. -/
def kindOf (items : List Item) : TokenKind :=
  let shown := Text.trim Item.isSpace items
  if shown.head? = some (.single '<') ∧ shown.getLast? = some (.single '>') then
    .tableHeader (Text.trim Text.isSpace (shown.tail.dropLast.map meaning))
  else .tableCell (Text.trim Text.isSpace (items.map meaning))

def bar : Item := .single '|'

def ends (item : Item) : Bool := item == bar || item == .single '\n'

theorem escape_eq (c : Char) :
    escape? c = if c ∈ escapable then some (meaning (.pair c)) else none := by
  by_cases feed : c = 'n'
  · subst feed; rfl
  · simp [escape?, escapable, meaning, feed]

theorem meaning_not_space {c : Char} (escaped : c ∈ escapable) :
    Text.isSpace (meaning (.pair c)) = false := by
  simp only [escapable, List.mem_cons, List.not_mem_nil, or_false] at escaped
  rcases escaped with rfl | rfl | rfl | rfl | rfl <;> decide

end Cell

namespace HeaderFence
variable {fence : HeaderFence} {item : Item} {items : List Item}

def past (fence : HeaderFence) : Item → HeaderFence
  | .single c => fence.plain c
  | .pair _ => fence.literal

theorem past_space (space : item.isSpace = true) : fence.past item = fence := by
  cases item with
  | single c => exact if_pos space
  | pair c => cases space

theorem past_visible (visible : item.isSpace = false) :
    fence.past item =
      ⟨some (fence.opened.getD (item == .single '<')), item == .single '>'⟩ := by
  cases item with
  | single c =>
    have shown : Text.isSpace c = false := visible
    simp only [past, plain, shown, Bool.false_eq_true, ↓reduceIte, Item.single_beq]
  | pair c => rfl

theorem past_spaces (spaces : ∀ item ∈ items, item.isSpace = true) :
    items.foldl past fence = fence := by
  induction items with
  | nil => rfl
  | cons item rest ih =>
    rw [List.foldl_cons, past_space (spaces item List.mem_cons_self)]
    exact ih fun other member => spaces other (List.mem_cons_of_mem item member)

-- Whether a header is opened is settled by the first item that is no space.
theorem past_opened {opens : Bool} (settled : fence.opened = some opens) :
    (items.foldl past fence).opened = some opens := by
  induction items generalizing fence with
  | nil => exact settled
  | cons item rest ih =>
    apply ih
    cases space : item.isSpace with
    | true => rw [past_space space, settled]
    | false => rw [past_visible space, settled]; rfl

theorem fenced_iff (items : List Item) :
    (items.foldl past {}).isFenced = true ↔
      (Text.trim Item.isSpace items).head? = some (.single '<') ∧
        (Text.trim Item.isSpace items).getLast? = some (.single '>') := by
  obtain ⟨front, back, whole, before, behind⟩ := Text.trim_parts Item.isSpace items
  have trimmed := Text.trim_is_trimmed Item.isSpace items
  have same : items.foldl past {} = (Text.trim Item.isSpace items).foldl past {} := by
    conv_lhs => rw [whole, List.foldl_append, List.foldl_append, past_spaces before]
    exact past_spaces behind
  rw [same, isFenced, Bool.and_eq_true, beq_iff_eq]
  apply and_congr
  · cases shown : Text.trim Item.isSpace items with
    | nil => simp
    | cons first rest =>
      have visible := trimmed.first first (by rw [shown]; rfl)
      rw [List.foldl_cons, past_visible visible, past_opened rfl]
      simp
  · cases shown : (Text.trim Item.isSpace items).getLast? with
    | none => rw [List.getLast?_eq_none_iff.mp shown]; simp
    | some last =>
      obtain ⟨others, ended⟩ := List.getLast?_eq_some_iff.mp shown
      rw [ended, List.foldl_append, List.foldl_cons, List.foldl_nil,
        past_visible (trimmed.last last shown)]
      simp

end HeaderFence

namespace Cell
variable {text : Text} {items : List Item}

/-- A cell's text as it is read, told from its items. -/
theorem of_text_items (fence : HeaderFence) (text : Text) :
    let items := (Item.ofText escapable text).takeWhile (!ends ·)
    ofText fence text =
      ⟨(Item.text items).length, items.map meaning, items.foldl HeaderFence.past fence⟩ := by
  fun_induction ofText fence text with
  | case1 => rfl
  | case2 fence c rest decoded escaped ih =>
    have known : c ∈ escapable ∧ meaning (.pair c) = decoded := by
      simpa [escape_eq] using escaped
    have inside : ends (.pair c) = false := by simp [ends, bar]
    rw [Item.of_text_pair known.1, ih]
    simp [push, inside, known.2, Item.written, HeaderFence.past]
    omega
  | case3 fence c rest unknown ih =>
    have kept : c ∉ escapable := by simpa [escape_eq] using unknown
    have inside : ends (.single '\\') = false := by decide
    rw [Item.of_text_backslash kept, ih]
    simp [push, inside, meaning, Item.written, HeaderFence.past, Nat.add_comm]
  | case4 fence c rest noEscape stops =>
    rw [Item.of_text_single noEscape]
    rcases stops with rfl | rfl <;> rfl
  | case5 fence c rest noEscape goes ih =>
    have inside : ends (.single c) = false := by simpa [ends, bar, and_comm] using goes
    rw [Item.of_text_single noEscape, ih]
    simp [push, inside, meaning, Item.written, HeaderFence.past, Nat.add_comm]

theorem not_ends (free : bar ∉ items) (unbroken : .single '\n' ∉ items) :
    ∀ item ∈ items, ends item = false := by
  intro item member
  rw [ends, Bool.or_eq_false_iff, beq_eq_false_iff_ne, beq_eq_false_iff_ne]
  constructor
  · rintro rfl
    exact free member
  · rintro rfl
    exact unbroken member

-- What an item stands for is a space just when the item is one.
theorem trim_meaning (known : ∀ c, .pair c ∈ items → c ∈ escapable) :
    Text.trim Text.isSpace (items.map meaning) =
      (Text.trim Item.isSpace items).map meaning := by
  obtain ⟨front, back, whole, before, behind⟩ := Text.trim_parts Item.isSpace items
  have trimmed := Text.trim_is_trimmed Item.isSpace items
  have space {item : Item} (space : item.isSpace = true) :
      Text.isSpace (meaning item) = true := by
    cases item with
    | single c => exact space
    | pair c => cases space
  have visible {item : Item} (member : item ∈ items) (visible : item.isSpace = false) :
      Text.isSpace (meaning item) = false := by
    cases item with
    | single c => exact visible
    | pair c => exact meaning_not_space (known c member)
  conv_lhs => rw [whole, List.map_append, List.map_append]
  apply Text.trim_between
  · rintro _ member
    obtain ⟨item, inside, rfl⟩ := List.mem_map.mp member
    exact space (before item inside)
  · rintro _ member
    obtain ⟨item, inside, rfl⟩ := List.mem_map.mp member
    exact space (behind item inside)
  · exact Text.trimmed_map trimmed fun item inside => visible (Text.mem_of_mem_trim inside)

-- A bracket cannot be the first item and the last one at once, for it opens or it closes.
theorem between_brackets (opened : items.head? = some (.single '<'))
    (closed : items.getLast? = some (.single '>')) :
    ∃ inner, items = .single '<' :: inner ++ [.single '>'] := by
  obtain ⟨others, rfl⟩ := List.getLast?_eq_some_iff.mp closed
  cases others with
  | nil => cases opened
  | cons first inner =>
    cases opened
    exact ⟨inner, rfl⟩

theorem unfenced_meaning (opened : items.head? = some (.single '<'))
    (closed : items.getLast? = some (.single '>')) :
    unfenced (items.map meaning) = items.tail.dropLast.map meaning := by
  obtain ⟨inner, rfl⟩ := between_brackets opened closed
  simp [unfenced, meaning]

theorem kind_of_text (known : ∀ c, .pair c ∈ items → c ∈ escapable) :
    (let text := Text.trim Text.isSpace (items.map meaning)
     if (items.foldl HeaderFence.past {}).isFenced then
       TokenKind.tableHeader (Text.trim Text.isSpace (unfenced text))
     else .tableCell text) = kindOf items := by
  have fenced := HeaderFence.fenced_iff items
  dsimp only
  unfold kindOf
  by_cases header : (items.foldl HeaderFence.past {}).isFenced = true
  · obtain ⟨opened, closed⟩ := fenced.mp header
    rw [if_pos header, if_pos ⟨opened, closed⟩, trim_meaning known,
      unfenced_meaning opened closed]
  · rw [if_neg header, if_neg (fun both => header (fenced.mpr both))]

end Cell

namespace Lexeme
variable {rest : Text} {segment behind later : List Item}

-- A cell goes on to the first item that ends one, and the bar in front of it makes a token of it
-- only if that item is a bar too.
theorem cell_of_items (state : LineState)
    (cut : Item.ofText Cell.escapable rest = segment ++ behind)
    (inside : ∀ item ∈ segment, Cell.ends item = false)
    (stopped : ∀ item, behind.head? = some item → Cell.ends item = true) :
    cell state rest =
      ⟨if behind.head? = some Cell.bar then .token (Cell.kindOf segment) else .trivia,
        1 + (Item.text segment).length, state.opened⟩ := by
  have front : (Item.ofText Cell.escapable rest).takeWhile (!Cell.ends ·) = segment := by
    rw [cut, List.takeWhile_append_of_pos fun item member => by rw [inside item member]; rfl]
    cases behind with
    | nil => simp
    | cons item others => simp [stopped item rfl]
  have known : ∀ c, .pair c ∈ segment → c ∈ Cell.escapable := by
    intro c member
    have whole : .pair c ∈ Item.ofText Cell.escapable rest := by
      rw [cut]
      exact List.mem_append_left behind member
    exact Item.escapable_of_pair_mem whole
  have whole : rest = Item.text segment ++ Item.text behind := by
    rw [← Item.text_append, ← cut, Item.text_of_text]
  have closed : (Item.text behind).head? = some '|' ↔ behind.head? = some Cell.bar := by
    cases behind with
    | nil => simp
    | cons item others => cases item <;> simp [Item.written, Cell.bar]
  have next : rest.drop (Item.text segment).length = Item.text behind := by
    conv_lhs => rw [whole, List.drop_left]
  unfold cell
  rw [Cell.of_text_items, front]
  dsimp only
  rw [next, Cell.kind_of_text known]
  simp only [beq_iff_eq, closed]

theorem cell_closed (state : LineState)
    (cut : Item.ofText Cell.escapable rest = segment ++ Cell.bar :: later)
    (free : Cell.bar ∉ segment) (unbroken : .single '\n' ∉ segment) :
    cell state rest =
      ⟨.token (Cell.kindOf segment), 1 + (Item.text segment).length, state.opened⟩ := by
  rw [cell_of_items state cut (Cell.not_ends free unbroken)]
  · rfl
  · rintro item ⟨⟩
    rfl

theorem cell_opened (state : LineState)
    (cut : Item.ofText Cell.escapable rest = segment ++ behind)
    (free : Cell.bar ∉ segment) (unbroken : .single '\n' ∉ segment)
    (ended : ∀ item, behind.head? = some item → item = .single '\n') :
    cell state rest = ⟨.trivia, 1 + (Item.text segment).length, state.opened⟩ := by
  have unclosed : behind.head? ≠ some Cell.bar := fun head => by cases ended _ head
  rw [cell_of_items state cut (Cell.not_ends free unbroken), if_neg unclosed]
  intro item head
  rw [ended item head]
  rfl

end Lexeme
end Gherkin
