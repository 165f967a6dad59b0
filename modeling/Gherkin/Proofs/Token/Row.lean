import Mathlib.Data.List.Basic
import Gherkin.Proofs.Token.Segment
import Gherkin.Source.Cursor
/-!
Rows of a table, item by item. A row is cut at its plain bars: the items from one bar to the next
make a token at the first of the two, and what is behind the last bar makes none.

Cells that are written with every meaningful character escaped have no bar of their own, so the row
they make is cut where they end, and each segment makes what it was written for.
-/
namespace Gherkin

namespace Cell

/-- The items of each cell of a row that a bar opens and another one closes. -/
def segments (row : List Item) : List (List Item) := (row.splitOn bar).tail.dropLast

/-- The tokens of a row ahead of a cursor: what each of its cells makes, at the bar that opens
it. -/
def tokens (cursor : Cursor) (row : List Item) : List Token :=
  List.zipWith (fun offset segment => ⟨(cursor.advanceBy offset).position, kindOf segment⟩)
    (Item.offsets (· == bar) row) (segments row)

/-- A row ends in a cell that is left open, and each cell before that is closed by a bar. -/
@[elab_as_elim]
theorem row_induction {motive : List Item → Prop}
    (opened : ∀ segment, bar ∉ segment → motive segment)
    (closed : ∀ segment later, bar ∉ segment → motive later → motive (segment ++ bar :: later))
    (row : List Item) : motive row := by
  by_cases barred : bar ∈ row
  · obtain ⟨segment, later, whole, free⟩ := List.eq_append_cons_of_mem barred
    rw [whole]
    exact closed segment later free (row_induction opened closed later)
  · exact opened row barred
termination_by row.length
decreasing_by simp only [whole, List.length_append, List.length_cons]; omega

variable {segment later : List Item}

theorem segments_opened (free : bar ∉ segment) : segments (bar :: segment) = [] := by
  have whole : (bar :: segment).splitOn bar = [[], segment] := by
    rw [← List.nil_append (bar :: segment), List.splitOn_append_cons_self_of_not_mem (by simp),
      List.splitOn_eq_singleton free]
  rw [segments, whole]
  rfl

theorem segments_closed (free : bar ∉ segment) (later : List Item) :
    segments (bar :: (segment ++ bar :: later)) = segment :: segments (bar :: later) := by
  have whole (items : List Item) : (bar :: items).splitOn bar = [] :: items.splitOn bar := by
    rw [← List.nil_append (bar :: items), List.splitOn_append_cons_self_of_not_mem (by simp)]
  rw [segments, whole, List.splitOn_append_cons_self_of_not_mem free, segments, whole,
    List.tail_cons, List.tail_cons, List.dropLast_cons_of_ne_nil (List.splitOn_ne_nil _ _)]

theorem offsets_opened (free : bar ∉ segment) :
    Item.offsets (· == bar) (bar :: segment) = [0] := by
  have none : Item.offsets (· == bar) segment = [] := Item.offsets_eq_nil fun item member => by
    rw [beq_eq_false_iff_ne]
    rintro rfl
    exact free member
  simp [Item.offsets, none]

theorem offsets_closed (free : bar ∉ segment) (later : List Item) :
    Item.offsets (· == bar) (bar :: (segment ++ bar :: later)) =
      0 :: (Item.offsets (· == bar) (bar :: later)).map (1 + (Item.text segment).length + ·) := by
  have first : bar :: (segment ++ bar :: later) = (bar :: segment) ++ (bar :: later) := rfl
  rw [first, Item.offsets_append, offsets_opened free]
  simp [Item.written, bar, Nat.add_comm]

theorem tokens_opened (cursor : Cursor) (free : bar ∉ segment) :
    tokens cursor (bar :: segment) = [] := by
  rw [tokens, segments_opened free, List.zipWith_nil_right]

theorem tokens_closed (cursor : Cursor) (free : bar ∉ segment) (later : List Item) :
    tokens cursor (bar :: (segment ++ bar :: later)) =
      ⟨cursor.position, kindOf segment⟩ ::
        tokens (cursor.advanceBy (1 + (Item.text segment).length)) (bar :: later) := by
  rw [tokens, tokens, segments_closed free, offsets_closed free, List.zipWith_cons_cons,
    List.zipWith_map_left]
  simp only [Cursor.advance_by_add]
  rfl

-- There is a bar for every cell, so no cell is left out.
theorem tokens_kinds (cursor : Cursor) (row : List Item) :
    (tokens cursor (bar :: row)).map (·.kind) = (segments (bar :: row)).map kindOf := by
  induction row using row_induction generalizing cursor with
  | opened segment free => rw [tokens_opened cursor free, segments_opened free]; rfl
  | closed segment later free ih =>
    rw [tokens_closed cursor free, segments_closed free, List.map_cons, List.map_cons, ih]

/-- The characters that are written in a cell with a backslash in front. -/
def marks : List Char := ['|', '\\', '<', '>']

/-- A text as it is written in a cell: a line feed by its letter, and every character that would
mean something with a backslash in front. -/
def encode (text : Text) : Text :=
  text.flatMap fun c => if c = '\n' then ['\\', 'n'] else if c ∈ marks then ['\\', c] else [c]

/-- The item that a character is written as. -/
def code (c : Char) : Item :=
  if c = '\n' then .pair 'n' else if c ∈ marks then .pair c else .single c

/-- What a cell is written for. -/
inductive Content
  | plain (text : Text)
  | header (name : Text)

namespace Content

def text : Content → Text
  | plain text | header text => text

def kind : Content → TokenKind
  | plain text => .tableCell text
  | header name => .tableHeader name

/-- A cell as it is written behind the bar that opens it, up to the bar that closes it. -/
def written : Content → Text
  | plain text => ' ' :: encode text ++ [' ', '|']
  | header name => ' ' :: '<' :: encode name ++ ['>', ' ', '|']

/-- The items of a cell between its bars. -/
def items : Content → List Item
  | plain text => [.single ' '] ++ text.map code ++ [.single ' ']
  | header name => [.single ' '] ++ (.single '<' :: name.map code ++ [.single '>']) ++ [.single ' ']

end Content

theorem code_cases (c : Char) :
    (c = '\n' ∧ code c = .pair 'n') ∨ (c ∈ marks ∧ code c = .pair c) ∨
      (c ∉ '\n' :: marks ∧ code c = .single c) := by
  by_cases feed : c = '\n'
  · exact Or.inl ⟨feed, if_pos feed⟩
  · by_cases marked : c ∈ marks
    · exact Or.inr (Or.inl ⟨marked, by rw [code, if_neg feed, if_pos marked]⟩)
    · exact Or.inr (Or.inr ⟨List.not_mem_cons_of_ne_of_not_mem feed marked,
        by rw [code, if_neg feed, if_neg marked]⟩)

theorem meaning_code (c : Char) : meaning (code c) = c := by
  have marked : ∀ c ∈ marks, meaning (.pair c) = c := by simp [marks, meaning]
  rcases code_cases c with ⟨rfl, same⟩ | ⟨member, same⟩ | ⟨_, same⟩
  · rw [same]; rfl
  · rw [same, marked c member]
  · rw [same]; rfl

theorem code_is_space (c : Char) : (code c).isSpace = Text.isSpace c := by
  have marked : ∀ c ∈ marks, Text.isSpace c = false := by
    simp [marks, Text.isSpace, Text.isBlank, Text.blankRanges]
  rcases code_cases c with ⟨rfl, same⟩ | ⟨member, same⟩ | ⟨_, same⟩
  · rw [same]; rfl
  · rw [same, marked c member]; rfl
  · rw [same]; rfl

theorem code_stands (c : Char) : (code c).Stands escapable := by
  have marked : ∀ c ∈ marks, c ∈ escapable := by simp [marks, escapable]
  rcases code_cases c with ⟨rfl, same⟩ | ⟨member, same⟩ | ⟨kept, same⟩
  · rw [same]; exact List.mem_cons_self
  · rw [same]; exact marked c member
  · rw [same]
    rintro rfl
    exact kept (by decide)

theorem code_ne_single {mark : Char} (marked : mark ∈ '\n' :: marks) (c : Char) :
    code c ≠ .single mark := by
  rcases code_cases c with ⟨_, same⟩ | ⟨_, same⟩ | ⟨kept, same⟩
  · rw [same]; exact nofun
  · rw [same]; exact nofun
  · rw [same]
    rintro ⟨⟩
    exact kept marked

theorem text_code (text : Text) : Item.text (text.map code) = encode text := by
  rw [Item.text, List.flatMap_map, encode]
  apply List.flatMap_congr
  intro c _
  by_cases feed : c = '\n'
  · rw [code, if_pos feed, if_pos feed]; rfl
  · by_cases marked : c ∈ marks <;> simp [code, feed, marked, Item.written]

theorem map_meaning_code (text : Text) : (text.map code).map meaning = text := by
  rw [List.map_map, Function.comp_def]
  simp only [meaning_code, List.map_id']

theorem code_trimmed {text : Text} (trimmed : Text.IsTrimmed Text.isSpace text) :
    Text.IsTrimmed Item.isSpace (text.map code) :=
  Text.trimmed_map trimmed fun c _ visible => (code_is_space c).trans visible

namespace Content

theorem items_all {holds : Item → Prop} (space : holds (.single ' ')) (opening : holds (.single '<'))
    (closing : holds (.single '>')) (coded : ∀ c, holds (code c)) (content : Content) :
    ∀ item ∈ content.items, holds item := by
  have written (text : Text) : ∀ item ∈ text.map code, holds item := by
    intro item member
    obtain ⟨c, _, rfl⟩ := List.mem_map.mp member
    exact coded c
  intro item member
  cases content with
  | plain text =>
    simp only [items, List.mem_append, List.mem_singleton] at member
    rcases member with (rfl | inside) | rfl
    · exact space
    · exact written text item inside
    · exact space
  | header name =>
    simp only [items, List.mem_append, List.mem_cons, List.not_mem_nil, or_false] at member
    rcases member with (rfl | (rfl | inside) | rfl) | rfl
    · exact space
    · exact opening
    · exact written name item inside
    · exact closing
    · exact space

theorem items_stand (content : Content) : ∀ item ∈ content.items, item.Stands escapable :=
  items_all nofun nofun nofun code_stands content

theorem items_unmarked {mark : Char} (marked : mark ∈ ['\n', '|']) (content : Content) :
    .single mark ∉ content.items := by
  have meant : mark ∈ '\n' :: marks := List.mem_of_mem_take (i := 2) marked
  have apart : ∀ mark ∈ ['\n', '|'], mark ≠ ' ' ∧ mark ≠ '<' ∧ mark ≠ '>' := by simp
  obtain ⟨notSpace, notOpening, notClosing⟩ := apart mark marked
  intro member
  refine @items_all (· ≠ .single mark) ?_ ?_ ?_ (code_ne_single meant) content _ member rfl
  · rintro ⟨⟩; exact notSpace rfl
  · rintro ⟨⟩; exact notOpening rfl
  · rintro ⟨⟩; exact notClosing rfl

theorem space_is_space : ∀ item ∈ [Item.single ' '], item.isSpace = true :=
  List.forall_mem_singleton.mpr rfl

-- A bracket that is meant as text is written with a backslash, so it opens no header.
theorem kind_of_plain {text : Text} (trimmed : Text.IsTrimmed Text.isSpace text) :
    kindOf (items (.plain text)) = .tableCell text := by
  have blank : ∀ c ∈ [' '], Text.isSpace c = true := List.forall_mem_singleton.mpr rfl
  have shown := Text.trim_between space_is_space space_is_space (code_trimmed trimmed)
  have unopened : (text.map code).head? ≠ some (.single '<') := by
    intro head
    obtain ⟨c, _, same⟩ := List.mem_map.mp (List.mem_of_head? head)
    exact code_ne_single (by decide) c same
  have meant : (items (.plain text)).map meaning = [' '] ++ text ++ [' '] := by
    rw [items, List.map_append, List.map_append, map_meaning_code]
    rfl
  rw [kindOf, meant, items, shown, if_neg fun both => unopened both.1,
    Text.trim_between blank blank trimmed]

theorem kind_of_header {name : Text} (trimmed : Text.IsTrimmed Text.isSpace name) :
    kindOf (items (.header name)) = .tableHeader name := by
  have fenced : Text.IsTrimmed Item.isSpace (.single '<' :: name.map code ++ [.single '>']) := by
    constructor
    · rintro item ⟨⟩
      rfl
    · intro item last
      rw [List.getLast?_concat] at last
      cases last
      rfl
  have shown := Text.trim_between space_is_space space_is_space fenced
  rw [kindOf, items, shown, if_pos ⟨rfl, List.getLast?_concat⟩]
  simp only [List.cons_append, List.tail_cons, List.dropLast_concat]
  rw [map_meaning_code, Text.trim_of_trimmed trimmed]

theorem kind_of_items {content : Content} (trimmed : Text.IsTrimmed Text.isSpace content.text) :
    kindOf content.items = content.kind := by
  cases content with
  | plain text => exact kind_of_plain trimmed
  | header name => exact kind_of_header trimmed

theorem text_items (content : Content) :
    Item.text (content.items ++ [bar]) = content.written := by
  cases content <;> simp [items, written, text_code, Item.written, bar]

/-- The items of a row of cells behind the bar that opens it. -/
def row (contents : List Content) : List Item := contents.flatMap (·.items ++ [bar])

theorem text_row (contents : List Content) :
    Item.text (row contents) = contents.flatMap written := by
  induction contents with
  | nil => rfl
  | cons content rest ih =>
    rw [row, List.flatMap_cons, Item.text_append, text_items, List.flatMap_cons]
    exact congrArg _ ih

theorem mem_row {contents : List Content} {item : Item} (member : item ∈ row contents) :
    item = bar ∨ ∃ content ∈ contents, item ∈ content.items := by
  obtain ⟨content, inside, written⟩ := List.mem_flatMap.mp member
  rcases List.mem_append.mp written with shown | last
  · exact Or.inr ⟨content, inside, shown⟩
  · exact Or.inl (List.mem_singleton.mp last)

theorem row_stands (contents : List Content) : ∀ item ∈ row contents, item.Stands escapable := by
  intro item member
  rcases mem_row member with rfl | ⟨content, _, inside⟩
  · exact nofun
  · exact items_stand content item inside

theorem feed_not_mem_row (contents : List Content) : .single '\n' ∉ row contents := by
  intro member
  rcases mem_row member with parted | ⟨content, _, inside⟩
  · cases parted
  · exact items_unmarked (by decide) content inside

theorem segments_row (contents : List Content) :
    segments (bar :: row contents) = contents.map items := by
  induction contents with
  | nil => exact segments_opened List.not_mem_nil
  | cons content rest ih =>
    have cut : row (content :: rest) = content.items ++ bar :: row rest := by
      rw [row, List.flatMap_cons, List.append_assoc]
      rfl
    rw [cut, segments_closed (items_unmarked (by decide) content), ih, List.map_cons]

theorem row_kinds {contents : List Content}
    (trimmed : ∀ content ∈ contents, Text.IsTrimmed Text.isSpace content.text) :
    (segments (bar :: row contents)).map kindOf = contents.map kind := by
  rw [segments_row, List.map_map]
  exact List.map_congr_left fun content member => kind_of_items (trimmed content member)

end Content

end Cell

end Gherkin
