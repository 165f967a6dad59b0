import Gherkin.Text.Basic
/-!
Texts in which a backslash escapes some characters, as the list of their items: a backslash with a
character that it escapes is one item, and so is every other character. Either part of such a list
is the list of its own text again, since no backslash is left to escape what begins the second.

A text with a backslash written before each of these characters has an item for every character,
and hence can be told from what is written.
-/
namespace Gherkin

inductive Item
  | single (c : Char)
  /-- A backslash and the character that it escapes. -/
  | pair (c : Char)
  deriving DecidableEq

namespace Item

/-- The items of a text in which a backslash escapes these characters. -/
def ofText (escapable : List Char) : Text → List Item
  | [] => []
  | '\\' :: c :: rest =>
    if c ∈ escapable then pair c :: ofText escapable rest
    else single '\\' :: ofText escapable (c :: rest)
  | c :: rest => single c :: ofText escapable rest

def written : Item → Text
  | single c => [c]
  | pair c => ['\\', c]

def text (items : List Item) : Text := items.flatMap written

/-- The character that an item stands for where a backslash only hides meaning. -/
def char : Item → Char
  | single c | pair c => c

def isSingle : Item → Bool
  | single _ => true
  | pair _ => false

/-- Where items of one kind begin in the text that a list of items is written as. -/
def offsets (kind : Item → Bool) : List Item → List Nat
  | [] => []
  | item :: rest =>
    let behind := (offsets kind rest).map (item.written.length + ·)
    if kind item then 0 :: behind else behind

variable {escapable : List Char} {item : Item} {items front back : List Item}

theorem written_length_pos (item : Item) : 0 < item.written.length := by
  cases item <;> exact Nat.zero_lt_succ _

@[simp] theorem text_nil : text [] = [] := rfl

@[simp] theorem text_cons (item : Item) (rest : List Item) :
    text (item :: rest) = item.written ++ text rest := rfl

@[simp] theorem text_append (front back : List Item) :
    text (front ++ back) = text front ++ text back := List.flatMap_append

theorem of_text_pair {c : Char} (escaped : c ∈ escapable) (rest : Text) :
    ofText escapable ('\\' :: c :: rest) = pair c :: ofText escapable rest := by
  simp only [ofText, escaped, ↓reduceIte]

theorem of_text_backslash {c : Char} (kept : c ∉ escapable) (rest : Text) :
    ofText escapable ('\\' :: c :: rest) = single '\\' :: ofText escapable (c :: rest) := by
  simp only [ofText, kept, ↓reduceIte]

-- A character is an item of its own unless it is a backslash that something follows.
theorem of_text_single {c : Char} {rest : Text}
    (noEscape : ∀ d tail, c = '\\' → rest = d :: tail → False) :
    ofText escapable (c :: rest) = single c :: ofText escapable rest := by
  rw [ofText]
  exact noEscape

theorem of_text_plain {c : Char} (plain : c ≠ '\\') (rest : Text) :
    ofText escapable (c :: rest) = single c :: ofText escapable rest :=
  of_text_single fun _ _ same _ => plain same

theorem text_of_text (escapable : List Char) (whole : Text) :
    text (ofText escapable whole) = whole := by
  fun_induction ofText escapable whole with
  | case1 => rfl
  | case2 c rest escaped ih => rw [text_cons, ih]; rfl
  | case3 c rest kept ih => rw [text_cons, ih]; rfl
  | case4 c rest noEscape ih => rw [text_cons, ih]; rfl

theorem whole_of_cut {whole rest : Text}
    (cut : ofText escapable whole = item :: ofText escapable rest) :
    whole = item.written ++ rest := by
  rw [← text_of_text escapable whole, cut, text_cons, text_of_text]

theorem escapable_of_pair_mem {whole : Text} {c : Char} (member : pair c ∈ ofText escapable whole) :
    c ∈ escapable := by
  fun_induction ofText escapable whole with
  | case1 => cases member
  | case2 d rest escaped ih =>
    rcases List.mem_cons.mp member with same | later
    · cases same; exact escaped
    · exact ih later
  | case3 d rest kept ih => exact ih (List.mem_of_ne_of_mem (by simp) member)
  | case4 d rest noEscape ih => exact ih (List.mem_of_ne_of_mem (by simp) member)

-- A list of items that is cut in two: each part has the items that its own text has.

theorem of_text_tail {whole : Text} (cut : ofText escapable whole = item :: items) :
    ofText escapable (text items) = items := by
  fun_induction ofText escapable whole with
  | case1 => cases cut
  | case2 | case3 | case4 => cases cut; rw [text_of_text]

theorem of_text_back {whole : Text} (cut : ofText escapable whole = front ++ back) :
    ofText escapable (text back) = back := by
  induction front generalizing whole with
  | nil => rw [← show _ = back from cut, text_of_text]
  | cons item rest ih => exact ih (of_text_tail cut)

-- A backslash is an item of its own only before a character that it does not escape.
theorem not_escapable_of_single {whole : Text} {c : Char} {rest : Text}
    (cut : ofText escapable whole = single '\\' :: items) (next : text items = c :: rest) :
    c ∉ escapable := by
  have behind : whole = '\\' :: c :: rest := by
    rw [← text_of_text escapable whole, cut, text_cons, next]
    rfl
  intro escaped
  rw [behind, of_text_pair escaped] at cut
  cases cut

theorem of_text_front {whole : Text} (cut : ofText escapable whole = front ++ back) :
    ofText escapable (text front) = front := by
  induction front generalizing whole with
  | nil => rfl
  | cons item rest ih =>
    have later : ofText escapable (text rest) = rest := ih (of_text_tail cut)
    cases item with
    | pair c =>
      have first : pair c ∈ ofText escapable whole := by
        rw [cut]
        exact List.mem_cons_self
      have escaped : c ∈ escapable := escapable_of_pair_mem first
      exact (of_text_pair escaped _).trans (congrArg _ later)
    | single c =>
      by_cases same : c = '\\'
      · subst same
        cases next : text rest with
        | nil => rw [next] at later; rw [← later]; rfl
        | cons d tail =>
          have behind : text (rest ++ back) = d :: (tail ++ text back) := by
            rw [text_append, next]
            rfl
          have kept : d ∉ escapable := not_escapable_of_single cut behind
          rw [text_cons, next]
          exact (of_text_backslash kept _).trans (congrArg _ (next ▸ later))
      · exact (of_text_plain same _).trans (congrArg _ later)

-- No backslash escapes a line feed that is none of the characters it escapes.
theorem of_text_append_feed (kept : '\n' ∉ escapable) (line more : Text) :
    ofText escapable (line ++ '\n' :: more) =
      ofText escapable line ++ single '\n' :: ofText escapable more := by
  fun_induction ofText escapable line with
  | case1 => exact of_text_plain (by decide) more
  | case2 c rest escaped ih =>
    rw [List.cons_append, List.cons_append, of_text_pair escaped, ih]
    rfl
  | case3 c rest plain ih =>
    rw [List.cons_append, List.cons_append, of_text_backslash plain, ← List.cons_append, ih]
    rfl
  | case4 c rest noEscape ih =>
    rw [List.cons_append, List.cons_append, ← ih]
    by_cases same : c = '\\'
    · subst same
      cases rest with
      | nil => exact of_text_backslash kept more
      | cons d tail => exact (noEscape d tail rfl rfl).elim
    · exact of_text_plain same _

theorem of_text_rest_of_line (kept : '\n' ∉ escapable) (whole : Text) :
    ∃ behind, ofText escapable whole = ofText escapable (Text.restOfLine whole) ++ behind ∧
      ∀ item, behind.head? = some item → item = single '\n' := by
  have parted : Text.restOfLine whole ++ whole.dropWhile (· != '\n') = whole :=
    List.takeWhile_append_dropWhile
  have stopped := List.head?_dropWhile_not (· != '\n') whole
  cases next : whole.dropWhile (· != '\n') with
  | nil =>
    refine ⟨[], ?_, fun _ none => by cases none⟩
    rw [next, List.append_nil] at parted
    rw [parted, List.append_nil]
  | cons c more =>
    obtain rfl : c = '\n' := by simpa [next] using stopped
    refine ⟨single '\n' :: ofText escapable more, ?_, fun _ head => by cases head; rfl⟩
    rw [next] at parted
    calc ofText escapable whole
        = ofText escapable (Text.restOfLine whole ++ '\n' :: more) := by rw [parted]
      _ = _ := of_text_append_feed kept _ more

theorem mem_of_single_mem {whole : Text} {c : Char}
    (member : single c ∈ ofText escapable whole) : c ∈ whole := by
  rw [← text_of_text escapable whole, text, List.mem_flatMap]
  exact ⟨single c, member, List.mem_singleton_self c⟩

/-- Whether an item is read as one whatever stands behind it. -/
def Stands (escapable : List Char) : Item → Prop
  | single c => c ≠ '\\'
  | pair c => c ∈ escapable

theorem of_text_append (standing : ∀ item ∈ items, item.Stands escapable) (more : Text) :
    ofText escapable (text items ++ more) = items ++ ofText escapable more := by
  induction items with
  | nil => rfl
  | cons item rest ih =>
    have later := ih fun other member => standing other (List.mem_cons_of_mem item member)
    have first := standing item List.mem_cons_self
    cases item with
    | single c => exact (of_text_plain first _).trans (congrArg _ later)
    | pair c => exact (of_text_pair first _).trans (congrArg _ later)

theorem offsets_eq_nil {kind : Item → Bool} (none : ∀ item ∈ items, kind item = false) :
    offsets kind items = [] := by
  induction items with
  | nil => rfl
  | cons item rest ih =>
    have later := ih fun other member => none other (List.mem_cons_of_mem item member)
    simp [offsets, none item List.mem_cons_self, later]

theorem offsets_append (kind : Item → Bool) (front back : List Item) :
    offsets kind (front ++ back) =
      offsets kind front ++ (offsets kind back).map ((text front).length + ·) := by
  induction front with
  | nil => simp [offsets]
  | cons item rest ih =>
    have moved : ((offsets kind back).map ((text rest).length + ·)).map (item.written.length + ·) =
        (offsets kind back).map ((text (item :: rest)).length + ·) := by
      simp [Function.comp_def, Nat.add_assoc]
    rw [List.cons_append, offsets, offsets, ih, List.map_append, moved]
    split <;> rfl

end Item
end Gherkin
