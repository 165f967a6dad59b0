import Mathlib.Order.Bounds.Defs
import Gherkin.Proofs.Text.Items
import Gherkin.Proofs.Token.Feeds
/-!
Bodies of doc strings, item by item. The reader of a body looks for the closing fence at every
character and decodes on the way. What it comes to can be told from the items of the text: the body
ends at the first place where an item of a single character begins the closing fence, and what it
means is the character of each of its items.
-/
namespace Gherkin

namespace Text

/-- Whether a text begins with a fence that no further quote or backtick goes on. -/
def ShowsFence (fence text : Text) : Prop :=
  fence <+: text ∧ (text.drop fence.length).head?.any isFenceMark = false

instance (fence text : Text) : Decidable (ShowsFence fence text) :=
  inferInstanceAs (Decidable (_ ∧ _))

theorem unmarked_behind_run (text : Text) :
    (text.dropWhile isFenceMark).head?.any isFenceMark = false := by
  have stopped := List.head?_dropWhile_not isFenceMark text
  cases behind : (text.dropWhile isFenceMark).head? with
  | none => rfl
  | some c => simpa [behind] using stopped

theorem shows_fence_iff {fence : Text} (marks : ∀ c ∈ fence, isFenceMark c = true) (text : Text) :
    ShowsFence fence text ↔ fenceRun text = fence := by
  constructor
  · rintro ⟨⟨behind, rfl⟩, stopped⟩
    rw [List.drop_left] at stopped
    rw [fenceRun, List.takeWhile_append_of_pos marks, List.append_right_eq_self]
    cases behind with
    | nil => rfl
    | cons c rest => exact List.takeWhile_cons_of_neg (by simpa using stopped)
  · rintro rfl
    refine ⟨List.takeWhile_prefix _, ?_⟩
    rw [fenceRun, drop_run]
    exact unmarked_behind_run text

theorem is_fence_iff {run : Text} :
    isFence run = true ↔ run = ['"', '"', '"'] ∨ run = ['\x60', '\x60', '\x60'] := by
  simp [isFence]

theorem mark_of_is_fence {fence : Text} (fenced : isFence fence = true) :
    ∀ c ∈ fence, isFenceMark c = true := by
  rcases is_fence_iff.mp fenced with rfl | rfl <;> simp [isFenceMark]

theorem length_of_is_fence {fence : Text} (fenced : isFence fence = true) : fence.length = 3 := by
  rcases is_fence_iff.mp fenced with rfl | rfl <;> rfl

theorem fence_run_of_is_fence {fence more : Text} (fenced : isFence fence = true)
    (maximal : more.head?.any isFenceMark = false) : fenceRun (fence ++ more) = fence := by
  rw [← shows_fence_iff (mark_of_is_fence fenced), ShowsFence, List.drop_left]
  exact ⟨List.prefix_append fence more, maximal⟩

end Text

namespace DocString

def escapable : List Char := ['"', '\x60', '\\']

theorem is_escapable_iff {c : Char} : isEscapable c = true ↔ c ∈ escapable := by
  simp [isEscapable, Text.isFenceMark, escapable, or_assoc]

/-- Whether a fence closes a text at a place: an item of a single character begins it there. -/
def ClosesAt (fence text : Text) (place : Nat) : Prop :=
  place ∈ Item.offsets Item.isSingle (Item.ofText escapable text) ∧
    Text.ShowsFence fence (text.drop place)

instance (fence text : Text) : DecidablePred (ClosesAt fence text) := fun place =>
  inferInstanceAs (Decidable (place ∈ _ ∧ _))

def ofBody (raw : Text) : DocString := layout raw ((Item.ofText escapable raw).map Item.char)

variable {fence text rest : Text} {item : Item} {place : Nat}

-- A fence closes a text where it is read, or where it closes what is behind the first item.
theorem closes_at_cons (cut : Item.ofText escapable text = item :: Item.ofText escapable rest) :
    ClosesAt fence text place ↔
      (place = 0 ∧ item.isSingle = true ∧ Text.ShowsFence fence text) ∨
        ∃ later, place = item.written.length + later ∧ ClosesAt fence rest later := by
  have places : place ∈ Item.offsets Item.isSingle (Item.ofText escapable text) ↔
      (place = 0 ∧ item.isSingle = true) ∨
        ∃ later ∈ Item.offsets Item.isSingle (Item.ofText escapable rest),
          place = item.written.length + later := by
    rw [cut, Item.offsets]
    split
    · next single => simp [single, eq_comm]
    · next pair => simp [pair, eq_comm]
  have behind (later : Nat) : text.drop (item.written.length + later) = rest.drop later := by
    rw [Item.whole_of_cut cut, ← List.drop_drop, List.drop_left]
  rw [ClosesAt, places]
  constructor
  · rintro ⟨⟨rfl, single⟩ | ⟨later, member, rfl⟩, shown⟩
    · exact Or.inl ⟨rfl, single, shown⟩
    · exact Or.inr ⟨later, rfl, member, behind later ▸ shown⟩
  · rintro (⟨rfl, single, shown⟩ | ⟨later, rfl, member, shown⟩)
    · exact ⟨Or.inl ⟨rfl, single⟩, shown⟩
    · exact ⟨Or.inr ⟨later, member, rfl⟩, (behind later).symm ▸ shown⟩

theorem closes_at_first (cut : Item.ofText escapable text = item :: Item.ofText escapable rest) :
    ClosesAt fence text 0 ↔ item.isSingle = true ∧ Text.ShowsFence fence text := by
  rw [closes_at_cons cut]
  constructor
  · rintro (⟨_, closes⟩ | ⟨later, none, _⟩)
    · exact closes
    · exact absurd none.symm (Nat.ne_of_gt (Nat.add_pos_left (Item.written_length_pos item) _))
  · exact fun closes => Or.inl ⟨rfl, closes⟩

theorem closes_at_behind (cut : Item.ofText escapable text = item :: Item.ofText escapable rest)
    (goesOn : ¬ClosesAt fence text 0) :
    ClosesAt fence text place ↔
      ∃ later, place = item.written.length + later ∧ ClosesAt fence rest later := by
  rw [closes_at_first cut] at goesOn
  rw [closes_at_cons cut]
  exact or_iff_right fun first => goesOn first.2

theorem closes_at_lt (fenced : Text.isFence fence = true) (closes : ClosesAt fence text place) :
    place < text.length := by
  have shown := closes.2.1.length_le
  rw [Text.length_of_is_fence fenced, List.length_drop] at shown
  omega

namespace Body

def push (item : Item) (body : Body) : Body := ⟨item.written ++ body.raw, item.char :: body.decoded⟩

/-- A body ends with the text or where its fence closes it, and goes on over the first item else. -/
theorem of_text_induction (fenced : Text.isFence fence = true) {motive : Text → Prop}
    (ended : motive [])
    (closed : ∀ text, ClosesAt fence text 0 → ofText fence text = ⟨[], []⟩ → motive text)
    (goesOn : ∀ item text rest, Item.ofText escapable text = item :: Item.ofText escapable rest →
      ¬ClosesAt fence text 0 → ofText fence text = (ofText fence rest).push item →
      motive rest → motive text)
    (text : Text) : motive text := by
  have shown := Text.shows_fence_iff (Text.mark_of_is_fence fenced)
  fun_induction ofText fence text with
  | case1 => exact ended
  | case2 c rest escaped ih =>
    have cut := Item.of_text_pair (is_escapable_iff.mp escaped) rest
    refine goesOn (.pair c) _ rest cut ?_ ?_ ih
    · rw [closes_at_first cut]
      exact fun closes => Bool.noConfusion closes.1
    · rw [ofText, if_pos escaped]
      rfl
  | case3 c rest kept ih =>
    have cut := Item.of_text_backslash (fun member => kept (is_escapable_iff.mpr member)) rest
    refine goesOn (.single '\\') _ _ cut ?_ ?_ ih
    · rw [closes_at_first cut, shown]
      rintro ⟨_, rfl⟩
      cases fenced
    · rw [ofText, if_neg kept]
      rfl
  | case4 c rest noEscape closes =>
    obtain ⟨_, same⟩ := Bool.and_eq_true_iff.mp closes
    apply closed
    · rw [closes_at_first (Item.of_text_single noEscape), shown]
      exact ⟨rfl, beq_iff_eq.mp same⟩
    · rw [ofText, if_pos closes]
      exact noEscape
  | case5 c rest noEscape goes ih =>
    have cut : Item.ofText escapable (c :: rest) = _ := Item.of_text_single noEscape
    refine goesOn (.single c) _ rest cut ?_ ?_ ih
    · rw [closes_at_first cut, shown]
      rintro ⟨_, rfl⟩
      apply goes
      rw [beq_self_eq_true, Bool.and_true]
      exact Text.mark_of_fence_run fenced
    · rw [ofText, if_neg goes]
      · rfl
      · exact noEscape

theorem of_text_items (fenced : Text.isFence fence = true) (text : Text) :
    ∃ front back, Item.ofText escapable text = front ++ back ∧
      ofText fence text = ⟨Item.text front, front.map Item.char⟩ := by
  induction text using of_text_induction fenced with
  | ended => exact ⟨[], [], rfl, rfl⟩
  | closed text _ body => exact ⟨[], Item.ofText escapable text, rfl, body⟩
  | goesOn item text rest cut _ body ih =>
    obtain ⟨front, back, cutRest, bodyRest⟩ := ih
    refine ⟨item :: front, back, ?_, ?_⟩
    · rw [cut, cutRest]; rfl
    · rw [body, bodyRest]; rfl

theorem layout_of_text (fenced : Text.isFence fence = true) (text : Text) :
    layout (ofText fence text).raw (ofText fence text).decoded =
      ofBody (ofText fence text).raw := by
  obtain ⟨front, back, cut, body⟩ := of_text_items fenced text
  rw [body, ofBody, Item.of_text_front cut]

theorem not_closes_inside (fenced : Text.isFence fence = true)
    (inside : place < (ofText fence text).raw.length) : ¬ClosesAt fence text place := by
  induction text using of_text_induction fenced generalizing place with
  | ended => cases inside
  | closed text _ body => rw [body] at inside; cases inside
  | goesOn item text rest cut goesOn body ih =>
    rw [closes_at_behind cut goesOn]
    rintro ⟨later, rfl, closes⟩
    rw [body, push, List.length_append] at inside
    exact ih (Nat.lt_of_add_lt_add_left inside) closes

theorem closes_at_end (fenced : Text.isFence fence = true)
    (stops : (ofText fence text).raw ≠ text) :
    ClosesAt fence text (ofText fence text).raw.length := by
  induction text using of_text_induction fenced with
  | ended => exact absurd rfl stops
  | closed text closes body => rw [body]; exact closes
  | goesOn item text rest cut goesOn body ih =>
    rw [closes_at_behind cut goesOn, body, push, List.length_append]
    refine ⟨_, rfl, ih fun all => stops ?_⟩
    rw [body, push, all, Item.whole_of_cut cut]

/-- A body goes on to the first place that closes it, or else to the end of the text. -/
theorem of_text_delimited (fenced : Text.isFence fence = true) (text : Text) :
    (∃ place, IsLeast {place | ClosesAt fence text place} place ∧
      (ofText fence text).raw = text.take place) ∨
    ((∀ place, ¬ClosesAt fence text place) ∧ (ofText fence text).raw = text) := by
  by_cases all : (ofText fence text).raw = text
  · refine Or.inr ⟨fun place closes => ?_, all⟩
    have inside := closes_at_lt fenced closes
    rw [← all] at inside
    exact not_closes_inside fenced inside (all.symm ▸ closes)
  · have initial := of_text_raw_initial fence text
    refine Or.inl ⟨_, ⟨closes_at_end fenced all, fun place closes => ?_⟩,
      List.prefix_iff_eq_take.mp initial⟩
    by_contra before
    exact not_closes_inside fenced (Nat.lt_of_not_le before) closes

end Body

end DocString

namespace Lexeme
variable {text run body : Text}

theorem doc_string_of_body (state : LineState) (fenced : Text.isFence run = true)
    (opening : Text.fenceRun text = run) (behind : text.drop run.length = body) {raw : Text}
    (read : (DocString.Body.ofText run body).raw = raw) :
    docString state text =
      ⟨.token (.docString (.ofBody raw)),
        run.length + (raw.length + ((body.drop raw.length).take run.length).length),
        state.opened⟩ := by
  unfold docString
  rw [opening, if_pos fenced]
  dsimp only
  rw [behind, DocString.Body.layout_of_text fenced, ← List.drop_drop, behind, read, Nat.add_assoc]

theorem doc_string_delimited (state : LineState) (fenced : Text.isFence run = true)
    (opening : Text.fenceRun text = run) (behind : text.drop run.length = body) :
    (∃ place, IsLeast {place | DocString.ClosesAt run body place} place ∧
      docString state text =
        ⟨.token (.docString (.ofBody (body.take place))), run.length + (place + 3),
          state.opened⟩) ∨
    ((∀ place, ¬DocString.ClosesAt run body place) ∧
      docString state text =
        ⟨.token (.docString (.ofBody body)), run.length + body.length, state.opened⟩) := by
  rcases DocString.Body.of_text_delimited fenced body with ⟨place, first, raw⟩ | ⟨never, raw⟩
  · have found := doc_string_of_body state fenced opening behind raw
    have closing : (body.drop place).take run.length = run :=
      (List.prefix_iff_eq_take.mp first.1.2.1).symm
    have inside := DocString.closes_at_lt fenced first.1
    rw [List.length_take, Nat.min_eq_left (Nat.le_of_lt inside), closing,
      Text.length_of_is_fence fenced] at found
    exact Or.inl ⟨place, first, by rwa [Text.length_of_is_fence fenced]⟩
  · have found := doc_string_of_body state fenced opening behind raw
    rw [List.drop_length, List.take_nil] at found
    exact Or.inr ⟨never, found⟩

end Lexeme
end Gherkin
