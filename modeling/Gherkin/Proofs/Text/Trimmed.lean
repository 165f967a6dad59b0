import Mathlib.Data.List.Induction
import Mathlib.Tactic.MkIffOfInductiveProp
import Gherkin.Proofs.Text.Runs
/-!
Trimmed lists. Trimming takes unwanted items away at both ends and nothing else: what is left
neither begins nor ends with one, and no wanted item is lost.
-/
namespace Gherkin.Text
variable {α : Type} {unwanted : α → Bool} {items : List α} {item : α}

/-- Whether a list neither begins nor ends with an unwanted item. -/
@[mk_iff] structure IsTrimmed (unwanted : α → Bool) (items : List α) : Prop where
  first : ∀ item, items.head? = some item → unwanted item = false
  last : ∀ item, items.getLast? = some item → unwanted item = false

instance (unwanted : α → Bool) (items : List α) : Decidable (IsTrimmed unwanted items) :=
  decidable_of_iff' _ (isTrimmed_iff unwanted items)

theorem trim_end_initial (unwanted : α → Bool) (items : List α) :
    trimEnd unwanted items <+: items := by
  have dropped := List.dropWhile_suffix (l := items.reverse) unwanted
  rw [trimEnd, ← List.reverse_suffix, List.reverse_reverse]
  exact dropped

theorem trim_end_last (last : (trimEnd unwanted items).getLast? = some item) :
    unwanted item = false := by
  have stopped := List.head?_dropWhile_not unwanted items.reverse
  rw [trimEnd, List.getLast?_reverse] at last
  simpa [last] using stopped

theorem trim_is_trimmed (unwanted : α → Bool) (items : List α) :
    IsTrimmed unwanted (trim unwanted items) where
  first := by
    intro item head
    have stopped := List.head?_dropWhile_not unwanted items
    obtain ⟨rest, whole⟩ := List.head?_eq_some_iff.mp head
    have front := trim_end_initial unwanted (items.dropWhile unwanted)
    rw [← trim, whole] at front
    obtain ⟨more, same⟩ := front
    simpa [← same] using stopped
  last := fun _ => trim_end_last

theorem mem_of_mem_trim (member : item ∈ trim unwanted items) : item ∈ items :=
  (List.dropWhile_suffix unwanted).subset ((trim_end_initial unwanted _).subset member)

theorem mem_drop_while (member : item ∈ items) (wanted : unwanted item = false) :
    item ∈ items.dropWhile unwanted := by
  rw [← @List.takeWhile_append_dropWhile _ unwanted items] at member
  refine (List.mem_append.mp member).resolve_left fun inside => ?_
  exact Bool.noConfusion (wanted.symm.trans (List.mem_takeWhile_imp inside))

theorem trim_eq_nil_iff : trim unwanted items = [] ↔ items.all unwanted = true := by
  constructor
  · intro none
    rw [List.all_eq_true]
    intro item member
    by_contra wanted
    have kept := mem_drop_while member (Bool.not_eq_true _ ▸ wanted)
    exact trim_end_ne_nil kept (Bool.not_eq_true _ ▸ wanted) none
  · intro all
    rw [trim, List.dropWhile_eq_nil_iff.mpr (List.all_eq_true.mp all)]
    rfl

theorem trim_ne_nil_of_mem (member : item ∈ items) (wanted : unwanted item = false) :
    trim unwanted items ≠ [] :=
  trim_end_ne_nil (mem_drop_while member wanted) wanted

theorem drop_while_append_last {last : α} (gone : unwanted last = true) (items : List α) :
    (items ++ [last]).dropWhile unwanted =
      if items.all unwanted then [] else items.dropWhile unwanted ++ [last] := by
  induction items with
  | nil => simp [gone]
  | cons item rest ih => cases goes : unwanted item <;> simp [goes, ih]

theorem trim_end_append {back : List α} (behind : ∀ item ∈ back, unwanted item = true)
    (items : List α) : trimEnd unwanted (items ++ back) = trimEnd unwanted items := by
  have gone : ∀ item ∈ back.reverse, unwanted item = true := fun item member =>
    behind item (List.mem_reverse.mp member)
  rw [trimEnd, List.reverse_append, List.dropWhile_append_of_pos gone, trimEnd]

theorem trim_end_append_last {last : α} (gone : unwanted last = true) (items : List α) :
    trimEnd unwanted (items ++ [last]) = trimEnd unwanted items :=
  trim_end_append (by simpa using gone) items

theorem trim_append_last {last : α} (gone : unwanted last = true) (items : List α) :
    trim unwanted (items ++ [last]) = trim unwanted items := by
  rw [trim, trim, drop_while_append_last gone]
  split
  · next all => rw [List.dropWhile_eq_nil_iff.mpr (by simpa using all)]
  · exact trim_end_append_last gone _

-- Trimming at the end sees neither the first item, unless it is the only one left, nor what items
-- are changed to, as long as they stay wanted or unwanted.

theorem trim_end_tail (unwanted : α → Bool) (items : List α) :
    (trimEnd unwanted items).tail = trimEnd unwanted items.tail := by
  cases items with
  | nil => rfl
  | cons first others =>
    rw [trimEnd, trimEnd, List.reverse_cons, List.dropWhile_append, List.tail_cons]
    cases others.reverse.dropWhile unwanted with
    | nil => cases goes : unwanted first <;> simp [goes]
    | cons last rest => simp

theorem trim_end_map {β : Type} {refused : β → Bool} {f : α → β}
    (same : ∀ item, refused (f item) = unwanted item) (items : List α) :
    trimEnd refused (items.map f) = (trimEnd unwanted items).map f := by
  have kinds : refused ∘ f = unwanted := funext same
  rw [trimEnd, trimEnd, ← List.map_reverse, List.dropWhile_map, kinds, List.map_reverse]

theorem trim_map {β : Type} {refused : β → Bool} {f : α → β}
    (same : ∀ item, refused (f item) = unwanted item) (items : List α) :
    trim refused (items.map f) = (trim unwanted items).map f := by
  have kinds : refused ∘ f = unwanted := funext same
  rw [trim, trim, List.dropWhile_map, kinds, trim_end_map same]

-- What trimming takes away at either end is unwanted, and it takes all of it.

theorem trim_end_parts (unwanted : α → Bool) (items : List α) :
    ∃ back, items = trimEnd unwanted items ++ back ∧ ∀ item ∈ back, unwanted item = true := by
  refine ⟨(items.reverse.takeWhile unwanted).reverse, ?_, fun _ member => ?_⟩
  · rw [trimEnd, ← List.reverse_append, List.takeWhile_append_dropWhile, List.reverse_reverse]
  · exact List.mem_takeWhile_imp (List.mem_reverse.mp member)

theorem trim_parts (unwanted : α → Bool) (items : List α) :
    ∃ front back, items = front ++ trim unwanted items ++ back ∧
      (∀ item ∈ front, unwanted item = true) ∧ ∀ item ∈ back, unwanted item = true := by
  obtain ⟨back, whole, behind⟩ := trim_end_parts unwanted (items.dropWhile unwanted)
  refine ⟨items.takeWhile unwanted, back, ?_, fun _ => List.mem_takeWhile_imp, behind⟩
  rw [trim, List.append_assoc, ← whole, List.takeWhile_append_dropWhile]

theorem trimmed_map {β : Type} {refused : β → Bool} {f : α → β} (trimmed : IsTrimmed unwanted items)
    (kept : ∀ item ∈ items, unwanted item = false → refused (f item) = false) :
    IsTrimmed refused (items.map f) where
  first := by
    intro image head
    rw [List.head?_map] at head
    obtain ⟨item, first, rfl⟩ := Option.map_eq_some_iff.mp head
    exact kept item (List.mem_of_head? first) (trimmed.first item first)
  last := by
    intro image last
    rw [List.getLast?_map] at last
    obtain ⟨item, final, rfl⟩ := Option.map_eq_some_iff.mp last
    exact kept item (List.mem_of_getLast? final) (trimmed.last item final)

theorem trim_end_of_last (last : ∀ item, items.getLast? = some item → unwanted item = false) :
    trimEnd unwanted items = items := by
  rw [trimEnd]
  cases whole : items.reverse with
  | nil => exact (List.reverse_eq_nil_iff.mp whole).symm
  | cons item rest =>
    have ends : items.getLast? = some item := by rw [← List.head?_reverse, whole]; rfl
    rw [List.dropWhile_cons_of_neg (by simpa using last item ends), ← whole, List.reverse_reverse]

theorem trim_of_trimmed (trimmed : IsTrimmed unwanted items) : trim unwanted items = items := by
  have front : items.dropWhile unwanted = items := by
    cases items with
    | nil => rfl
    | cons item rest => exact List.dropWhile_cons_of_neg (by simpa using trimmed.first item rfl)
  rw [trim, front, trim_end_of_last trimmed.last]

theorem trim_between {front back : List α} (before : ∀ item ∈ front, unwanted item = true)
    (behind : ∀ item ∈ back, unwanted item = true) (trimmed : IsTrimmed unwanted items) :
    trim unwanted (front ++ items ++ back) = items := by
  induction back using List.reverseRecOn with
  | nil =>
    rw [List.append_nil, trim, List.dropWhile_append_of_pos before]
    exact trim_of_trimmed trimmed
  | append_singleton rest last ih =>
    rw [← List.append_assoc, trim_append_last (behind last (by simp))]
    exact ih fun item member => behind item (List.mem_append_left _ member)

theorem trim_amid {front back : List α} (before : ∀ item ∈ front, unwanted item = true)
    (behind : ∀ item ∈ back, unwanted item = true) (items : List α) :
    trim unwanted (front ++ items ++ back) = trim unwanted items := by
  obtain ⟨first, last, whole, beforeFirst, behindLast⟩ := trim_parts unwanted items
  have parts : front ++ items ++ back =
      (front ++ first) ++ trim unwanted items ++ (last ++ back) := by
    conv_lhs => rw [whole]
    simp only [List.append_assoc]
  rw [parts]
  exact trim_between (List.forall_mem_append.mpr ⟨before, beforeFirst⟩)
    (List.forall_mem_append.mpr ⟨behindLast, behind⟩) (trim_is_trimmed unwanted items)

end Gherkin.Text
