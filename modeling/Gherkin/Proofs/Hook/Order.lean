import Mathlib.Data.List.TakeWhile
import Mathlib.Order.WithBot
import Gherkin.Hook.Set
/-!
The order in which a set keeps its hooks. A set is sorted by priority, so what the search by halves
tests holds of a first part of the hooks and of no others, and the search finds the end of that
part. The new hook goes there, which keeps the set sorted and puts the hook behind those of its own
priority. Only one sorted list keeps the hooks of each priority in a given order, and a stable sort
gives it.
-/
namespace Gherkin

/-- Where a priority stands among all others: by its number, and behind all numbers if there is
none. -/
def Priority.rank (priority : Priority) : WithTop Nat := priority

theorem Priority.precedes_iff (first second : Priority) :
    precedes first second = true ↔ first.rank ≤ second.rank := by
  cases second with
  | none => exact iff_of_true (by cases first <;> rfl) le_top
  | some number =>
    cases first with
    | none => exact iff_of_false Bool.false_ne_true (WithTop.not_top_le_coe number)
    | some smaller => exact decide_eq_true_iff.trans WithTop.coe_le_coe.symm

/-- Whether a test holds of a first part of some items and of no others. -/
def Parted {α : Type} (test : α → Bool) (items : List α) : Prop :=
  items.Pairwise fun earlier later => test later = true → test earlier = true

section Search
variable {α : Type} {test : α → Bool} {items : List α}

theorem parted_fails {first : α} {rest : List α} (parted : Parted test (first :: rest))
    (fails : ¬ test first = true) : ∀ item ∈ first :: rest, ¬ test item = true := by
  intro item member holds
  rcases List.mem_cons.mp member with rfl | later
  · exact fails holds
  · exact fails (List.rel_of_pairwise_cons parted later holds)

theorem parted_behind (parted : Parted test items) :
    ∀ item ∈ items.dropWhile test, ¬ test item = true := by
  induction items with
  | nil => intro item member; cases member
  | cons first rest ih =>
    by_cases holds : test first = true
    · rw [List.dropWhile_cons_of_pos holds]
      exact ih parted.of_cons
    · rw [List.dropWhile_cons_of_neg holds]
      exact parted_fails parted holds

theorem parted_holds_iff (parted : Parted test items) (index : Nat) :
    items[index]?.any test = true ↔ index < (items.takeWhile test).length := by
  induction items generalizing index with
  | nil => simp
  | cons first rest ih =>
    by_cases holds : test first = true
    · rw [List.takeWhile_cons_of_pos holds]
      cases index with
      | zero => simpa using holds
      | succ index => simpa using ih parted.of_cons index
    · rw [List.takeWhile_cons_of_neg holds]
      refine iff_of_false ?_ (Nat.not_lt_zero index)
      intro found
      obtain ⟨item, here, passes⟩ := (Option.any_eq_true _ _).mp found
      exact parted_fails parted holds item (List.mem_of_getElem? here) passes

theorem search_boundary_between (parted : Parted test items) {low high : Nat}
    (above : low ≤ (items.takeWhile test).length) (below : (items.takeWhile test).length ≤ high) :
    searchBoundary test items low high = (items.takeWhile test).length := by
  fun_induction searchBoundary test items low high with
  | case1 low high room middle holds ih =>
    have inside := (parted_holds_iff parted middle).mp holds
    exact ih inside below
  | case2 low high room middle fails ih =>
    have outside : ¬ middle < (items.takeWhile test).length :=
      fun inside => fails ((parted_holds_iff parted middle).mpr inside)
    exact ih above (Nat.le_of_not_lt outside)
  | case3 low high closed => omega

theorem search_boundary_eq (parted : Parted test items) :
    searchBoundary test items 0 items.length = (items.takeWhile test).length :=
  search_boundary_between parted (Nat.zero_le _) (List.takeWhile_prefix test).length_le

theorem insert_idx_behind (test : α → Bool) (items : List α) (item : α) :
    items.insertIdx (items.takeWhile test).length item =
      items.takeWhile test ++ item :: items.dropWhile test := by
  induction items with
  | nil => rfl
  | cons first rest ih =>
    by_cases holds : test first = true
    · simp [holds, ih]
    · simp [holds]

end Search

section Sorted
variable {α R : Type} [LinearOrder R] {rank : α → R} {items : List α}

-- The first items are the same, for each is at most as great as the other and so a tie of it.
theorem eq_of_sorted_of_ties {others : List α} (sorted : items.Pairwise (rank · ≤ rank ·))
    (sortedOthers : others.Pairwise (rank · ≤ rank ·))
    (ties : ∀ value, items.filter (rank · = value) = others.filter (rank · = value)) :
    items = others := by
  induction items generalizing others with
  | nil =>
    cases others with
    | nil => rfl
    | cons other rest => simpa using ties (rank other)
  | cons item rest ih =>
    have found : item ∈ others := by
      have here : item ∈ (item :: rest).filter (rank · = rank item) := by simp
      rw [ties] at here
      exact (List.mem_filter.mp here).1
    cases others with
    | nil => cases found
    | cons other later =>
      have back : other ∈ item :: rest := by
        have here : other ∈ (other :: later).filter (rank · = rank other) := by simp
        rw [← ties] at here
        exact (List.mem_filter.mp here).1
      have same : rank item = rank other := by
        apply le_antisymm
        · rcases List.mem_cons.mp back with rfl | behind
          · exact le_rfl
          · exact List.rel_of_pairwise_cons sorted behind
        · rcases List.mem_cons.mp found with rfl | behind
          · exact le_rfl
          · exact List.rel_of_pairwise_cons sortedOthers behind
      have first : item = other := by
        have tied := ties (rank item)
        simp only [List.filter_cons, same, decide_true, if_true] at tied
        exact (List.cons.inj tied).1
      subst first
      congr 1
      apply ih sorted.of_cons sortedOthers.of_cons
      intro value
      have tied := ties value
      by_cases here : rank item = value
      · simpa [here] using tied
      · simpa [here] using tied

theorem rank_trans (rank : α → R) (first second third : α)
    (below : decide (rank first ≤ rank second) = true)
    (above : decide (rank second ≤ rank third) = true) :
    decide (rank first ≤ rank third) = true :=
  decide_eq_true ((of_decide_eq_true below).trans (of_decide_eq_true above))

theorem rank_total (rank : α → R) (first second : α) :
    (decide (rank first ≤ rank second) || decide (rank second ≤ rank first)) = true := by
  simpa using le_total (rank first) (rank second)

theorem merge_sort_sorted (rank : α → R) (items : List α) :
    (items.mergeSort (rank · ≤ rank ·)).Pairwise (rank · ≤ rank ·) :=
  (List.pairwise_mergeSort (rank_trans rank) (rank_total rank) items).imp of_decide_eq_true

-- The ties stand in the sorted list as they stood before, and the sort adds none.
theorem merge_sort_ties (rank : α → R) (items : List α) (value : R) :
    (items.mergeSort (rank · ≤ rank ·)).filter (rank · = value) =
      items.filter (rank · = value) := by
  have level : (items.filter (rank · = value)).Pairwise
      fun first second => decide (rank first ≤ rank second) = true := by
    apply List.pairwise_of_forall_mem_list
    intro first here second there
    have left := of_decide_eq_true (List.mem_filter.mp here).2
    have right := of_decide_eq_true (List.mem_filter.mp there).2
    exact decide_eq_true (left.trans right.symm).le
  have kept : (items.filter (rank · = value)).Sublist (items.mergeSort (rank · ≤ rank ·)) :=
    List.sublist_mergeSort (rank_trans rank) (rank_total rank) level List.filter_sublist
  have among := kept.filter (rank · = value)
  simp only [List.filter_filter, Bool.and_self] at among
  have perm := (List.mergeSort_perm items (rank · ≤ rank ·)).filter (rank · = value)
  exact (among.eq_of_length perm.length_eq.symm).symm

-- An item passes over items that are no ties of it.
theorem ties_past {item : α} {behind : List α} (apart : ∀ other ∈ behind, rank other ≠ rank item)
    (front : List α) (value : R) :
    (front ++ item :: behind).filter (rank · = value) =
      (front ++ behind ++ [item]).filter (rank · = value) := by
  by_cases same : rank item = value
  · have none : behind.filter (rank · = value) = [] := by
      rw [List.filter_eq_nil_iff]
      intro other member tied
      exact apart other member ((of_decide_eq_true tied).trans same.symm)
    simp [same, none]
  · simp [same]

end Sorted

namespace HookSet
variable {Hook : Type} {hooks : HookSet Hook}

/-- Whether a set has its hooks in the order of their priorities. -/
def Sorted (hooks : HookSet Hook) : Prop :=
  hooks.entries.Pairwise fun earlier later => earlier.1.rank ≤ later.1.rank

/-- Whether a hook of a set may run before one of a priority, which is what a search for the place
of the latter tests. -/
def upTo (priority : Priority) (entry : Priority × Hook) : Bool :=
  Priority.precedes entry.1 priority

theorem up_to_iff (priority : Priority) (entry : Priority × Hook) :
    upTo priority entry = true ↔ entry.1.rank ≤ priority.rank :=
  Priority.precedes_iff entry.1 priority

theorem sorted_parted (sorted : hooks.Sorted) (priority : Priority) :
    Parted (upTo priority) hooks.entries := by
  refine sorted.imp ?_
  intro earlier later ordered within
  exact (up_to_iff priority earlier).mpr (ordered.trans ((up_to_iff priority later).mp within))

theorem register_place (sorted : hooks.Sorted) (priority : Priority) :
    searchBoundary (upTo priority) hooks.entries 0 hooks.size =
      (hooks.entries.takeWhile (upTo priority)).length :=
  search_boundary_eq (sorted_parted sorted priority)

theorem register_entries (sorted : hooks.Sorted) (priority : Priority) (hook : Hook) :
    (hooks.register priority hook).entries =
      hooks.entries.takeWhile (upTo priority) ++
        (priority, hook) :: hooks.entries.dropWhile (upTo priority) := by
  have place := register_place sorted priority
  rw [register]
  exact (congrArg (hooks.entries.insertIdx · (priority, hook)) place).trans
    (insert_idx_behind (upTo priority) hooks.entries (priority, hook))

theorem lt_of_mem_beyond (sorted : hooks.Sorted) {priority : Priority} {entry : Priority × Hook}
    (member : entry ∈ hooks.entries.dropWhile (upTo priority)) :
    priority.rank < entry.1.rank := by
  have fails := parted_behind (sorted_parted sorted priority) entry member
  exact lt_of_not_ge fun within => fails ((up_to_iff priority entry).mpr within)

theorem register_sorted (sorted : hooks.Sorted) (priority : Priority) (hook : Hook) :
    (hooks.register priority hook).Sorted := by
  rw [Sorted, register_entries sorted, List.pairwise_append, List.pairwise_cons]
  refine ⟨sorted.sublist (List.takeWhile_sublist _),
    ⟨fun later behind => (lt_of_mem_beyond sorted behind).le,
      sorted.sublist (List.dropWhile_sublist _)⟩, ?_⟩
  intro earlier before later behind
  have within : earlier.1.rank ≤ priority.rank :=
    (up_to_iff priority earlier).mp (List.mem_takeWhile_imp before)
  rcases List.mem_cons.mp behind with rfl | behind
  · exact within
  · exact within.trans (lt_of_mem_beyond sorted behind).le

theorem register_ties (sorted : hooks.Sorted) (priority : Priority) (hook : Hook)
    (value : WithTop Nat) :
    (hooks.register priority hook).entries.filter (·.1.rank = value) =
      (hooks.entries ++ [(priority, hook)]).filter (·.1.rank = value) := by
  have apart : ∀ entry ∈ hooks.entries.dropWhile (upTo priority),
      entry.1.rank ≠ priority.rank := fun entry member => (lt_of_mem_beyond sorted member).ne'
  rw [register_entries sorted, ties_past apart, List.takeWhile_append_dropWhile]

end HookSet
end Gherkin
