import Mathlib.Data.List.TakeWhile
import Gherkin.Text.Basic
/-!
Runs at the start of a text: the longest stretch of characters of one kind. Everything that is read
on a line is a run that a line feed stops, if nothing stops it before; so no text behind a line
feed has a say in it.
-/
namespace Gherkin.Text
variable {α : Type} {p : α → Bool}

theorem drop_run (p : α → Bool) (items : List α) :
    items.drop (items.takeWhile p).length = items.dropWhile p := by
  have whole := @List.takeWhile_append_dropWhile _ p items
  calc items.drop (items.takeWhile p).length
      = (items.takeWhile p ++ items.dropWhile p).drop (items.takeWhile p).length := by rw [whole]
    _ = items.dropWhile p := List.drop_left

theorem take_run (p : α → Bool) (items : List α) :
    items.take (items.takeWhile p).length = items.takeWhile p :=
  (List.prefix_iff_eq_take.mp (List.takeWhile_prefix p)).symm

theorem run_length_le (p : α → Bool) (items : List α) :
    (items.takeWhile p).length ≤ items.length := (List.takeWhile_prefix p).length_le

theorem length_lt_of_head_drop {items : List α} {count : Nat} {item : α}
    (next : (items.drop count).head? = some item) : count < items.length := by
  by_contra past
  rw [List.drop_eq_nil_of_le (Nat.le_of_not_lt past)] at next
  cases next

theorem run_length_lt {items : List α} {item : α} (member : item ∈ items)
    (stops : p item = false) : (items.takeWhile p).length < items.length := by
  apply Nat.lt_of_le_of_ne (run_length_le p items)
  intro same
  have whole := (List.takeWhile_prefix p).eq_of_length same
  have inside := List.takeWhile_eq_self_iff.mp whole item member
  exact Bool.noConfusion (stops.symm.trans inside)

-- A run that is stopped within a text is the same whatever follows the text.
theorem run_append {items : List α} {item : α} (member : item ∈ items) (stops : p item = false)
    (more : List α) : (items ++ more).takeWhile p = items.takeWhile p := by
  rw [List.takeWhile_append, if_neg (Nat.ne_of_lt (run_length_lt member stops))]

theorem run_exact {items more : List α} (inside : ∀ item ∈ items, p item = true)
    (stopped : ∀ item, more.head? = some item → p item = false) :
    (items ++ more).takeWhile p = items := by
  rw [List.takeWhile_append_of_pos inside, List.append_right_eq_self]
  cases more with
  | nil => rfl
  | cons item rest => exact List.takeWhile_cons_of_neg (by simp [stopped item rfl])

theorem run_exact_behind {items more : List α} (inside : ∀ item ∈ items, p item = true)
    (stopped : ∀ item, more.head? = some item → p item = false) :
    (items ++ more).dropWhile p = more := by
  rw [← drop_run, run_exact inside stopped, List.drop_left]

theorem head_within_run {items : List α} {count : Nat}
    (within : count < (items.takeWhile p).length) : (items.drop count).head?.any p = true := by
  have run := List.takeWhile_prefix (l := items) p
  have here : (items.drop count).head? = some (items.takeWhile p)[count] := by
    rw [List.head?_drop, List.getElem?_eq_getElem (Nat.lt_of_lt_of_le within run.length_le)]
    exact congrArg some (run.getElem within).symm
  have inside : p (items.takeWhile p)[count] = true :=
    List.mem_takeWhile_imp (List.getElem_mem within)
  rw [here, Option.any_some, inside]

theorem head_drop_append {items : List α} {count : Nat} (inside : count < items.length)
    (more : List α) : ((items ++ more).drop count).head? = (items.drop count).head? := by
  rw [List.head?_drop, List.head?_drop, List.getElem?_append_left inside]

theorem trim_end_length_le (unwanted : α → Bool) (items : List α) :
    (trimEnd unwanted items).length ≤ items.length := by
  have dropped := (List.dropWhile_suffix (l := items.reverse) unwanted).length_le
  simpa [trimEnd] using dropped

-- A run that a line feed stops holds none. What a reader takes of a line is put together from such
-- runs and from characters that are no line feeds.

theorem run_unbroken {p : Char → Bool} (feed : p '\n' = false) (text : Text) :
    '\n' ∉ text.take (text.takeWhile p).length := by
  rw [take_run]
  intro member
  exact Bool.noConfusion (feed.symm.trans (List.mem_takeWhile_imp member))

theorem take_unbroken {text : Text} {count fewer : Nat} (unbroken : '\n' ∉ text.take count)
    (less : fewer ≤ count) : '\n' ∉ text.take fewer := by
  rw [← Nat.min_eq_left less, ← List.take_take]
  exact fun member => unbroken (List.mem_of_mem_take member)

theorem take_succ_unbroken {text : Text} {count : Nat} {c : Char}
    (unbroken : '\n' ∉ text.take count) (next : (text.drop count).head? = some c)
    (notFeed : c ≠ '\n') : '\n' ∉ text.take (count + 1) := by
  rw [List.head?_drop] at next
  rw [List.take_add_one, next]
  simpa [unbroken] using notFeed.symm

theorem take_add_unbroken {text : Text} {first second : Nat} (front : '\n' ∉ text.take first)
    (back : '\n' ∉ (text.drop first).take second) : '\n' ∉ text.take (first + second) := by
  rw [List.take_add, List.mem_append]
  rintro (member | member)
  · exact front member
  · exact back member

theorem take_cons_unbroken {rest : Text} {count : Nat} {c : Char} (notFeed : c ≠ '\n')
    (unbroken : '\n' ∉ rest.take count) : '\n' ∉ (c :: rest).take (1 + count) := by
  rw [Nat.add_comm, List.take_succ_cons]
  exact List.not_mem_cons_of_ne_of_not_mem (Ne.symm notFeed) unbroken

theorem feed_of_at_line_end {text : Text} (ended : atLineEnd text = true) :
    ∀ c, text.head? = some c → c = '\n' := by
  cases text with
  | nil => rintro c ⟨⟩
  | cons d rest => rintro c ⟨⟩; exact beq_iff_eq.mp ended

theorem line_until_exact {stop : Char → Bool} {front more : Text}
    (inside : ∀ c ∈ front, c ≠ '\n' ∧ stop c = false)
    (stopped : ∀ c, more.head? = some c → c = '\n' ∨ stop c = true) :
    lineUntil stop (front ++ more) = front := by
  apply run_exact
  · intro c member
    obtain ⟨notFeed, goes⟩ := inside c member
    simp [notFeed, goes]
  · intro c head
    rcases stopped c head with rfl | stops
    · rfl
    · simp [stops]

-- What is behind the end of a line does not belong to it.
theorem run_append_ended {p : Char → Bool} (feed : p '\n' = false) {more : Text}
    (ended : atLineEnd more = true) (line : Text) :
    (line ++ more).takeWhile p = line.takeWhile p := by
  have none : more.takeWhile p = [] := by
    cases more with
    | nil => rfl
    | cons c rest =>
      exact List.takeWhile_cons_of_neg (by simp [feed_of_at_line_end ended c rfl, feed])
  rw [List.takeWhile_append]
  split
  · next all =>
    rw [none, List.append_nil]
    exact ((List.takeWhile_prefix _).eq_of_length all).symm
  · rfl

theorem line_until_append_ended {more : Text} (stop : Char → Bool) (ended : atLineEnd more = true)
    (line : Text) : lineUntil stop (line ++ more) = lineUntil stop line :=
  run_append_ended (by simp) ended line

theorem line_until_unbroken (stop : Char → Bool) (text : Text) :
    '\n' ∉ text.take (lineUntil stop text).length := run_unbroken (by simp) text

theorem rest_of_line_unbroken (text : Text) :
    '\n' ∉ text.take (restOfLine text).length := run_unbroken (by decide) text

end Gherkin.Text
