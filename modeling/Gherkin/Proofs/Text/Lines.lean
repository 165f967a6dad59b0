import Gherkin.Proofs.Source.Place
import Gherkin.Proofs.Text.Runs
/-!
Lines. A cut at separators leaves none of them in the pieces, and of lines put together again the
last is the last line of the whole.
-/
namespace Gherkin.Text

theorem split_on_free (separator : Char → Bool) (text : Text) :
    ∀ piece ∈ splitOn separator text, ∀ c ∈ piece, separator c = false := by
  induction text with
  | nil => simp [splitOn]
  | cons c rest ih =>
    have first : ∀ d ∈ (splitOn separator rest).headD [], separator d = false := by
      cases pieces : splitOn separator rest with
      | nil => simp
      | cons piece others => exact ih piece (pieces ▸ List.mem_cons_self)
    intro piece member
    simp only [splitOn] at member
    split at member
    · rcases List.mem_cons.mp member with rfl | later
      · simp
      · exact ih piece later
    · next goes =>
      rcases List.mem_cons.mp member with rfl | later
      · intro d inside
        rcases List.mem_cons.mp inside with rfl | behind
        · exact Bool.not_eq_true _ ▸ goes
        · exact first d behind
      · exact ih piece (List.mem_of_mem_tail later)

theorem feed_not_mem_line {text line : Text} (member : line ∈ lines text) : '\n' ∉ line := by
  intro feed
  exact absurd (split_on_free _ text line member '\n' feed) (by decide)

theorem split_on_ne_nil (separator : Char → Bool) (text : Text) : splitOn separator text ≠ [] := by
  cases text with
  | nil => simp [splitOn]
  | cons c rest => rw [splitOn]; split <;> simp

theorem split_on_free_front (separator : Char → Bool) {front : Text}
    (free : ∀ c ∈ front, separator c = false) (text : Text) :
    splitOn separator (front ++ text) =
      (front ++ (splitOn separator text).headD []) :: (splitOn separator text).tail := by
  induction front with
  | nil =>
    obtain ⟨piece, others, pieces⟩ :=
      List.exists_cons_of_ne_nil (split_on_ne_nil separator text)
    simp [pieces]
  | cons c rest ih =>
    obtain ⟨goes, others⟩ := List.forall_mem_cons.mp free
    simp [splitOn, ih others, goes]

theorem not_feed_of_unbroken {line : Text} (unbroken : '\n' ∉ line) :
    ∀ c ∈ line, (c == '\n') = false := fun c member => by
  rw [beq_eq_false_iff_ne]
  rintro rfl
  exact unbroken member

theorem lines_of_line {line : Text} (unbroken : '\n' ∉ line) : lines line = [line] := by
  have cut := split_on_free_front (· == '\n') (not_feed_of_unbroken unbroken) []
  rwa [List.append_nil, splitOn, List.headD_cons, List.append_nil] at cut

theorem lines_behind_line {line : Text} (unbroken : '\n' ∉ line) (more : Text) :
    lines (line ++ '\n' :: more) = line :: lines more := by
  have cut := split_on_free_front (· == '\n') (not_feed_of_unbroken unbroken) ('\n' :: more)
  rwa [splitOn, if_pos (beq_self_eq_true _), List.headD_cons, List.append_nil] at cut

theorem lines_of_ended {ended : List Text} (unbroken : ∀ line ∈ ended, '\n' ∉ line) (more : Text) :
    lines (ended.flatMap (· ++ ['\n']) ++ more) = ended ++ lines more := by
  induction ended with
  | nil => rfl
  | cons line rest ih =>
    have later := ih fun other member => unbroken other (List.mem_cons_of_mem line member)
    have first := lines_behind_line (unbroken line List.mem_cons_self)
      (rest.flatMap (· ++ ['\n']) ++ more)
    rw [later] at first
    simpa using first

theorem unlines_cons_cons (first second : Text) (others : List Text) :
    unlines (first :: second :: others) = first ++ '\n' :: unlines (second :: others) := by
  simp [unlines]

theorem unlines_lines (text : Text) : unlines (lines text) = text := by
  induction text with
  | nil => rfl
  | cons c rest ih =>
    obtain ⟨first, others, pieces⟩ := List.exists_cons_of_ne_nil (split_on_ne_nil (· == '\n') rest)
    rw [lines, pieces] at ih
    by_cases feed : c = '\n'
    · subst feed
      rw [lines, splitOn, pieces, if_pos (by decide), unlines_cons_cons, ih]
      rfl
    · have whole : unlines ((c :: first) :: others) = c :: unlines (first :: others) := by
        cases others <;> simp [unlines]
      rw [lines, splitOn, pieces, if_neg (by simpa using feed), List.headD_cons, List.tail_cons,
        whole, ih]

theorem lines_unlines {content : List Text} (some : content ≠ [])
    (unbroken : ∀ line ∈ content, '\n' ∉ line) : lines (unlines content) = content := by
  induction content with
  | nil => exact absurd rfl some
  | cons first rest ih =>
    have unbrokenFirst := unbroken first List.mem_cons_self
    cases rest with
    | nil =>
      have whole : unlines [first] = first := by simp [unlines]
      rw [whole, lines_of_line unbrokenFirst]
    | cons second others =>
      have later := ih (List.cons_ne_nil _ _) fun line member =>
        unbroken line (List.mem_cons_of_mem first member)
      rw [unlines_cons_cons, lines_behind_line unbrokenFirst, later]

theorem last_line_behind_feed (text more : Text) :
    lastLine (text ++ '\n' :: more) = lastLine more := by
  have fed : '\n' ∈ more.reverse ++ ['\n'] := List.mem_append_right _ List.mem_cons_self
  have stopped : (more.reverse ++ ['\n'] ++ text.reverse).takeWhile (· != '\n') =
      more.reverse.takeWhile (· != '\n') := by
    rw [run_append fed (by decide), List.takeWhile_append]
    split
    · next all => rw [(List.takeWhile_prefix _).eq_of_length all]; simp
    · rfl
  rw [lastLine, List.reverse_append, List.reverse_cons, stopped, lastLine]

theorem last_line_unlines {lines : List Text} {last : Text}
    (ends : lines.getLast? = some last) (unbroken : '\n' ∉ last) :
    lastLine (unlines lines) = last := by
  induction lines with
  | nil => cases ends
  | cons first rest ih =>
    cases rest with
    | nil =>
      cases ends
      have whole : unlines [first] = first := by simp [unlines]
      rw [whole]
      exact @last_line_append [] first unbroken
    | cons second others =>
      rw [List.getLast?_cons_cons] at ends
      rw [unlines_cons_cons, last_line_behind_feed, ih ends]

end Gherkin.Text
