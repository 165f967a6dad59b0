import Gherkin.Proofs.Text.Trimmed
import Gherkin.Text.Blank
/-!
Carriage returns before line feeds. A run of characters that stops at a line feed grows by the
return before the feed when it takes returns, and ends where it did when it does not. Either way
it leaves a text that has returns again, and at most the first of these is gone.
-/
namespace Gherkin.Text

/-- The text with a carriage return before every line feed. -/
def withReturns : Text → Text
  | [] => []
  | c :: rest => if c = '\n' then '\r' :: '\n' :: withReturns rest else c :: withReturns rest

/-- The text with returns behind the first of these, if it begins with one. -/
def pastReturn : Text → Text
  | [] => []
  | c :: rest => c :: withReturns rest

/-- The return before a line feed at the start of a text. -/
def returnBefore (text : Text) : Text := if text.head? = some '\n' then ['\r'] else []

/-- Whether a text is another with returns, the one that it begins with perhaps left out. -/
def Returned (text other : Text) : Prop := other = withReturns text ∨ other = pastReturn text

/-- Whether text up to a stop character would be ended by a line feed. -/
def endsLine (stop : Char → Bool) (text : Text) : Bool :=
  text.find? (fun c => c == '\n' || stop c) == some '\n'

theorem return_before_append (text : Text) :
    returnBefore text ++ pastReturn text = withReturns text := by
  cases text with
  | nil => rfl
  | cons c rest => by_cases feed : c = '\n' <;> simp [returnBefore, pastReturn, withReturns, feed]

@[simp] theorem past_return_head (text : Text) : (pastReturn text).head? = text.head? := by
  cases text <;> rfl

theorem past_return_cons (c : Char) (rest : Text) :
    pastReturn (c :: rest) = c :: withReturns rest := rfl

theorem with_returns_cons {c : Char} (rest : Text) (notFeed : c ≠ '\n') :
    withReturns (c :: rest) = c :: withReturns rest := if_neg notFeed

theorem return_before_of_whole {text : Text} (whole : pastReturn text = withReturns text) :
    returnBefore text = [] := by
  rwa [← return_before_append, List.self_eq_append_left] at whole

theorem return_before_of_head {text : Text} {c : Char} (head : text.head? = some c)
    (notFeed : c ≠ '\n') : returnBefore text = [] := by
  rw [returnBefore, head, if_neg (fun same => notFeed (Option.some.inj same))]

theorem at_line_end_past_return (text : Text) : atLineEnd (pastReturn text) = atLineEnd text := by
  cases text <;> rfl

theorem return_before_of_not_ended {text : Text} (goesOn : atLineEnd text = false) :
    returnBefore text = [] := by
  cases text with
  | nil => rfl
  | cons c rest => exact return_before_of_head rfl (by simpa [atLineEnd] using goesOn)

theorem returned_behind (text : Text) : Returned (text.drop 1) ((pastReturn text).drop 1) := by
  cases text with
  | nil => exact Or.inl rfl
  | cons c rest => exact Or.inl rfl

theorem take_while_returns {p : Char → Bool} (feed : p '\n' = false) (taken : p '\r' = true)
    (text : Text) :
    (withReturns text).takeWhile p =
      text.takeWhile p ++ returnBefore (text.drop (text.takeWhile p).length) := by
  rw [drop_run]
  induction text with
  | nil => rfl
  | cons c rest ih =>
    by_cases same : c = '\n'
    · subst same
      simp [withReturns, returnBefore, feed, taken]
    · rw [with_returns_cons rest same]
      cases goes : p c with
      | true => simpa [goes] using ih
      | false => simp [returnBefore, goes, same]

theorem take_while_before_returns {p : Char → Bool} (feed : p '\n' = false)
    (left : p '\r' = false) (text : Text) :
    (withReturns text).takeWhile p = text.takeWhile p := by
  induction text with
  | nil => rfl
  | cons c rest ih =>
    by_cases same : c = '\n'
    · subst same
      simp [withReturns, feed, left]
    · rw [with_returns_cons rest same]
      cases goes : p c with
      | true => simpa [goes] using ih
      | false => simp [goes]

-- A prefix without line feeds is as long with returns as without them.
theorem drop_with_returns {text : Text} {count : Nat} (unbroken : '\n' ∉ text.take count) :
    (withReturns text).drop count = withReturns (text.drop count) := by
  induction count generalizing text with
  | zero => rfl
  | succ count ih =>
    cases text with
    | nil => rfl
    | cons c rest =>
      obtain ⟨notFeed, later⟩ := List.ne_and_not_mem_of_not_mem_cons unbroken
      rw [with_returns_cons rest (Ne.symm notFeed)]
      exact ih later

theorem drop_past_return {text : Text} {count : Nat} (unbroken : '\n' ∉ text.take count) :
    (withReturns text).drop (count + (returnBefore (text.drop count)).length) =
      pastReturn (text.drop count) := by
  rw [← List.drop_drop, drop_with_returns unbroken, ← return_before_append, List.drop_left]

theorem drop_run_returns {p : Char → Bool} (feed : p '\n' = false) (taken : p '\r' = true)
    (text : Text) :
    (withReturns text).drop ((withReturns text).takeWhile p).length =
      pastReturn (text.drop (text.takeWhile p).length) := by
  rw [take_while_returns feed taken, List.length_append, drop_past_return (run_unbroken feed text)]

theorem rest_of_line_returns (text : Text) :
    restOfLine (withReturns text) =
      restOfLine text ++ returnBefore (text.drop (restOfLine text).length) :=
  take_while_returns (by decide) (by decide) text

theorem drop_line_returns (text : Text) :
    (withReturns text).drop (restOfLine (withReturns text)).length =
      pastReturn (text.drop (restOfLine text).length) :=
  drop_run_returns (by decide) (by decide) text

theorem line_until_returns (stop : Char → Bool) (goes : stop '\r' = false) (text : Text) :
    lineUntil stop (withReturns text) =
      lineUntil stop text ++ returnBefore (text.drop (lineUntil stop text).length) :=
  take_while_returns (by simp) (by simp [goes]) text

theorem drop_line_until_returns (stop : Char → Bool) (goes : stop '\r' = false)
    (text : Text) :
    (withReturns text).drop (lineUntil stop (withReturns text)).length =
      pastReturn (text.drop (lineUntil stop text).length) :=
  drop_run_returns (by simp) (by simp [goes]) text

theorem return_before_stop (stop : Char → Bool) (text : Text) :
    returnBefore (text.drop (lineUntil stop text).length) =
      if endsLine stop text then ['\r'] else [] := by
  have ends : endsLine stop text =
      ((text.drop (lineUntil stop text).length).head? == some '\n') := by
    rw [lineUntil, drop_run, endsLine, List.find?_eq_head?_dropWhile_not]
    simp only [Bool.not_or, bne]
  simp only [ends, returnBefore, beq_iff_eq]

theorem not_ends_line_of_head {stop : Char → Bool} {text : Text} {c : Char}
    (head : (text.drop (lineUntil stop text).length).head? = some c) (notFeed : c ≠ '\n') :
    endsLine stop text = false := by
  have none := return_before_stop stop text
  rw [return_before_of_head head notFeed] at none
  by_contra ends
  rw [if_pos (Bool.not_eq_false _ ▸ ends)] at none
  cases none

theorem trim_end_append_return (read behind : Text) :
    trimEnd isSpace (read ++ returnBefore behind) = trimEnd isSpace read := by
  unfold returnBefore
  split
  · exact trim_end_append_last (by decide) read
  · rw [List.append_nil]

theorem trim_append_return (read behind : Text) :
    trim isSpace (read ++ returnBefore behind) = trim isSpace read := by
  unfold returnBefore
  split
  · exact trim_append_last (by decide) read
  · rw [List.append_nil]

end Gherkin.Text
