import Gherkin.Text.Blank
/-!
The characters that mean something to the scanner wherever they stand, and the runs of quotes or
backticks that fence a doc string.
-/
namespace Gherkin.Text

def isTagChar (c : Char) : Bool := !isBlank c && c != '@' && c != '#'

def isFenceMark (c : Char) : Bool := c == '"' || c == '\x60'

/-- Whether a character ends a stretch of step text. -/
def isSymbol (c : Char) : Bool :=
  c == '\n' || c == '#' || c == '@' || c == '|' || c == '<' || isFenceMark c || c == '\\'

def fenceRun (text : Text) : Text := text.takeWhile isFenceMark

def isFence (run : Text) : Bool := run == ['"', '"', '"'] || run == ['\x60', '\x60', '\x60']

theorem ne_feed_of_not_symbol {c : Char} (plain : isSymbol c = false) : c ≠ '\n' := by
  rintro rfl
  exact absurd plain (by decide)

theorem marks_of_not_symbol {c : Char} (plain : isSymbol c = false) :
    c ≠ '\n' ∧ c ≠ '#' ∧ c ≠ '@' ∧ c ≠ '|' ∧ c ≠ '<' ∧ isFenceMark c = false ∧ c ≠ '\\' := by
  simpa [isSymbol, and_assoc] using plain

theorem not_symbol_of_space {c : Char} (space : isSpace c = true) : isSymbol c = false := by
  rw [Bool.eq_false_iff]
  intro symbol
  simp only [isSymbol, isFenceMark, Bool.or_eq_true, beq_iff_eq, or_assoc] at symbol
  rcases symbol with rfl | rfl | rfl | rfl | rfl | rfl | rfl | rfl <;> cases space

theorem ne_bracket_of_not_symbol {c : Char} (plain : isSymbol c = false) : c ≠ '<' := by
  rintro rfl
  exact absurd plain (by decide)

theorem ne_feed_of_fence_mark {c : Char} (mark : isFenceMark c = true) : c ≠ '\n' := by
  rintro rfl
  exact absurd mark (by decide)

theorem mark_of_fence_run {c : Char} {rest : Text}
    (fenced : isFence (fenceRun (c :: rest)) = true) : isFenceMark c = true := by
  cases mark : isFenceMark c with
  | true => rfl
  | false => simp [fenceRun, mark, isFence] at fenced

end Gherkin.Text
