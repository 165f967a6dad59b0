import Gherkin.Text.Basic
/-!
White space. A character is blank when it has the Unicode property White_Space, and it is a space
when it is blank and does not end a line. Trimming a line drops spaces; trimming a setting or a
whole line of a doc string drops blanks.
-/
namespace Gherkin.Text

def blankRanges : List (Nat × Nat) :=
  [(0x0009, 0x000D), (0x0020, 0x0020), (0x0085, 0x0085), (0x00A0, 0x00A0), (0x1680, 0x1680),
   (0x2000, 0x200A), (0x2028, 0x2029), (0x202F, 0x202F), (0x205F, 0x205F), (0x3000, 0x3000)]

def isBlank (c : Char) : Bool :=
  blankRanges.any fun range => range.1 ≤ c.toNat && c.toNat ≤ range.2

/-- Whether a character is white space within a line. A carriage return is one. -/
def isSpace (c : Char) : Bool := c != '\n' && isBlank c

def isBlankText (text : Text) : Bool := text.all isBlank

theorem is_blank_of_is_space {c : Char} (space : isSpace c = true) : isBlank c = true := by
  simp only [isSpace, Bool.and_eq_true] at space
  exact space.2

theorem ne_feed_of_not_blank {c : Char} (visible : isBlank c = false) : c ≠ '\n' := by
  rintro rfl
  exact absurd visible (by decide)

end Gherkin.Text
