/-!
Texts, and the operations on them that every reader of a text shares: trimming at either end and
cutting at separators. A cut at separators loses nothing: there is one piece more than there are
separators, and an empty text is one empty piece.
-/
namespace Gherkin

/-- A text is the sequence of its characters; lengths and columns count characters. -/
abbrev Text := List Char

namespace Text

def ofString (string : String) : Text := string.toList

def asString (text : Text) : String := String.ofList text

def trimEnd {α : Type} (unwanted : α → Bool) (items : List α) : List α :=
  (items.reverse.dropWhile unwanted).reverse

def trim {α : Type} (unwanted : α → Bool) (items : List α) : List α :=
  trimEnd unwanted (items.dropWhile unwanted)

def splitOn (separator : Char → Bool) : Text → List Text
  | [] => [[]]
  | c :: rest =>
    let pieces := splitOn separator rest
    if separator c then [] :: pieces else (c :: pieces.headD []) :: pieces.tail

def lines (text : Text) : List Text := splitOn (· == '\n') text

def unlines (lines : List Text) : Text := ['\n'].intercalate lines

def restOfLine (text : Text) : Text := text.takeWhile (· != '\n')

def lineUntil (stop : Char → Bool) (text : Text) : Text :=
  text.takeWhile fun c => c != '\n' && !stop c

def atLineEnd : Text → Bool
  | [] => true
  | c :: _ => c == '\n'

-- Small facts about trimming, which the keyword tables and the reader of lines rely on.

theorem trim_end_ne_nil {α : Type} {unwanted : α → Bool} {items : List α} {item : α}
    (member : item ∈ items) (wanted : unwanted item = false) : trimEnd unwanted items ≠ [] := by
  intro empty
  have gone := @List.any_dropWhile _ unwanted items.reverse
  rw [List.reverse_eq_nil_iff.mp empty] at gone
  have every : items.reverse.all unwanted = true := by simpa using gone.symm
  have dropped := List.all_eq_true.mp every item (List.mem_reverse.mpr member)
  exact Bool.noConfusion (wanted.symm.trans dropped)

theorem rest_of_line_cons {c : Char} (rest : Text) (notFeed : c ≠ '\n') :
    restOfLine (c :: rest) = c :: restOfLine rest := by
  simp [restOfLine, notFeed]

theorem line_until_cons {stop : Char → Bool} {c : Char} (rest : Text) (notFeed : c ≠ '\n')
    (goes : stop c = false) : lineUntil stop (c :: rest) = c :: lineUntil stop rest := by
  simp [lineUntil, notFeed, goes]

end Text
end Gherkin
