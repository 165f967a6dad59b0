import Gherkin.Proofs.Token.Outcome
import Gherkin.Proofs.Token.Width
/-!
No lexeme looks past its line, but for doc strings. So in a text that ends in a line feed every
lexeme is the same whatever follows the text, as long as no doc string is left open in it.
-/
namespace Gherkin

namespace Text
variable {text : Text}

theorem feed_mem (fed : text.getLast? = some '\n') : '\n' ∈ text := List.mem_of_getLast? fed

theorem last_feed_drop (fed : text.getLast? = some '\n') {count : Nat}
    (inside : count < text.length) : (text.drop count).getLast? = some '\n' := by
  rw [List.getLast?_drop, if_neg (Nat.not_le_of_lt inside), fed]

theorem succ_lt_of_head_drop (fed : text.getLast? = some '\n') {count : Nat} {c : Char}
    (next : (text.drop count).head? = some c) (notFeed : c ≠ '\n') : count + 1 < text.length := by
  have inside := length_lt_of_head_drop next
  apply Nat.lt_of_le_of_ne inside
  intro last
  rw [List.head?_drop] at next
  rw [List.getLast?_eq_getElem?, ← last, Nat.succ_sub_one] at fed
  exact notFeed (Option.some.inj (next.symm.trans fed))

theorem last_feed_rest {c : Char} {rest : Text} (fed : (c :: rest).getLast? = some '\n')
    (notFeed : c ≠ '\n') : rest.getLast? = some '\n' := by
  cases rest with
  | nil => exact absurd (Option.some.inj fed) notFeed
  | cons d tail => rwa [List.getLast?_cons_cons] at fed

theorem rest_of_line_append (fed : '\n' ∈ text) (more : Text) :
    restOfLine (text ++ more) = restOfLine text := run_append fed (by decide) more

theorem line_until_append (stop : Char → Bool) (fed : '\n' ∈ text) (more : Text) :
    lineUntil stop (text ++ more) = lineUntil stop text := run_append fed (by simp) more

theorem fence_run_append (fed : '\n' ∈ text) (more : Text) :
    fenceRun (text ++ more) = fenceRun text := run_append fed (by decide) more

theorem line_until_length_lt (stop : Char → Bool) (fed : '\n' ∈ text) :
    (lineUntil stop text).length < text.length := run_length_lt fed (by simp)

theorem at_line_end_append {count : Nat} (inside : count < text.length) (more : Text) :
    atLineEnd ((text ++ more).drop count) = atLineEnd (text.drop count) := by
  rw [List.drop_append_of_le_length (Nat.le_of_lt inside)]
  cases behind : text.drop count with
  | nil => exact absurd (List.drop_eq_nil_iff.mp behind) (Nat.not_le_of_lt inside)
  | cons c rest => rfl

end Text

theorem Cell.of_text_append (fence : HeaderFence) {text : Text} (fed : '\n' ∈ text)
    (more : Text) : Cell.ofText fence (text ++ more) = Cell.ofText fence text := by
  fun_induction Cell.ofText fence text with
  | case1 => cases fed
  | case2 fence c rest decoded escaped ih =>
    have later : '\n' ∈ rest := by
      rcases List.mem_cons.mp (List.mem_of_ne_of_mem (by decide) fed) with rfl | later
      · cases escaped
      · exact later
    simp only [List.cons_append, Cell.ofText, escaped, ih later]
  | case3 fence c rest plain ih =>
    have later : '\n' ∈ c :: rest := List.mem_of_ne_of_mem (by decide) fed
    simp only [List.cons_append, Cell.ofText, plain]
    rw [← List.cons_append, ih later]
  | case4 fence c rest notEscape ends =>
    rcases ends with rfl | rfl <;> simp [Cell.ofText]
  | case5 fence c rest notEscape goes ih =>
    have later : '\n' ∈ rest := by
      rcases List.mem_cons.mp fed with rfl | later
      · exact absurd (Or.inl rfl) goes
      · exact later
    rw [List.cons_append, Cell.ofText]
    · rw [if_neg goes, ih later]
    · intro d tail same split
      cases rest with
      | nil => cases later
      | cons e others => exact notEscape e others same rfl

theorem Cell.feed_not_mem_taken (fence : HeaderFence) (text : Text) :
    '\n' ∉ text.take (Cell.ofText fence text).width := by
  fun_induction Cell.ofText fence text with
  | case1 => simp
  | case2 fence c rest decoded escaped ih =>
    have notFeed : '\n' ≠ c := by
      rintro rfl
      cases escaped
    simpa [Cell.push, Nat.add_comm 2, notFeed] using ih
  | case3 fence c rest notEscape ih => simpa [Cell.push, Nat.add_comm 1] using ih
  | case4 => simp
  | case5 fence c rest notEscape goes ih =>
    have notFeed : '\n' ≠ c := fun same => goes (Or.inl same.symm)
    simpa [Cell.push, Nat.add_comm 1, notFeed] using ih

theorem Cell.of_text_width_lt (fence : HeaderFence) {text : Text} (fed : '\n' ∈ text) :
    (Cell.ofText fence text).width < text.length := by
  by_contra past
  have unbroken := Cell.feed_not_mem_taken fence text
  rw [List.take_of_length_le (Nat.le_of_not_lt past)] at unbroken
  exact unbroken fed

namespace DocString.Body

-- A backslash that nothing follows stands for itself, but it ends no text of whole lines.
theorem no_escape_append {c : Char} {rest : Text} (fed : (c :: rest).getLast? = some '\n')
    (notEscape : ∀ d tail, c = '\\' → rest = d :: tail → False) (more : Text) :
    ∀ d tail, c = '\\' → rest ++ more = d :: tail → False := by
  intro d tail same _
  cases rest with
  | nil => subst same; cases fed
  | cons e others => exact notEscape e others same rfl

theorem of_text_append {fence text : Text} (fed : text.getLast? = some '\n')
    (closed : (ofText fence text).raw.length < text.length) (more : Text) :
    ofText fence (text ++ more) = ofText fence text := by
  fun_induction ofText fence text with
  | case1 => cases fed
  | case2 c rest escapable ih =>
    simp only [escaped, List.length_cons] at closed
    have later : rest.getLast? = some '\n' := by
      apply Text.last_feed_rest (Text.last_feed_rest fed (by decide))
      rintro rfl
      cases escapable
    simp only [List.cons_append, ofText, escapable, ↓reduceIte]
    rw [ih later (by omega)]
  | case3 c rest mark ih =>
    simp only [plain, List.length_cons] at closed ih
    have later := Text.last_feed_rest fed (by decide)
    simp only [List.cons_append, ofText, mark] at ih ⊢
    rw [ih later (by omega)]
    rfl
  | case4 c rest notEscape closes =>
    have run := Text.fence_run_append (Text.feed_mem fed) more
    rw [List.cons_append] at run ⊢
    rw [ofText, run, if_pos closes]
    exact no_escape_append fed notEscape more
  | case5 c rest notEscape goes ih =>
    simp only [plain, List.length_cons] at closed
    have run := Text.fence_run_append (Text.feed_mem fed) more
    have later : rest.getLast? = some '\n' := by
      cases rest with
      | nil => exact absurd closed (by simp)
      | cons d tail => rwa [List.getLast?_cons_cons] at fed
    rw [List.cons_append] at run ⊢
    rw [ofText, run, if_neg goes, ih later (by omega)]
    exact no_escape_append fed notEscape more

end DocString.Body
namespace Lexeme
variable {text rest : Text}

theorem comment_append (state : LineState) (fed : '\n' ∈ rest) (more : Text) :
    comment state (rest ++ more) = comment state rest := by
  have inside : (Text.restOfLine rest).length < rest.length :=
    Text.run_length_lt fed (by decide)
  simp only [comment, Text.rest_of_line_append fed, Text.head_drop_append inside]

theorem tag_append (state : LineState) (fed : '\n' ∈ rest) (more : Text) :
    tag state (rest ++ more) = tag state rest := by
  have name : (rest ++ more).takeWhile Text.isTagChar = rest.takeWhile Text.isTagChar :=
    Text.run_append fed (by decide) more
  simp only [tag, name]

theorem cell_append (state : LineState) (fed : '\n' ∈ rest) (more : Text) :
    cell state (rest ++ more) = cell state rest := by
  have inside := Cell.of_text_width_lt {} fed
  simp only [cell, Cell.of_text_append {} fed, Text.head_drop_append inside]

theorem placeholder_append (state : LineState) (fed : '\n' ∈ rest) (more : Text) :
    placeholder state (rest ++ more) = placeholder state rest := by
  have inside := Text.line_until_length_lt (· == '>') fed
  simp only [placeholder, Text.line_until_append _ fed, Text.head_drop_append inside]

-- A doc string that ends before its text does has found its fence, all of it within the text.
theorem doc_string_append (state : LineState) (fed : text.getLast? = some '\n')
    (closed : (docString state text).width < text.length) (more : Text) :
    docString state (text ++ more) = docString state text := by
  have opening : (Text.fenceRun text).length < text.length :=
    Text.run_length_lt (Text.feed_mem fed) (by decide)
  unfold docString at closed ⊢
  dsimp only at closed ⊢
  rw [Text.fence_run_append (Text.feed_mem fed) more]
  split
  · next fence =>
    simp only [if_pos fence, List.length_take, List.length_drop] at closed
    have inside : (DocString.Body.ofText (Text.fenceRun text)
        (text.drop (Text.fenceRun text).length)).raw.length <
          (text.drop (Text.fenceRun text).length).length := by
      rw [List.length_drop]
      omega
    have body := DocString.Body.of_text_append (Text.last_feed_drop fed opening) inside more
    rw [List.drop_append_of_le_length (Nat.le_of_lt opening), body,
      List.drop_append_of_le_length (by omega),
      List.take_append_of_le_length (by rw [List.length_drop]; omega)]
  · rfl

theorem description_append (state : LineState) (fed : '\n' ∈ text) (more : Text) :
    description state (text ++ more) = description state text := by
  simp only [description, Text.rest_of_line_append fed]

theorem keyword_append (kind : TokenKind) (state : LineState) {length : Nat}
    (fed : text.getLast? = some '\n') (inside : length < text.length) (more : Text) :
    keyword kind state length (text ++ more) = keyword kind state length text := by
  have later := Text.feed_mem (Text.last_feed_drop fed inside)
  have spaces := Text.run_append (p := Text.isSpace) later (by decide) more
  simp only [keyword, List.drop_append_of_le_length (Nat.le_of_lt inside), spaces]

theorem line_start_append (language : Language) (state : LineState) {c : Char}
    (fed : (c :: rest).getLast? = some '\n')
    (closed : (lineStart language state (c :: rest)).width < (c :: rest).length) (more : Text) :
    lineStart language state (c :: rest ++ more) = lineStart language state (c :: rest) := by
  have feed := Text.feed_mem fed
  have head := Text.line_until_length_lt (· == ':') feed
  unfold lineStart at closed ⊢
  rw [Text.fence_run_append feed, Text.line_until_append _ feed]
  split
  · next fence =>
    rw [if_pos fence] at closed
    exact doc_string_append state fed closed more
  · dsimp only
    split
    · next resolved =>
      exact keyword_append _ _ fed ((Language.resolve_length_le resolved).trans_lt head) more
    · rw [Text.head_drop_append head, description_append state feed]
      split
      · next counts =>
        have colon := beq_iff_eq.mp (Bool.and_eq_true_iff.mp counts).2
        exact keyword_append _ _ fed (Text.succ_lt_of_head_drop fed colon (by decide)) more
      · rfl
    · exact description_append state feed more

theorem line_start_state (language : Language) (state : LineState) (text : Text) :
    (lineStart language state text).state.atStart = false := by
  unfold lineStart
  split
  · rw [doc_string_state]
    rfl
  · dsimp only
    split
    · rfl
    · split <;> rfl
    · rfl

theorem open_line_append (language : Language) (state : LineState) {c : Char}
    (fed : (c :: rest).getLast? = some '\n')
    (closed : (openLine language state (c :: rest)).state.atStart = true ∨
      (openLine language state (c :: rest)).width < (c :: rest).length) (more : Text) :
    openLine language state (c :: rest ++ more) = openLine language state (c :: rest) := by
  have spaces : (c :: rest ++ more).takeWhile Text.isSpace = (c :: rest).takeWhile Text.isSpace :=
    Text.run_append (Text.feed_mem fed) (by decide) more
  unfold openLine at closed ⊢
  rw [spaces]
  dsimp only at closed ⊢
  split
  · next none =>
    rw [if_pos none, line_start_state] at closed
    exact line_start_append language state fed (closed.resolve_left Bool.false_ne_true) more
  · rfl

theorem stretch_append (kind : Text → TokenKind) (state : LineState) (stop : Char → Bool)
    (fed : '\n' ∈ text) (more : Text) :
    stretch kind state stop (text ++ more) = stretch kind state stop text := by
  have read := Text.line_until_length_lt stop fed
  have first := Text.at_line_end_append (Nat.zero_lt_of_lt read) more
  simp only [List.drop_zero] at first
  simp only [stretch, Text.line_until_append stop fed, Text.at_line_end_append read, first]

theorem escape_append (state : LineState) (fed : rest.getLast? = some '\n') (more : Text) :
    escape state (rest ++ more) = escape state rest := by
  cases rest with
  | nil => cases fed
  | cons c tail =>
    unfold escape
    simp only [List.cons_append, List.head?_cons, List.tail_cons]
    split
    · next hidden =>
      have notFeed : c ≠ '\n' := by
        rintro rfl
        cases hidden
      rw [Text.line_until_append Text.isSymbol (Text.feed_mem (Text.last_feed_rest fed notFeed))]
    · rw [← List.cons_append, Text.line_until_append Text.isSymbol (Text.feed_mem fed)]

/-- A lexeme of a text of whole lines is the same whatever follows the text, unless it is a doc
string that goes on up to the end of the text. -/
theorem read_append (language : Language) (state : LineState) {c : Char}
    (fed : (c :: rest).getLast? = some '\n')
    (closed : (read language state c rest).state.atStart = true ∨
      (read language state c rest).width < (c :: rest).length) (more : Text) :
    read language state c (rest ++ more) = read language state c rest := by
  unfold read
  refine ite_congr rfl (fun _ => rfl) fun notFeed => ?_
  have fedRest := Text.last_feed_rest fed notFeed
  have later := Text.feed_mem fedRest
  refine ite_congr rfl (fun _ => comment_append state later more) fun notComment => ?_
  refine ite_congr rfl (fun _ => tag_append state later more) fun notTag => ?_
  refine ite_congr rfl (fun _ => cell_append state later more) fun notBar => ?_
  refine ite_congr rfl (fun _ => placeholder_append state later more) fun notBracket => ?_
  rw [read, if_neg notFeed, if_neg notComment, if_neg notTag, if_neg notBar,
    if_neg notBracket] at closed
  refine ite_congr rfl (fun unread => ?_) fun opened => ?_
  · rw [if_pos unread] at closed
    exact open_line_append language state fed closed more
  rw [if_neg opened] at closed
  have feed := Text.feed_mem fed
  refine ite_congr rfl (fun _ => stretch_append .title state _ feed more) fun untitled => ?_
  refine ite_congr rfl (fun mark => ?_) fun notMark => ?_
  · rw [if_neg untitled, if_pos mark, doc_string_state] at closed
    exact doc_string_append state fed (closed.resolve_left Bool.false_ne_true) more
  refine ite_congr rfl (fun _ => escape_append state fedRest more) fun notEscape => ?_
  exact ite_congr rfl (fun _ => stretch_append .matchText state _ feed more) fun _ => rfl

end Lexeme
end Gherkin
