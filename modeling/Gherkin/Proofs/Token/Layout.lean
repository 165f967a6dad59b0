import Gherkin.Proofs.Text.Lines
import Gherkin.Proofs.Text.Trimmed
import Gherkin.Proofs.Token.Body
/-!
Doc strings as they are written. A text in which every quote, backtick and backslash is escaped
shows no fence, so as a body it is read to its end and means what was written. A content of which
each line is indented alike comes out of the layout without the indentation, provided that nothing
in it looks like layout: that its first line begins with no space and its last line is not blank.
-/
namespace Gherkin

theorem Text.feed_not_mem_spaces {text : Text} (spaces : ∀ c ∈ text, isSpace c = true) :
    '\n' ∉ text := fun feed => Bool.noConfusion (spaces '\n' feed)

namespace DocString

/-- A text as it is written in a body: with a backslash before every quote, backtick and
backslash. -/
def encode (text : Text) : Text :=
  text.flatMap fun c => if isEscapable c then ['\\', c] else [c]

/-- Whether nothing at either end of a content looks like layout. -/
structure IsContent (text : Text) : Prop where
  first : ∀ line, (Text.lines text).head? = some line →
    ∃ c, line.head? = some c ∧ Text.isSpace c = false
  last : ∀ line, (Text.lines text).getLast? = some line → Text.isBlankText line = false

variable {fence text more line indent type : Text}

theorem encode_cons (c : Char) (rest : Text) :
    encode (c :: rest) = (if isEscapable c then ['\\', c] else [c]) ++ encode rest := rfl

theorem encode_append (front back : Text) : encode (front ++ back) = encode front ++ encode back :=
  List.flatMap_append

theorem not_escapable_of_space {c : Char} (space : Text.isSpace c = true) :
    isEscapable c = false := by
  rw [Bool.eq_false_iff]
  intro escapable
  have member := is_escapable_iff.mp escapable
  simp only [DocString.escapable, List.mem_cons, List.not_mem_nil, or_false] at member
  rcases member with rfl | rfl | rfl <;> cases space

theorem encode_spaces (spaces : ∀ c ∈ text, Text.isSpace c = true) : encode text = text := by
  induction text with
  | nil => rfl
  | cons c rest ih =>
    have kept := not_escapable_of_space (spaces c List.mem_cons_self)
    rw [encode_cons, ih fun d member => spaces d (List.mem_cons_of_mem c member), kept]
    rfl

theorem encode_lines (spaces : ∀ c ∈ indent, Text.isSpace c = true) (lines : List Text) :
    encode (lines.flatMap fun line => indent ++ line ++ ['\n']) =
      lines.flatMap fun line => indent ++ encode line ++ ['\n'] := by
  induction lines with
  | nil => rfl
  | cons line rest ih =>
    rw [List.flatMap_cons, List.flatMap_cons, encode_append, encode_append, encode_append,
      encode_spaces spaces, ih]
    rfl

-- What is written begins with no mark, so it does not make the opening fence any longer.
theorem encode_head_unmarked (some : text ≠ []) (more : Text) :
    (encode text ++ more).head?.any Text.isFenceMark = false := by
  obtain ⟨c, rest, rfl⟩ := List.exists_cons_of_ne_nil some
  rw [encode_cons]
  cases escapes : isEscapable c with
  | true => rfl
  | false => exact (Bool.or_eq_false_iff.mp escapes).1

theorem Body.of_text_encode (fenced : Text.isFence fence = true)
    (maximal : more.head?.any Text.isFenceMark = false) (text : Text) :
    ofText fence (encode text ++ (fence ++ more)) = ⟨encode text, text⟩ := by
  induction text with
  | nil =>
    have run := Text.fence_run_of_is_fence fenced maximal
    obtain ⟨mark, others, rfl⟩ : ∃ mark others, fence = mark :: others := by
      rcases Text.is_fence_iff.mp fenced with rfl | rfl <;> exact ⟨_, _, rfl⟩
    have marked := Text.mark_of_is_fence fenced mark List.mem_cons_self
    show ofText (mark :: others) (mark :: (others ++ more)) = _
    rw [ofText, marked, Bool.true_and]
    · exact if_pos (beq_iff_eq.mpr run)
    · rintro d tail rfl
      cases marked
  | cons c rest ih =>
    rw [encode_cons]
    cases escapes : isEscapable c with
    | true =>
      show ofText fence ('\\' :: c :: (encode rest ++ (fence ++ more))) = _
      rw [ofText, if_pos escapes, ih]
      rfl
    | false =>
      obtain ⟨unmarked, notBackslash⟩ := Bool.or_eq_false_iff.mp escapes
      show ofText fence (c :: (encode rest ++ (fence ++ more))) = _
      rw [ofText, unmarked, ih]
      · rfl
      · rintro d tail rfl
        cases notBackslash

theorem indented_run (indented : ∀ c ∈ indent, Text.isSpace c = true) (line : Text) :
    (indent ++ line).takeWhile Text.isSpace = indent ++ line.takeWhile Text.isSpace :=
  List.takeWhile_append_of_pos indented

theorem unindent_indented (indented : ∀ c ∈ indent, Text.isSpace c = true) (line : Text) :
    unindent indent.length (indent ++ line) = line := by
  have less : indent.length ≤ ((indent ++ line).takeWhile Text.isSpace).length := by
    rw [indented_run indented, List.length_append]
    exact Nat.le_add_right _ _
  rw [unindent, Nat.min_eq_left less, List.drop_left]

theorem indentation_indented (indented : ∀ c ∈ indent, Text.isSpace c = true) {c : Char}
    (head : line.head? = some c) (visible : Text.isSpace c = false) (unbroken : '\n' ∉ line)
    (others : List Text) : indentation ((indent ++ line) :: others) = indent.length := by
  obtain ⟨rest, rfl⟩ := List.head?_eq_some_iff.mp head
  have notFeed : c ≠ '\n' := fun same => unbroken (same ▸ List.mem_cons_self)
  have shown : Text.isBlankText (indent ++ c :: rest) = false := by
    have dark : Text.isBlank c = false := by simpa [Text.isSpace, notFeed] using visible
    simp [Text.isBlankText, dark]
  rw [indentation, shown, indented_run indented, List.takeWhile_cons_of_neg (by simpa using visible)]
  simp

theorem layout_of_lines (raw : Text) {decoded : Text} {content : List Text}
    (cut : Text.lines decoded = type :: content) (named : Text.IsTrimmed Text.isBlank type) :
    layout raw decoded =
      ⟨raw,
        Text.unlines (Text.trimEnd Text.isBlankText (content.map (unindent (indentation content)))),
        if type = [] then none else some type⟩ := by
  unfold layout
  rw [cut]
  simp only [List.headD_cons, List.tail_cons, Text.trim_of_trimmed named]

/-- A doc string that is to be written: its content and content type, the fence around them, and
the spaces in front of the opening fence, of each line of the content and of the closing fence. -/
structure Draft where
  fence : Text
  type : Text
  text : Text
  before : Text
  indent : Text
  after : Text
  fenced : Text.isFence fence = true
  named : Text.IsTrimmed Text.isBlank type
  oneLine : '\n' ∉ type
  content : IsContent text
  spaced : ∀ c ∈ before ++ indent ++ after, Text.isSpace c = true

namespace Draft
variable (draft : Draft)

/-- The body as it is written between the fences. -/
def body : Text :=
  encode draft.type ++
    '\n' :: ((Text.lines draft.text).flatMap (fun line => draft.indent ++ encode line ++ ['\n']) ++
      draft.after)

def written : Text := draft.before ++ (draft.fence ++ (draft.body ++ draft.fence))

def docString : DocString :=
  ⟨draft.body, draft.text, if draft.type = [] then none else some draft.type⟩

/-- The body before its meaningful characters are escaped. -/
def decoded : Text :=
  draft.type ++
    '\n' :: ((Text.lines draft.text).flatMap (fun line => draft.indent ++ line ++ ['\n']) ++
      draft.after)

theorem before_spaces : ∀ c ∈ draft.before, Text.isSpace c = true := fun c member =>
  draft.spaced c (List.mem_append_left _ (List.mem_append_left _ member))

theorem indent_spaces : ∀ c ∈ draft.indent, Text.isSpace c = true := fun c member =>
  draft.spaced c (List.mem_append_left _ (List.mem_append_right _ member))

theorem after_spaces : ∀ c ∈ draft.after, Text.isSpace c = true := fun c member =>
  draft.spaced c (List.mem_append_right _ member)

theorem encode_decoded : encode draft.decoded = draft.body := by
  have feed (rest : Text) : encode ('\n' :: rest) = '\n' :: encode rest := rfl
  rw [decoded, encode_append, feed, encode_append, encode_lines draft.indent_spaces,
    encode_spaces draft.after_spaces]
  rfl

theorem decoded_lines :
    Text.lines draft.decoded =
      draft.type :: ((Text.lines draft.text).map (draft.indent ++ ·) ++ [draft.after]) := by
  have unbroken : ∀ line ∈ (Text.lines draft.text).map (draft.indent ++ ·), '\n' ∉ line := by
    intro line member
    obtain ⟨shown, inside, rfl⟩ := List.mem_map.mp member
    exact List.not_mem_append (Text.feed_not_mem_spaces draft.indent_spaces)
      (Text.feed_not_mem_line inside)
  rw [decoded, Text.lines_behind_line draft.oneLine,
    ← Text.lines_of_line (Text.feed_not_mem_spaces draft.after_spaces),
    ← Text.lines_of_ended unbroken, List.flatMap_map]

theorem decoded_indentation :
    indentation ((Text.lines draft.text).map (draft.indent ++ ·) ++ [draft.after]) =
      draft.indent.length := by
  cases lines : Text.lines draft.text with
  | nil => exact absurd lines (Text.split_on_ne_nil _ draft.text)
  | cons first others =>
    obtain ⟨c, head, visible⟩ := draft.content.first first (by rw [lines]; rfl)
    have member : first ∈ Text.lines draft.text := by
      rw [lines]
      exact List.mem_cons_self
    exact indentation_indented draft.indent_spaces head visible (Text.feed_not_mem_line member) _

/-- What is laid out in indented lines is found again. -/
theorem layout_decoded : layout draft.body draft.decoded = draft.docString := by
  have shown : ((Text.lines draft.text).map (draft.indent ++ ·) ++ [draft.after]).map
      (unindent draft.indent.length) =
        Text.lines draft.text ++ [unindent draft.indent.length draft.after] := by
    rw [List.map_append, List.map_map, Function.comp_def]
    simp only [unindent_indented draft.indent_spaces, List.map_id', List.map_cons, List.map_nil]
  have blank : Text.isBlankText (unindent draft.indent.length draft.after) = true :=
    List.all_eq_true.mpr fun c member =>
      Text.is_blank_of_is_space (draft.after_spaces c (List.mem_of_mem_drop member))
  rw [layout_of_lines draft.body draft.decoded_lines draft.named, decoded_indentation, shown,
    Text.trim_end_append_last blank, Text.trim_end_of_last draft.content.last, Text.unlines_lines]
  rfl

end Draft

end DocString

theorem Lexeme.doc_string_encoded (state : LineState) {fence text more : Text}
    (fenced : Text.isFence fence = true) (some : text ≠ [])
    (maximal : more.head?.any Text.isFenceMark = false) :
    docString state (fence ++ (DocString.encode text ++ (fence ++ more))) =
      ⟨.token (.docString (DocString.layout (DocString.encode text) text)),
        fence.length + (DocString.encode text).length + fence.length, state.opened⟩ := by
  have opening := Text.fence_run_of_is_fence fenced
    (DocString.encode_head_unmarked some (fence ++ more))
  unfold docString
  rw [opening, if_pos fenced]
  simp only [List.drop_left, DocString.Body.of_text_encode fenced maximal, ← List.drop_drop,
    List.take_left]

end Gherkin
