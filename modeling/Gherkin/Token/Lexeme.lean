import Gherkin.Language.Resolve
import Gherkin.Token.Basic
import Gherkin.Token.Cell
/-!
Lexemes are the pieces that a text is read in. Which lexeme comes next depends on the language, on
what the line has shown so far and on the text ahead, and on nothing else. A lexeme tells what it
is, how many characters it takes and what the line has shown after it; it takes at least one
character.

The marks of line breaks, comments, tags, cells and placeholders come first, whatever the line.
Then the start of a line is read for a fence, a keyword or prose; behind a structural keyword all
is title; and behind a step keyword all but doc strings and escapes is text to be matched.
-/
namespace Gherkin

/-- What a line has shown so far: whether that is nothing but spaces and comments, and the
structural scope and the step keyword that have been read on it. -/
structure LineState where
  atStart : Bool := true
  scope : Option Scope := none
  keyword : Option StepKeyword := none
  deriving DecidableEq

def LineState.opened (state : LineState) : LineState := { state with atStart := false }

inductive LexemeKind
  | token (kind : TokenKind)
  | comment (body : Text) (breaksLine : Bool)
  | trivia
  deriving DecidableEq

structure Lexeme where
  kind : LexemeKind
  width : Nat
  state : LineState
  deriving DecidableEq

namespace Lexeme

def newLine : Lexeme := ⟨.token .newLine, 1, {}⟩

/-- A comment, from the text behind its mark. It goes to the end of the line, and takes the line
feed too when nothing stands before it on the line. -/
def comment (state : LineState) (rest : Text) : Lexeme :=
  let body := Text.restOfLine rest
  let breaksLine := state.atStart && (rest.drop body.length).head? == some '\n'
  ⟨.comment body breaksLine, 1 + body.length + (if breaksLine then 1 else 0), state⟩

def tag (state : LineState) (rest : Text) : Lexeme :=
  let name := rest.takeWhile Text.isTagChar
  ⟨.token (.tag name), 1 + name.length, state.opened⟩

/-- A cell of a table, from the text behind its bar. A cell that no further bar closes stands for
nothing. -/
def cell (state : LineState) (rest : Text) : Lexeme :=
  let cell := Cell.ofText {} rest
  let text := Text.trim Text.isSpace cell.text
  let kind : TokenKind :=
    if cell.fence.isFenced then .tableHeader (Text.trim Text.isSpace (Cell.unfenced text))
    else .tableCell text
  let closed := (rest.drop cell.width).head? == some '|'
  ⟨if closed then .token kind else .trivia, 1 + cell.width, state.opened⟩

/-- A placeholder, from the text behind its opening bracket. One that is not closed on its line is
text to be matched. -/
def placeholder (state : LineState) (rest : Text) : Lexeme :=
  let name := Text.lineUntil (· == '>') rest
  if (rest.drop name.length).head? = some '>' then
    ⟨.token (.tableHeader name), 1 + name.length + 1, state.opened⟩
  else ⟨.token (.matchText ('<' :: name)), 1 + name.length, state.opened⟩

def docString (state : LineState) (text : Text) : Lexeme :=
  let opening := Text.fenceRun text
  if Text.isFence opening then
    let body := DocString.Body.ofText opening (text.drop opening.length)
    let bodyEnd := opening.length + body.raw.length
    let closing := (text.drop bodyEnd).take opening.length
    ⟨.token (.docString (DocString.layout body.raw body.decoded)), bodyEnd + closing.length,
      state.opened⟩
  else ⟨.token (.matchText opening), opening.length, state.opened⟩

def description (state : LineState) (text : Text) : Lexeme :=
  let line := Text.restOfLine text
  ⟨.token (.description (Text.trim Text.isSpace line)), line.length, state.opened⟩

def keyword (kind : TokenKind) (state : LineState) (length : Nat) (text : Text) : Lexeme :=
  ⟨.token kind, length + ((text.drop length).takeWhile Text.isSpace).length, state⟩

/-- The first lexeme of a line, behind its marks and spaces. A structural keyword counts only
with a colon behind it, which belongs to the keyword. -/
def lineStart (language : Language) (state : LineState) (text : Text) : Lexeme :=
  if Text.isFence (Text.fenceRun text) then docString state text
  else
    let head := Text.lineUntil (· == ':') text
    match language.resolve head with
    | some ⟨.step step, length⟩ =>
      keyword (.keyword step) { state.opened with keyword := some step } length text
    | some ⟨scope, _⟩ =>
      if scope.isStructural && (text.drop head.length).head? == some ':' then
        keyword (.scope scope) { state.opened with scope := some scope } (head.length + 1) text
      else description state text
    | none => description state text

def openLine (language : Language) (state : LineState) (text : Text) : Lexeme :=
  let spaces := text.takeWhile Text.isSpace
  if spaces.isEmpty then lineStart language state text else ⟨.trivia, spaces.length, state⟩

/-- Text of one kind up to a stop character, trimmed at its end where the line ends. Text of
spaces alone stands for nothing there, and so does a stop character where text should begin. -/
def stretch (kind : Text → TokenKind) (state : LineState) (stop : Char → Bool) (text : Text) :
    Lexeme :=
  let read := Text.lineUntil stop text
  if read.isEmpty && !Text.atLineEnd text then ⟨.trivia, 1, state⟩
  else
    let shown :=
      if Text.atLineEnd (text.drop read.length) then Text.trimEnd Text.isSpace read else read
    ⟨if shown.isEmpty then .trivia else .token (kind shown), read.length, state⟩

/-- Text to be matched that a backslash opens, from the text behind it. The backslash hides the
meaning of a symbol; before any other character it stands for itself. A hidden comment mark stands
alone. -/
def escape (state : LineState) (rest : Text) : Lexeme :=
  match rest.head?.filter fun c => Text.isSymbol c && c != '\n' with
  | some c =>
    let read := if c = '#' then [] else Text.lineUntil Text.isSymbol rest.tail
    ⟨.token (.matchText (c :: read)), 2 + read.length, state⟩
  | none =>
    let read := Text.lineUntil Text.isSymbol rest
    ⟨.token (.matchText ('\\' :: read)), 1 + read.length, state⟩

def read (language : Language) (state : LineState) (c : Char) (rest : Text) : Lexeme :=
  if c = '\n' then newLine
  else if c = '#' then comment state rest
  else if c = '@' then tag state rest
  else if c = '|' then cell state rest
  else if c = '<' then placeholder state rest
  else if state.atStart then openLine language state (c :: rest)
  else if state.scope.isSome then stretch .title state (· == '<') (c :: rest)
  else if Text.isFenceMark c then docString state (c :: rest)
  else if c = '\\' then escape state rest
  else if state.keyword.isSome then stretch .matchText state Text.isSymbol (c :: rest)
  else ⟨.trivia, 1, state⟩

/-- The lexemes that a text can begin with in a state of its line, each with what makes it the one
that is read. -/
inductive Reads (language : Language) (state : LineState) : Text → Lexeme → Prop
  | newLine (rest : Text) : Reads language state ('\n' :: rest) newLine
  | comment (rest : Text) : Reads language state ('#' :: rest) (comment state rest)
  | tag (rest : Text) : Reads language state ('@' :: rest) (tag state rest)
  | cell (rest : Text) : Reads language state ('|' :: rest) (cell state rest)
  | placeholder (rest : Text) : Reads language state ('<' :: rest) (placeholder state rest)
  | spaces {c : Char} (rest : Text) (unread : state.atStart = true)
      (space : Text.isSpace c = true) :
      Reads language state (c :: rest)
        ⟨.trivia, ((c :: rest).takeWhile Text.isSpace).length, state⟩
  | docString {c : Char} (rest : Text) (untitled : state.atStart = true ∨ state.scope = none)
      (mark : Text.isFenceMark c = true) :
      Reads language state (c :: rest) (docString state (c :: rest))
  | step {c : Char} (rest : Text) {step : StepKeyword} {length : Nat}
      (unread : state.atStart = true) (visible : Text.isBlank c = false)
      (resolved : language.resolve (Text.lineUntil (· == ':') (c :: rest)) =
        some ⟨.step step, length⟩) :
      Reads language state (c :: rest)
        (keyword (.keyword step) { state.opened with keyword := some step } length (c :: rest))
  | scope {c : Char} (rest : Text) {scope : Scope} (unread : state.atStart = true)
      (visible : Text.isBlank c = false) (structural : scope.isStructural = true)
      (colon : ((c :: rest).drop (Text.lineUntil (· == ':') (c :: rest)).length).head? = some ':') :
      Reads language state (c :: rest)
        (keyword (.scope scope) { state.opened with scope := some scope }
          ((Text.lineUntil (· == ':') (c :: rest)).length + 1) (c :: rest))
  | description {c : Char} (rest : Text) (unread : state.atStart = true)
      (visible : Text.isBlank c = false) :
      Reads language state (c :: rest) (description state (c :: rest))
  | title {c : Char} (rest : Text) (read : state.atStart = false)
      (titled : state.scope.isSome = true) (notFeed : c ≠ '\n') (notBracket : c ≠ '<') :
      Reads language state (c :: rest) (stretch .title state (· == '<') (c :: rest))
  | escape (rest : Text) (read : state.atStart = false) (untitled : state.scope = none) :
      Reads language state ('\\' :: rest) (escape state rest)
  | matchText {c : Char} (rest : Text) (read : state.atStart = false)
      (untitled : state.scope = none) (stepped : state.keyword.isSome = true)
      (plain : Text.isSymbol c = false) :
      Reads language state (c :: rest) (stretch .matchText state Text.isSymbol (c :: rest))
  | skip {c : Char} (rest : Text) (read : state.atStart = false) (untitled : state.scope = none)
      (unstepped : state.keyword = none) (plain : Text.isSymbol c = false) :
      Reads language state (c :: rest) ⟨.trivia, 1, state⟩

theorem line_start_reads (language : Language) (state : LineState) {c : Char} (rest : Text)
    (unread : state.atStart = true) (visible : Text.isBlank c = false) :
    Reads language state (c :: rest) (lineStart language state (c :: rest)) := by
  unfold lineStart
  split
  · next fenced =>
    exact Reads.docString rest (Or.inl unread) (Text.mark_of_fence_run fenced)
  · dsimp only
    split
    · next resolved => exact Reads.step rest unread visible resolved
    · split
      · next counts =>
        have both := Bool.and_eq_true_iff.mp counts
        exact Reads.scope rest unread visible both.1 (beq_iff_eq.mp both.2)
      · exact Reads.description rest unread visible
    · exact Reads.description rest unread visible

theorem open_line_reads (language : Language) (state : LineState) {c : Char} (rest : Text)
    (unread : state.atStart = true) (notFeed : c ≠ '\n') :
    Reads language state (c :: rest) (openLine language state (c :: rest)) := by
  unfold openLine
  cases space : Text.isSpace c with
  | true =>
    have some : ((c :: rest).takeWhile Text.isSpace).isEmpty = false := by simp [space]
    simp only [some, Bool.false_eq_true, ↓reduceIte]
    exact Reads.spaces rest unread space
  | false =>
    have none : ((c :: rest).takeWhile Text.isSpace).isEmpty = true := by simp [space]
    have visible : Text.isBlank c = false := by simpa [Text.isSpace, notFeed] using space
    simp only [none, ↓reduceIte]
    exact line_start_reads language state rest unread visible

theorem read_reads (language : Language) (state : LineState) (c : Char) (rest : Text) :
    Reads language state (c :: rest) (read language state c rest) := by
  unfold read
  by_cases feed : c = '\n'
  · rw [if_pos feed]
    exact feed ▸ Reads.newLine rest
  rw [if_neg feed]
  by_cases mark : c = '#'
  · rw [if_pos mark]
    exact mark ▸ Reads.comment rest
  rw [if_neg mark]
  by_cases tagged : c = '@'
  · rw [if_pos tagged]
    exact tagged ▸ Reads.tag rest
  rw [if_neg tagged]
  by_cases bar : c = '|'
  · rw [if_pos bar]
    exact bar ▸ Reads.cell rest
  rw [if_neg bar]
  by_cases bracket : c = '<'
  · rw [if_pos bracket]
    exact bracket ▸ Reads.placeholder rest
  rw [if_neg bracket]
  by_cases unread : state.atStart = true
  · rw [if_pos unread]
    exact open_line_reads language state rest unread feed
  rw [if_neg unread]
  have read : state.atStart = false := Bool.not_eq_true _ ▸ unread
  by_cases titled : state.scope.isSome = true
  · rw [if_pos titled]
    exact Reads.title rest read titled feed bracket
  rw [if_neg titled]
  have untitled : state.scope = none := Option.not_isSome_iff_eq_none.mp titled
  by_cases fence : Text.isFenceMark c = true
  · rw [if_pos fence]
    exact Reads.docString rest (Or.inr untitled) fence
  rw [if_neg fence]
  by_cases escapes : c = '\\'
  · rw [if_pos escapes]
    exact escapes ▸ Reads.escape rest read untitled
  rw [if_neg escapes]
  have plain : Text.isSymbol c = false := by
    simp [Text.isSymbol, feed, mark, tagged, bar, bracket, fence, escapes]
  by_cases stepped : state.keyword.isSome = true
  · rw [if_pos stepped]
    exact Reads.matchText rest read untitled stepped plain
  rw [if_neg stepped]
  exact Reads.skip rest read untitled (Option.not_isSome_iff_eq_none.mp stepped) plain

-- Every lexeme takes a character, so reading lexemes one after another comes to an end.

theorem doc_string_width_pos (state : LineState) {c : Char} (rest : Text)
    (mark : Text.isFenceMark c = true) : 0 < (docString state (c :: rest)).width := by
  have marked : Text.fenceRun (c :: rest) ≠ [] := by simp [Text.fenceRun, mark]
  have present := List.length_pos_iff.mpr marked
  simp only [docString]
  split <;> simp only <;> omega

theorem description_width_pos (state : LineState) {c : Char} (rest : Text) (notFeed : c ≠ '\n') :
    0 < (description state (c :: rest)).width := by
  simp [description, Text.rest_of_line_cons rest notFeed]

theorem stretch_width_pos (kind : Text → TokenKind) (state : LineState) {stop : Char → Bool}
    {c : Char} (rest : Text) (notFeed : c ≠ '\n') (goes : stop c = false) :
    0 < (stretch kind state stop (c :: rest)).width := by
  simp [stretch, Text.line_until_cons rest notFeed goes]

theorem escape_width_pos (state : LineState) (rest : Text) : 0 < (escape state rest).width := by
  unfold escape
  split <;> simp only <;> omega

theorem width_pos_of_reads {language : Language} {state : LineState} {text : Text} {lexeme : Lexeme}
    (reads : Reads language state text lexeme) : 0 < lexeme.width := by
  cases reads with
  | newLine => exact Nat.one_pos
  | comment => simp only [comment]; omega
  | tag => simp only [tag]; omega
  | cell => simp only [cell]; omega
  | placeholder =>
    unfold placeholder
    dsimp only
    split <;> simp only <;> omega
  | spaces _ _ space => simp [space]
  | docString rest _ mark => exact doc_string_width_pos state rest mark
  | step _ _ _ resolved =>
    have taken := Language.resolve_length_pos resolved
    simp only [keyword] at taken ⊢
    omega
  | scope => simp only [keyword]; omega
  | description rest _ visible =>
    exact description_width_pos state rest (Text.ne_feed_of_not_blank visible)
  | title rest _ _ notFeed notBracket =>
    exact stretch_width_pos .title state rest notFeed (by simpa using notBracket)
  | escape rest => exact escape_width_pos state rest
  | matchText rest _ _ _ plain =>
    exact stretch_width_pos .matchText state rest (Text.ne_feed_of_not_symbol plain) plain
  | skip => exact Nat.one_pos

theorem read_width_pos (language : Language) (state : LineState) (c : Char) (rest : Text) :
    0 < (read language state c rest).width :=
  width_pos_of_reads (read_reads language state c rest)

end Lexeme
end Gherkin
