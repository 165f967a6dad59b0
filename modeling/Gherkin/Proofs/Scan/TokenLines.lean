import Gherkin.Proofs.Scan.Walk
import Gherkin.Proofs.Token.Outcome
/-!
The lines of a token stream. What may come next on a line depends on what the line holds so far,
and a line has one of five shapes. A lexer keeps to the shapes because its own state of the line
and the text ahead of it fit the shape of the tokens that it has produced; every lexeme preserves
that, whether it is a token or stands for nothing.
-/
namespace Gherkin

namespace TokenKind

def opensLine : TokenKind → Bool
  | .scope _ | .keyword _ | .description _ => true
  | _ => false

-- The tokens that may stand anywhere on a line but behind prose.
def isInline : TokenKind → Bool
  | .tag _ | .matchText _ | .tableCell _ | .tableHeader _ => true
  | _ => false

def isTitle : TokenKind → Bool
  | .title _ => true
  | _ => false

def isDocString : TokenKind → Bool
  | .docString _ => true
  | _ => false

theorem not_opens_line {kind : TokenKind}
    (fits : kind.isInline = true ∨ kind.isTitle = true ∨ kind.isDocString = true) :
    kind.opensLine = false := by
  cases kind <;> simp [isInline, isTitle, isDocString, opensLine] at fits ⊢

end TokenKind

/-- What the tokens of a line so far amount to: none at all; those behind a structural keyword, up
to a title or past it; prose; or anything else. -/
inductive LineShape
  | empty | structural | titled | prose | plain
  deriving DecidableEq

namespace LineShape

def next : LineShape → TokenKind → Option LineShape
  | _, .newLine => some .empty
  | .prose, _ => none
  | .empty, .scope scope => if scope.isStructural then some .structural else none
  | .empty, .keyword _ => some .plain
  | .empty, .description _ => some .prose
  | .structural, .title _ => some .titled
  | .structural, kind | .titled, kind => if kind.isInline then some .structural else none
  | .empty, kind | .plain, kind =>
    if kind.isInline || kind.isDocString then some .plain else none

def after (shape : LineShape) : List TokenKind → Option LineShape
  | [] => some shape
  | kind :: kinds => (shape.next kind).bind (after · kinds)

theorem after_append (shape : LineShape) (first second : List TokenKind) :
    shape.after (first ++ second) = (shape.after first).bind (after · second) := by
  induction first generalizing shape with
  | nil => rfl
  | cons kind kinds ih =>
    simp only [List.cons_append, after]
    cases shape.next kind with
    | none => rfl
    | some middle => exact ih middle

theorem new_line_of_next_empty {shape : LineShape} {kind : TokenKind}
    (taken : shape.next kind = some .empty) : kind = .newLine := by
  cases shape <;> cases kind <;> simp [next, TokenKind.isInline, TokenKind.isDocString] at taken ⊢

theorem empty_of_next_opens {shape middle : LineShape} {kind : TokenKind}
    (opens : kind.opensLine = true) (taken : shape.next kind = some middle) : shape = .empty := by
  cases shape <;> cases kind <;>
    simp [next, TokenKind.opensLine, TokenKind.isInline, TokenKind.isDocString] at opens taken ⊢

theorem next_new_line (shape : LineShape) : shape.next .newLine = some .empty := by
  cases shape <;> rfl

-- A line is empty exactly at the ends of lines.
theorem after_eq_empty_iff {before : List TokenKind} {shape : LineShape}
    (reached : LineShape.empty.after before = some shape) :
    shape = .empty ↔ before = [] ∨ before.getLast? = some .newLine := by
  rcases List.eq_nil_or_concat before with rfl | ⟨first, last, rfl⟩
  · simp_all [after]
  · rw [List.concat_eq_append, after_append] at reached
    obtain ⟨middle, _, taken⟩ := Option.bind_eq_some_iff.mp reached
    have step : middle.next last = some shape := by simpa [after] using taken
    simp only [List.concat_eq_append, List.getLast?_append, List.getLast?_singleton]
    constructor
    · rintro rfl
      exact Or.inr (congrArg some (new_line_of_next_empty step))
    · rintro (none | ended)
      · exact absurd none (by simp)
      · cases ended
        exact Option.some.inj (step.symm.trans (next_new_line middle))

theorem next_plain {kind : TokenKind} {middle : LineShape}
    (taken : LineShape.plain.next kind = some middle) (notFeed : kind ≠ .newLine) :
    (kind.isInline = true ∨ kind.isDocString = true) ∧ middle = .plain := by
  cases kind <;> simp_all [next, TokenKind.isInline, TokenKind.isDocString]

theorem next_structural {kind : TokenKind} {shape middle : LineShape}
    (titles : shape = .structural ∨ shape = .titled) (taken : shape.next kind = some middle)
    (notFeed : kind ≠ .newLine) :
    (kind.isInline = true ∨ kind.isTitle = true) ∧ (middle = .structural ∨ middle = .titled) := by
  rcases titles with rfl | rfl <;>
    cases kind <;> simp_all [next, TokenKind.isInline, TokenKind.isTitle]

theorem plain_line {kinds : List TokenKind} {shape : LineShape}
    (reached : LineShape.plain.after kinds = some shape) (unbroken : .newLine ∉ kinds) :
    ∀ kind ∈ kinds, kind.isInline = true ∨ kind.isDocString = true := by
  induction kinds with
  | nil => intro kind member; cases member
  | cons first rest ih =>
    obtain ⟨middle, taken, later⟩ := Option.bind_eq_some_iff.mp reached
    have notFeed : first ≠ .newLine := fun same => unbroken (same ▸ List.mem_cons_self)
    obtain ⟨fits, rfl⟩ := next_plain taken notFeed
    intro kind member
    rcases List.mem_cons.mp member with rfl | inRest
    · exact fits
    · exact ih later (fun feed => unbroken (List.mem_cons_of_mem first feed)) kind inRest

theorem structural_line {kinds : List TokenKind} {shape reached : LineShape}
    (titles : shape = .structural ∨ shape = .titled) (reaches : shape.after kinds = some reached)
    (unbroken : .newLine ∉ kinds) :
    ∀ kind ∈ kinds, kind.isInline = true ∨ kind.isTitle = true := by
  induction kinds generalizing shape with
  | nil => intro kind member; cases member
  | cons first rest ih =>
    obtain ⟨middle, taken, later⟩ := Option.bind_eq_some_iff.mp reaches
    have notFeed : first ≠ .newLine := fun same => unbroken (same ▸ List.mem_cons_self)
    obtain ⟨fits, titles⟩ := next_structural titles taken notFeed
    intro kind member
    rcases List.mem_cons.mp member with rfl | inRest
    · exact fits
    · exact ih titles later (fun feed => unbroken (List.mem_cons_of_mem first feed)) kind inRest

theorem prose_line {kinds : List TokenKind} {shape : LineShape}
    (reached : LineShape.prose.after kinds = some shape) :
    kinds = [] ∨ kinds.head? = some .newLine := by
  cases kinds with
  | nil => exact Or.inl rfl
  | cons first rest =>
    obtain ⟨middle, taken, _⟩ := Option.bind_eq_some_iff.mp reached
    cases first <;> simp_all [next]

end LineShape

/-- A stretch of tokens between two line breaks or ends of the stream. -/
def IsTokenLine (line kinds : List TokenKind) : Prop :=
  ∃ before after, kinds = before ++ line ++ after ∧ .newLine ∉ line ∧
    (before = [] ∨ before.getLast? = some .newLine) ∧ (after = [] ∨ after.head? = some .newLine)

/-- The grammar of token streams. -/
structure KeepsLines (kinds : List TokenKind) : Prop where
  opening_first : ∀ before kind after, kinds = before ++ kind :: after →
    kind.opensLine = true → before = [] ∨ before.getLast? = some .newLine
  description_last : ∀ before text after, kinds = before ++ .description text :: after →
    after = [] ∨ after.head? = some .newLine
  title_behind_scope : ∀ line, IsTokenLine line kinds → (∃ text, .title text ∈ line) →
    ∃ scope rest, line = .scope scope :: rest
  scope_line : ∀ scope rest, IsTokenLine (.scope scope :: rest) kinds → ∀ kind ∈ rest,
    (∀ keyword, kind ≠ .keyword keyword) ∧ (∀ text, kind ≠ .description text) ∧
      ∀ content, kind ≠ .docString content
  titles_apart : ∀ before first second after,
    kinds ≠ before ++ .title first :: .title second :: after
  one_opening : ∀ line, IsTokenLine line kinds → line.countP TokenKind.opensLine ≤ 1
  scope_structural : ∀ scope, .scope scope ∈ kinds → scope.isStructural = true

namespace LineShape

theorem after_cons_split {shape final : LineShape} {before after : List TokenKind}
    {kind : TokenKind} (reached : shape.after (before ++ kind :: after) = some final) :
    ∃ middle behind, shape.after before = some middle ∧ middle.next kind = some behind ∧
      behind.after after = some final := by
  rw [after_append] at reached
  obtain ⟨middle, first, later⟩ := Option.bind_eq_some_iff.mp reached
  obtain ⟨behind, taken, last⟩ := Option.bind_eq_some_iff.mp later
  exact ⟨middle, behind, first, taken, last⟩

-- A line is read from the empty shape on, since it begins at the end of a line.
theorem after_token_line {line kinds : List TokenKind} {final : LineShape}
    (reached : LineShape.empty.after kinds = some final) (isLine : IsTokenLine line kinds) :
    .newLine ∉ line ∧ ∃ shape, LineShape.empty.after line = some shape := by
  obtain ⟨before, after, rfl, unbroken, opened, _⟩ := isLine
  rw [List.append_assoc, after_append] at reached
  obtain ⟨start, first, later⟩ := Option.bind_eq_some_iff.mp reached
  rw [(after_eq_empty_iff first).mpr opened, after_append] at later
  obtain ⟨shape, reachesLine, _⟩ := Option.bind_eq_some_iff.mp later
  exact ⟨unbroken, shape, reachesLine⟩

-- What stands on a line behind its first token is told by that token.
theorem token_line_cases {first : TokenKind} {rest : List TokenKind} {shape : LineShape}
    (reached : LineShape.empty.after (first :: rest) = some shape)
    (unbroken : .newLine ∉ first :: rest) :
    (∃ scope, first = .scope scope ∧ scope.isStructural = true ∧
      ∀ kind ∈ rest, kind.isInline = true ∨ kind.isTitle = true) ∨
    ((∀ scope, first ≠ .scope scope) ∧ first.isTitle = false ∧
      ∀ kind ∈ rest, kind.isInline = true ∨ kind.isDocString = true) := by
  obtain ⟨middle, taken, later⟩ := Option.bind_eq_some_iff.mp reached
  have unbrokenRest : .newLine ∉ rest := fun feed => unbroken (List.mem_cons_of_mem first feed)
  have plain (same : middle = .plain) : ∀ kind ∈ rest, kind.isInline ∨ kind.isDocString :=
    plain_line (same ▸ later) unbrokenRest
  cases first with
  | newLine => exact absurd List.mem_cons_self unbroken
  | scope scope =>
    by_cases structural : scope.isStructural = true
    · have same : middle = .structural := by simpa [next, structural] using taken.symm
      exact Or.inl ⟨scope, rfl, structural,
        structural_line (Or.inl same) later unbrokenRest⟩
    · simp [next, structural] at taken
  | title text => simp [next, TokenKind.isInline, TokenKind.isDocString] at taken
  | description text =>
    have same : middle = .prose := by simpa [next] using taken.symm
    rcases prose_line (same ▸ later) with rfl | feed
    · exact Or.inr ⟨by simp, rfl, by simp⟩
    · exact absurd (List.mem_of_head? feed) unbrokenRest
  | keyword keyword =>
    exact Or.inr ⟨by simp, rfl, plain (by simpa [next] using taken.symm)⟩
  | tag name | matchText text | tableCell text | tableHeader name | docString content =>
    refine Or.inr ⟨by simp, rfl, plain ?_⟩
    simpa [next, TokenKind.isInline, TokenKind.isDocString] using taken.symm

theorem keeps_lines {kinds : List TokenKind} {final : LineShape}
    (reached : LineShape.empty.after kinds = some final) : KeepsLines kinds where
  opening_first := by
    rintro before kind after rfl opens
    obtain ⟨middle, behind, first, taken, _⟩ := after_cons_split reached
    exact (after_eq_empty_iff first).mp (empty_of_next_opens opens taken)
  description_last := by
    rintro before text after rfl
    obtain ⟨middle, behind, _, taken, later⟩ := after_cons_split reached
    cases empty_of_next_opens rfl taken
    cases taken
    exact prose_line later
  title_behind_scope := by
    rintro line isLine ⟨text, member⟩
    obtain ⟨unbroken, shape, reachesLine⟩ := after_token_line reached isLine
    cases line with
    | nil => cases member
    | cons first rest =>
      rcases token_line_cases reachesLine unbroken with ⟨scope, rfl, _⟩ | ⟨_, untitled, plain⟩
      · exact ⟨scope, rest, rfl⟩
      · rcases List.mem_cons.mp member with rfl | later
        · cases untitled
        · rcases plain _ later with inline | docString
          · cases inline
          · cases docString
  scope_line := by
    intro scope rest isLine kind member
    obtain ⟨unbroken, shape, reachesLine⟩ := after_token_line reached isLine
    rcases token_line_cases reachesLine unbroken with ⟨_, _, _, titles⟩ | ⟨unscoped, _⟩
    · rcases titles kind member with fits | fits <;>
        refine ⟨?_, ?_, ?_⟩ <;> rintro _ rfl <;> cases fits
    · exact absurd rfl (unscoped scope)
  titles_apart := by
    rintro before first second after rfl
    obtain ⟨middle, behind, _, taken, later⟩ := after_cons_split reached
    obtain ⟨_, again, _⟩ := Option.bind_eq_some_iff.mp later
    cases middle <;> simp [next, TokenKind.isInline, TokenKind.isDocString] at taken
    subst taken
    simp [next, TokenKind.isInline] at again
  one_opening := by
    intro line isLine
    obtain ⟨unbroken, shape, reachesLine⟩ := after_token_line reached isLine
    cases line with
    | nil => exact Nat.zero_le 1
    | cons first rest =>
      have none : rest.countP TokenKind.opensLine = 0 := by
        apply List.countP_eq_zero.mpr
        intro kind member
        rw [Bool.not_eq_true]
        apply TokenKind.not_opens_line
        rcases token_line_cases reachesLine unbroken with ⟨_, _, _, fits⟩ | ⟨_, _, fits⟩
        · exact (fits kind member).imp_right Or.inl
        · exact (fits kind member).imp_right Or.inr
      rw [List.countP_cons, none]
      split <;> omega
  scope_structural := by
    intro scope member
    obtain ⟨before, after, rfl⟩ := List.append_of_mem member
    obtain ⟨middle, behind, _, taken, _⟩ := after_cons_split reached
    cases empty_of_next_opens rfl taken
    by_contra unknown
    simp [next, unknown] at taken

/-- The states of a lexer's line, and the texts ahead of it, that go with a shape. Behind a title
comes a placeholder or the end of the line, and behind prose the end of the line. -/
def Fits : LineShape → LineState → Text → Prop
  | .empty, state, _ => state.scope = none
  | .structural, state, _ => state.atStart = false ∧ state.scope.isSome = true
  | .titled, state, ahead => state.atStart = false ∧ state.scope.isSome = true ∧
    (Text.atLineEnd ahead = true ∨ ahead.head? = some '<')
  | .prose, state, ahead => state.atStart = false ∧ Text.atLineEnd ahead = true
  | .plain, state, _ => state.atStart = false ∧ state.scope = none

/-- The shape of a line after one more lexeme. -/
def Takes (shape : LineShape) (kind : LexemeKind) (later : LineShape) : Prop :=
  match kind with
  | .token kind => shape.next kind = some later
  | .comment _ _ | .trivia => later = shape

variable {shape : LineShape} {state : LineState} {c : Char} {rest : Text}

theorem empty_of_unread {ahead : Text} (fits : shape.Fits state ahead)
    (unread : state.atStart = true) : shape = .empty := by
  cases shape <;> simp_all [Fits]

theorem fits_opened {ahead : Text} (fits : shape.Fits state ahead) :
    shape.Fits state.opened ahead := by
  cases shape <;> simp_all [Fits, LineState.opened]

-- Only behind a title and behind prose does it matter what is ahead.
theorem fits_elsewhere (fits : shape.Fits state (c :: rest)) (notFeed : c ≠ '\n')
    (notBracket : c ≠ '<') (ahead : Text) : shape.Fits state ahead := by
  cases shape <;> simp_all [Fits, Text.atLineEnd]

theorem takes_inline {kind : TokenKind} (inline : kind.isInline = true)
    (fits : shape.Fits state (c :: rest)) (notFeed : c ≠ '\n') (ahead : Text) :
    ∃ later, shape.Takes (.token kind) later ∧ later.Fits state.opened ahead := by
  cases shape with
  | empty => exact ⟨.plain, by cases kind <;> simp_all [Takes, next, TokenKind.isInline], rfl, fits⟩
  | structural | titled =>
    refine ⟨.structural, ?_, rfl, ?_⟩
    · cases kind <;> simp_all [Takes, next, TokenKind.isInline]
    · simp_all [Fits, LineState.opened]
  | prose => exact absurd (beq_iff_eq.mp fits.2) notFeed
  | plain =>
    exact ⟨.plain, by cases kind <;> simp_all [Takes, next, TokenKind.isInline], rfl, fits.2⟩

theorem takes_doc_string {content : DocString} (fits : shape.Fits state (c :: rest))
    (notFeed : c ≠ '\n') (untitled : state.atStart = true ∨ state.scope = none) (ahead : Text) :
    ∃ later, shape.Takes (.token (.docString content)) later ∧ later.Fits state.opened ahead := by
  cases shape with
  | empty => exact ⟨.plain, rfl, rfl, fits⟩
  | structural | titled => rcases untitled with unread | none <;> simp_all [Fits]
  | prose => exact absurd (beq_iff_eq.mp fits.2) notFeed
  | plain => exact ⟨.plain, rfl, rfl, fits.2⟩

theorem takes_match_text (text : Text) (fits : shape.Fits state (c :: rest))
    (read : state.atStart = false) (notFeed : c ≠ '\n') (ahead : Text) :
    ∃ later, shape.Takes (.token (.matchText text)) later ∧ later.Fits state ahead := by
  have inline : (TokenKind.matchText text).isInline = true := rfl
  have taken := takes_inline inline fits notFeed ahead
  rwa [LineState.opened_of_read read] at taken

theorem takes_lexeme {language : Language} {text : Text} {lexeme : Lexeme}
    (fits : shape.Fits state text) (reads : Lexeme.Reads language state text lexeme) :
    ∃ later, shape.Takes lexeme.kind later ∧
      later.Fits lexeme.state (text.drop lexeme.width) := by
  cases reads with
  | newLine rest => exact ⟨.empty, next_new_line shape, rfl⟩
  | comment rest => exact ⟨shape, rfl, fits_elsewhere fits (by decide) (by decide) _⟩
  | tag rest => exact takes_inline rfl fits (by decide) _
  | cell rest =>
    rcases Lexeme.cell_kind state rest with none | ⟨text, some⟩ | ⟨name, some⟩
    · rw [none]
      exact ⟨shape, rfl, fits_opened (fits_elsewhere fits (by decide) (by decide) _)⟩
    · rw [some]
      exact takes_inline rfl fits (by decide) _
    · rw [some]
      exact takes_inline rfl fits (by decide) _
  | placeholder rest =>
    rw [Lexeme.placeholder_state]
    rcases Lexeme.placeholder_kind state rest with ⟨name, some⟩ | ⟨text, some⟩
    · rw [some]
      exact takes_inline rfl fits (by decide) _
    · rw [some]
      exact takes_inline rfl fits (by decide) _
  | spaces rest unread space =>
    cases empty_of_unread fits unread
    exact ⟨.empty, rfl, fits⟩
  | docString rest untitled mark =>
    have notFeed : _ ≠ '\n' := Text.ne_feed_of_fence_mark mark
    rw [Lexeme.doc_string_state]
    rcases Lexeme.doc_string_kind state _ with ⟨content, some⟩ | ⟨run, some⟩
    · rw [some]
      exact takes_doc_string fits notFeed untitled _
    · rw [some]
      exact takes_inline rfl fits notFeed _
  | step rest unread =>
    cases empty_of_unread fits unread
    exact ⟨.plain, rfl, rfl, fits⟩
  | scope rest unread _ structural =>
    cases empty_of_unread fits unread
    exact ⟨.structural, if_pos structural, rfl, rfl⟩
  | description rest unread =>
    cases empty_of_unread fits unread
    exact ⟨.prose, rfl, rfl, Text.rest_of_line_ends _⟩
  | title rest read titled notFeed notBracket =>
    have structural : shape = .structural := by
      cases shape <;> simp_all [Fits, Text.atLineEnd]
    subst structural
    rw [Lexeme.stretch_state]
    rcases Lexeme.stretch_kind .title state (· == '<') (_ :: rest) with none | ⟨text, some⟩
    · rw [none]
      exact ⟨.structural, rfl, fits⟩
    · rw [some, Lexeme.stretch_width .title state rest notFeed (by simpa using notBracket)]
      refine ⟨.titled, rfl, read, titled, ?_⟩
      refine (Text.line_until_stops _ _).imp_right ?_
      rintro ⟨stop, ahead, same⟩
      rw [ahead, beq_iff_eq.mp same]
  | escape rest read =>
    obtain ⟨text, some⟩ := Lexeme.escape_kind state rest
    rw [Lexeme.escape_state, some]
    exact takes_match_text text fits read (by decide) _
  | matchText rest read untitled stepped plain =>
    have notFeed : _ ≠ '\n' := Text.ne_feed_of_not_symbol plain
    rw [Lexeme.stretch_state]
    rcases Lexeme.stretch_kind .matchText state Text.isSymbol (_ :: rest) with none | ⟨text, some⟩
    · rw [none]
      exact ⟨shape, rfl, fits_elsewhere fits notFeed (Text.ne_bracket_of_not_symbol plain) _⟩
    · rw [some]
      exact takes_match_text text fits read notFeed _
  | skip rest read untitled unstepped plain =>
    exact ⟨shape, rfl, fits_elsewhere fits (Text.ne_feed_of_not_symbol plain)
      (Text.ne_bracket_of_not_symbol plain) _⟩

theorem after_walk {context : ScanContext} {lexer : Lexer} {run : Run}
    (walk : Lexer.Walk context lexer run) {shape : LineShape}
    (fits : shape.Fits lexer.state lexer.cursor.ahead) :
    ∃ final, shape.after (run.tokens.map (·.kind)) = some final := by
  induction walk generalizing shape with
  | ended => exact ⟨shape, rfl⟩
  | token found _ ih =>
    obtain ⟨lexeme, reads, isToken, _, rfl⟩ := Lexer.read_token_inversion found
    obtain ⟨later, taken, fitsLater⟩ := takes_lexeme fits reads
    rw [isToken] at taken
    obtain ⟨final, reached⟩ := ih (by simpa using fitsLater)
    exact ⟨final, Option.bind_eq_some_iff.mpr ⟨later, taken, reached⟩⟩
  | trivia found _ ih =>
    obtain ⟨lexeme, reads, isTrivia, rfl⟩ := Lexer.read_trivia_inversion found
    obtain ⟨later, taken, fitsLater⟩ := takes_lexeme fits reads
    rw [isTrivia] at taken
    cases taken
    exact ih (by simpa using fitsLater)
  | comment found _ ih =>
    obtain ⟨lexeme, reads, isComment, _, rfl⟩ := Lexer.read_comment_inversion found
    obtain ⟨later, taken, fitsLater⟩ := takes_lexeme fits reads
    rw [isComment] at taken
    cases taken
    exact ih (by simpa using fitsLater)

end LineShape

-- A lexer at the start of its text has shown no token, and its line is in a fresh state.
theorem drain_keeps_lines (text : Text) (source : Option Text) (context : ScanContext) :
    KeepsLines (((Lexer.ofText text source).drain context).tokens.map (·.kind)) := by
  have walk := Lexer.walk_drain context (Lexer.ofText text source)
  have fits : LineShape.empty.Fits (Lexer.ofText text source).state text := rfl
  obtain ⟨final, reached⟩ := LineShape.after_walk walk fits
  exact LineShape.keeps_lines reached

end Gherkin
