import Mathlib.Data.List.Forall2
import Gherkin.Proofs.Scan.Heeding
/-!
Two lexers side by side. What a lexer reads depends on the text ahead and on what its line has
shown, and not on where the text stands. So lexers that agree in both read the same tokens and the
same comments, lexeme by lexeme, as long as they agree in the language; and the places of what they
read are related in the way in which the lexers' own places are.

That way is any relation of two places with the same text ahead that goes on from one character to
the next.
-/
namespace Gherkin

/-- Whether a relation of two places with the same text ahead goes on behind each character. -/
def Place.Kept (near : Text → Place → Place → Prop) : Prop :=
  ∀ (c : Char) (rest : Text) (first second : Place),
    near (c :: rest) first second → near rest (first.after c) (second.after c)

theorem Place.kept_drop {near : Text → Place → Place → Prop} (kept : Place.Kept near) (count : Nat)
    {text : Text} {first second : Place} (beside : near text first second) :
    near (text.drop count) ((text.take count).foldl after first)
      ((text.take count).foldl after second) := by
  induction count generalizing text first second with
  | zero => exact beside
  | succ count ih =>
    cases text with
    | nil => exact beside
    | cons c rest => exact ih (kept _ _ _ _ beside)

section
variable (near : Text → Place → Place → Prop)

structure Position.Beside (position other : Position) : Prop where
  place : ∃ ahead, near ahead position.toPlace other.toPlace
  source : other.source = position.source

structure Token.Beside (token other : Token) : Prop where
  position : Position.Beside near token.position other.position
  kind : other.kind = token.kind

structure Comment.Beside (comment other : Comment) : Prop where
  position : Position.Beside near comment.position other.position
  body : other.body = comment.body
  breaksLine : other.breaksLine = comment.breaksLine

inductive Reading.Beside : Reading → Reading → Prop
  | token {token other : Token} (beside : Token.Beside near token other) :
      Beside (.token token) (.token other)
  | comment {comment other : Comment} (beside : Comment.Beside near comment other) :
      Beside (.comment comment) (.comment other)
  | trivia : Beside .trivia .trivia

/-- Two lexers that have the same to read on a line in the same state. -/
structure Lexer.Beside (lexer other : Lexer) : Prop where
  ahead : other.cursor.ahead = lexer.cursor.ahead
  state : other.state = lexer.state
  place : near lexer.cursor.ahead lexer.cursor.place other.cursor.place
  source : other.cursor.source = lexer.cursor.source

end

theorem Comment.code_beside {near : Text → Place → Place → Prop} {comment other : Comment}
    (beside : Comment.Beside near comment other) : other.code? = comment.code? :=
  congrArg codeOf? beside.body

theorem LexemeKind.reading_beside {near : Text → Place → Place → Prop} {position other : Position}
    (beside : Position.Beside near position other) (kind : LexemeKind) :
    Reading.Beside near (kind.reading position) (kind.reading other) := by
  cases kind with
  | token kind => exact Reading.Beside.token ⟨beside, rfl⟩
  | comment body breaksLine => exact Reading.Beside.comment ⟨beside, rfl, rfl⟩
  | trivia => exact Reading.Beside.trivia

namespace Lexer
variable {near : Text → Place → Place → Prop} {lexer other : Lexer}

theorem beside_advance (kept : Place.Kept near) (beside : Beside near lexer other) (width : Nat)
    (state : LineState) :
    Beside near ⟨lexer.cursor.advanceBy width, state⟩ ⟨other.cursor.advanceBy width, state⟩ where
  ahead := by simp [beside.ahead]
  state := rfl
  place := by
    rw [Cursor.advance_by_ahead, Cursor.advance_by_place, Cursor.advance_by_place, beside.ahead]
    exact Place.kept_drop kept width beside.place
  source := by simp [beside.source]

theorem read_beside (kept : Place.Kept near) (beside : Beside near lexer other)
    {language : Language} {reading : Reading} {after : Lexer}
    (found : lexer.read language = some (reading, after)) :
    ∃ again beyond, other.read language = some (again, beyond) ∧
      Reading.Beside near reading again ∧ Beside near after beyond := by
  unfold read at found ⊢
  rw [beside.ahead, beside.state]
  split at found
  · cases found
  · next c rest ahead =>
    cases found
    have positions : Position.Beside near lexer.position other.position :=
      ⟨⟨_, beside.place⟩, beside.source⟩
    exact ⟨_, _, rfl, LexemeKind.reading_beside positions _, beside_advance kept beside _ _⟩

theorem walk_beside (kept : Place.Kept near) {context elsewhere : ScanContext} {run : Run}
    (walk : Walk context lexer run) (beside : Beside near lexer other)
    (same : elsewhere.language = context.language) :
    ∃ beyond, Walk elsewhere other beyond ∧
      List.Forall₂ (Token.Beside near) run.tokens beyond.tokens ∧
      List.Forall₂ (Comment.Beside near) run.comments beyond.comments := by
  induction walk generalizing other elsewhere with
  | ended done => exact ⟨_, Walk.ended (beside.ahead.trans done), .nil, .nil⟩
  | token found _ ih =>
    obtain ⟨_, _, again, reading, later⟩ := read_beside kept beside found
    cases reading with
    | token token =>
      obtain ⟨beyond, walk, tokens, comments⟩ := ih later same
      exact ⟨_, Walk.token (same ▸ again) walk, .cons token tokens, comments⟩
  | trivia found _ ih =>
    obtain ⟨_, _, again, reading, later⟩ := read_beside kept beside found
    cases reading with
    | trivia =>
      obtain ⟨beyond, walk, tokens, comments⟩ := ih later same
      exact ⟨_, Walk.trivia (same ▸ again) walk, tokens, comments⟩
  | comment found _ ih =>
    obtain ⟨_, _, again, reading, later⟩ := read_beside kept beside found
    cases reading with
    | comment comment =>
      have heeded := ScanContext.heed_language_of_code same (Comment.code_beside comment)
      obtain ⟨beyond, walk, tokens, comments⟩ := ih later heeded
      exact ⟨_, Walk.comment (same ▸ again) walk, tokens, .cons comment comments⟩

end Lexer

theorem map_eq_map_of_forall₂ {α β γ : Type} {f : α → γ} {g : β → γ} {first : List α}
    {second : List β} (related : List.Forall₂ (fun a b => g b = f a) first second) :
    second.map g = first.map f := by
  induction related with
  | nil => rfl
  | cons head _ ih => rw [List.map_cons, List.map_cons, head, ih]

-- When one place is a function of the other, so is all that is read there.

def Position.moved (move : Place → Place) (position : Position) : Position :=
  { position with toPlace := move position.toPlace }

def Token.moved (move : Place → Place) (token : Token) : Token :=
  { token with position := token.position.moved move }

def Comment.moved (move : Place → Place) (comment : Comment) : Comment :=
  { comment with position := comment.position.moved move }

def Diagnostic.moved (move : Place → Place) : Diagnostic → Diagnostic
  | .unsupportedLanguage code position => .unsupportedLanguage code (position.moved move)
  | .noValidGherkin source => .noValidGherkin source

section
variable {near : Text → Place → Place → Prop} {move : Place → Place}
  (moves : ∀ ahead first second, near ahead first second → second = move first)
include moves

theorem Position.eq_moved {position other : Position}
    (beside : Position.Beside near position other) :
    other = position.moved move := by
  obtain ⟨place, source⟩ := other
  obtain ⟨⟨_, related⟩, same⟩ := beside
  cases moves _ _ _ related
  cases same
  rfl

theorem Token.eq_moved {token other : Token} (beside : Token.Beside near token other) :
    other = token.moved move := by
  obtain ⟨position, kind⟩ := other
  cases Position.eq_moved moves beside.position
  cases beside.kind
  rfl

theorem Comment.eq_moved {comment other : Comment} (beside : Comment.Beside near comment other) :
    other = comment.moved move := by
  obtain ⟨position, body, breaksLine⟩ := other
  cases Position.eq_moved moves beside.position
  cases beside.body
  cases beside.breaksLine
  rfl

theorem Lexer.walk_moved (kept : Place.Kept near) {lexer other : Lexer}
    {context elsewhere : ScanContext} {run : Run} (walk : Walk context lexer run)
    (beside : Beside near lexer other) (same : elsewhere.language = context.language) :
    ∃ beyond, Walk elsewhere other beyond ∧ beyond.tokens = run.tokens.map (Token.moved move) ∧
      beyond.comments = run.comments.map (Comment.moved move) := by
  obtain ⟨beyond, again, tokens, comments⟩ := walk_beside kept walk beside same
  refine ⟨beyond, again, ?_, ?_⟩
  · have each := tokens.imp fun _ _ => Token.eq_moved moves
    simpa using map_eq_map_of_forall₂ (g := id) each
  · have each := comments.imp fun _ _ => Comment.eq_moved moves
    simpa using map_eq_map_of_forall₂ (g := id) each

end

namespace ScanContext

theorem complaints_moved (move : Place → Place) (comments : List Comment) :
    (comments.map (Comment.moved move)).filterMap Comment.complaint? =
      (comments.filterMap Comment.complaint?).map (Diagnostic.moved move) := by
  rw [List.filterMap_map, List.map_filterMap]
  refine congrArg (fun f => comments.filterMap f) (funext fun comment => ?_)
  have code : (comment.moved move).code? = comment.code? := rfl
  have language : (comment.moved move).language? = comment.language? := rfl
  simp only [Function.comp_apply, Comment.complaint?, code, language]
  cases comment.code? with
  | none => rfl
  | some code => cases comment.language? <;> rfl

theorem heed_all_moved (move : Place → Place) {context elsewhere : ScanContext}
    (same : elsewhere.language = context.language) (comments : List Comment) :
    (elsewhere.heedAll (comments.map (Comment.moved move))).language =
      (context.heedAll comments).language := by
  apply heed_all_language_of_codes same
  rw [List.map_map]
  rfl

end ScanContext
end Gherkin
