import Gherkin.Scan.Context
import Gherkin.Source.Cursor
import Gherkin.Token.Lexeme
/-!
The lexer walks over a text lexeme by lexeme. A token starts where its lexeme starts, and so does
a comment. Between two tokens the lexer passes over trivia and heeds comments, each of which may
change the language of all that follows.

Reading one lexeme leaves the context alone and depends on its language only. Every lexeme takes a
character, so the text ahead gets shorter and the walk ends.
-/
namespace Gherkin

structure Lexer where
  cursor : Cursor
  state : LineState := {}
  deriving DecidableEq

inductive Reading
  | token (token : Token)
  | comment (comment : Comment)
  | trivia
  deriving DecidableEq

def LexemeKind.reading (position : Position) : LexemeKind → Reading
  | .token kind => .token ⟨position, kind⟩
  | .comment body breaksLine => .comment ⟨position, body, breaksLine⟩
  | .trivia => .trivia

/-- What a lexer has done up to its next token: the token, unless the text ends first, the lexer
and the context after it, the comments passed and the events recorded. -/
structure Pull where
  token : Option Token
  lexer : Lexer
  context : ScanContext
  comments : List Comment := []
  events : List ScanEvent := []
  deriving DecidableEq

structure Run where
  tokens : List Token
  lexer : Lexer
  context : ScanContext
  comments : List Comment
  events : List ScanEvent
  deriving DecidableEq

namespace Lexer

/-- A lexer at the start of a text. An empty name of a source counts as none. -/
def ofText (text : Text) (source : Option Text := none) : Lexer :=
  { cursor := .ofText text ((source.filter (· != [])).map Locator.ofText) }

def position (lexer : Lexer) : Position := lexer.cursor.position

def consumed (lexer : Lexer) : Nat := lexer.cursor.consumed

def read (language : Language) (lexer : Lexer) : Option (Reading × Lexer) :=
  match lexer.cursor.ahead with
  | [] => none
  | c :: rest =>
    let lexeme := Lexeme.read language lexer.state c rest
    some (lexeme.kind.reading lexer.position,
      ⟨lexer.cursor.advanceBy lexeme.width, lexeme.state⟩)

theorem read_ahead_lt {language : Language} {lexer after : Lexer} {reading : Reading}
    (done : lexer.read language = some (reading, after)) :
    after.cursor.ahead.length < lexer.cursor.ahead.length := by
  unfold read at done
  split at done
  · cases done
  · next c rest ahead =>
    cases done
    have width := Lexeme.read_width_pos language lexer.state c rest
    simp only [Cursor.advance_by_ahead, ahead, List.length_drop, List.length_cons]
    omega

def nextToken (context : ScanContext) (lexer : Lexer) : Pull :=
  match _done : lexer.read context.language with
  | none => { token := none, lexer, context }
  | some (.token token, after) => { token := some token, lexer := after, context }
  | some (.trivia, after) => after.nextToken context
  | some (.comment comment, after) =>
    let heeded := context.heed comment
    let pull := after.nextToken heeded.1
    { pull with comments := comment :: pull.comments, events := heeded.2 ++ pull.events }
termination_by lexer.cursor.ahead.length
decreasing_by all_goals exact read_ahead_lt _done

theorem next_token_ahead_lt {context : ScanContext} {lexer : Lexer} {token : Token}
    (found : (lexer.nextToken context).token = some token) :
    (lexer.nextToken context).lexer.cursor.ahead.length < lexer.cursor.ahead.length := by
  fun_induction nextToken context lexer with
  | case1 => cases found
  | case2 _ _ _ _ done => exact read_ahead_lt done
  | case3 _ _ _ done ih => exact Nat.lt_trans (ih found) (read_ahead_lt done)
  | case4 _ _ _ _ done _ _ ih => exact Nat.lt_trans (ih found) (read_ahead_lt done)

def drain (context : ScanContext) (lexer : Lexer) : Run :=
  let pull := lexer.nextToken context
  match _found : pull.token with
  | none => ⟨[], pull.lexer, pull.context, pull.comments, pull.events⟩
  | some token =>
    let run := pull.lexer.drain pull.context
    { run with
      tokens := token :: run.tokens
      comments := pull.comments ++ run.comments
      events := pull.events ++ run.events }
termination_by lexer.cursor.ahead.length
decreasing_by exact next_token_ahead_lt _found

/-- Reads all tokens as a scan of its own: it begins in the context's default language, and notes
a text without structural tokens. -/
def lex (context : ScanContext) (lexer : Lexer) : Run :=
  let source := lexer.cursor.source
  let context := context.resetLanguage
  let run := lexer.drain context
  let noted :=
    if run.tokens.any fun token => token.kind.isStructural then (run.context, [])
    else run.context.note (.noValidGherkin source)
  { run with
    context := noted.1
    events := .started (sourceName source) context.language.code :: run.events ++ noted.2 ++
      [.ended run.tokens.length] }

end Lexer
end Gherkin
