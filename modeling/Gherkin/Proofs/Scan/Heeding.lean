import Mathlib.Data.List.Basic
import Gherkin.Proofs.Scan.Walk
/-!
What the comments of a run do to the context. Each one is heeded in turn, so the language in force
is the one that was last switched to, and every directive that names no known language leaves a
diagnostic. Nothing else that is read touches a context, so the comments of a run tell the context
that it leaves.
-/
namespace Gherkin

namespace Comment

def language? (comment : Comment) : Option Language := comment.code?.bind Language.find?

def complaint? (comment : Comment) : Option Diagnostic :=
  match comment.code?, comment.language? with
  | some code, none => some (.unsupportedLanguage code comment.position)
  | _, _ => none

/-- What a comment tells a context, wherever it stands: the code of a directive and the source. -/
def content (comment : Comment) : Option Text × Option Locator :=
  (comment.code?, comment.position.source)

end Comment

/-- What a diagnostic says, wherever it stands: the code that it refuses, if it refuses one, and
the source. -/
def Diagnostic.content : Diagnostic → Option Text × Option Locator
  | .unsupportedLanguage code position => (some code, position.source)
  | .noValidGherkin source => (none, source)

/-- What the diagnostic of a comment with some content says, when there is one. -/
def Diagnostic.refusal? (content : Option Text × Option Locator) :
    Option (Option Text × Option Locator) :=
  if (content.1.bind Language.find?).isNone then content.1.map fun code => (some code, content.2)
  else none

theorem Comment.complaint_content (comment : Comment) :
    comment.complaint?.map Diagnostic.content = Diagnostic.refusal? comment.content := by
  unfold complaint? language? content Diagnostic.refusal?
  cases comment.code? with
  | none => rfl
  | some code => cases found : Language.find? code <;> simp [found, Diagnostic.content]

namespace ScanContext

def heedAll (context : ScanContext) (comments : List Comment) : ScanContext :=
  comments.foldl (fun reached comment => (reached.heed comment).1) context

theorem heed_all_append (context : ScanContext) (comments more : List Comment) :
    context.heedAll (comments ++ more) = (context.heedAll comments).heedAll more :=
  List.foldl_append

theorem heed_context (context : ScanContext) (comment : Comment) :
    (context.heed comment).1 =
      { context with
        language := comment.language?.getD context.language
        diagnostics := context.diagnostics ++ comment.complaint?.toList } := by
  unfold heed Comment.complaint? Comment.language?
  cases comment.code? with
  | none => simp
  | some code =>
    simp only [Option.bind_some]
    cases Language.find? code with
    | none => rfl
    | some language => simp

@[simp] theorem heed_all_default (context : ScanContext) (comments : List Comment) :
    (context.heedAll comments).defaultLanguage = context.defaultLanguage := by
  induction comments generalizing context with
  | nil => rfl
  | cons comment rest ih =>
    rw [heedAll, List.foldl_cons, ← heedAll, ih, heed_context]

theorem heed_all_diagnostics (context : ScanContext) (comments : List Comment) :
    (context.heedAll comments).diagnostics =
      context.diagnostics ++ comments.filterMap Comment.complaint? := by
  induction comments generalizing context with
  | nil => simp [heedAll]
  | cons comment rest ih =>
    rw [heedAll, List.foldl_cons, ← heedAll, ih, heed_context, List.append_assoc]
    cases complaint : comment.complaint? <;> simp [complaint]

theorem heed_all_language (context : ScanContext) (comments : List Comment) :
    (context.heedAll comments).language =
      (comments.filterMap Comment.language?).getLast?.getD context.language := by
  induction comments generalizing context with
  | nil => rfl
  | cons comment rest ih =>
    rw [heedAll, List.foldl_cons, ← heedAll, ih, heed_context]
    cases switched : comment.language? with
    | none => simp [switched]
    | some language => simp [switched, List.getLast?_cons]

-- The code of a comment decides on the language, and its content on what is noted of it.

theorem heed_language_of_code {context elsewhere : ScanContext} {comment other : Comment}
    (same : elsewhere.language = context.language) (code : other.code? = comment.code?) :
    (elsewhere.heed other).1.language = (context.heed comment).1.language := by
  simp only [heed_context, Comment.language?, code, same]

theorem languages_of_codes {comments others : List Comment}
    (codes : others.map Comment.code? = comments.map Comment.code?) :
    others.filterMap Comment.language? = comments.filterMap Comment.language? := by
  have found (comments : List Comment) : comments.filterMap Comment.language? =
      (comments.map Comment.code?).filterMap (·.bind Language.find?) := by
    rw [List.filterMap_map]
    rfl
  rw [found, found, codes]

theorem heed_all_language_of_codes {context elsewhere : ScanContext}
    {comments others : List Comment} (same : elsewhere.language = context.language)
    (codes : others.map Comment.code? = comments.map Comment.code?) :
    (elsewhere.heedAll others).language = (context.heedAll comments).language := by
  rw [heed_all_language, heed_all_language, languages_of_codes codes, same]

theorem codes_of_contents {comments others : List Comment}
    (same : others.map Comment.content = comments.map Comment.content) :
    others.map Comment.code? = comments.map Comment.code? := by
  have first := congrArg (List.map Prod.fst) same
  rw [List.map_map, List.map_map] at first
  exact first

theorem complaint_contents {comments others : List Comment}
    (same : others.map Comment.content = comments.map Comment.content) :
    (others.filterMap Comment.complaint?).map Diagnostic.content =
      (comments.filterMap Comment.complaint?).map Diagnostic.content := by
  have noted (comments : List Comment) :
      (comments.filterMap Comment.complaint?).map Diagnostic.content =
        (comments.map Comment.content).filterMap Diagnostic.refusal? := by
    rw [List.map_filterMap, List.filterMap_map]
    exact congrArg (fun f => comments.filterMap f) (funext Comment.complaint_content)
  rw [noted, noted, same]

end ScanContext

-- Only comments touch the context of a run.
theorem Lexer.walk_context {context : ScanContext} {lexer : Lexer} {run : Run}
    (walk : Walk context lexer run) : run.context = context.heedAll run.comments := by
  induction walk with
  | ended => rfl
  | token _ _ ih => exact ih
  | trivia _ _ ih => exact ih
  | comment _ _ ih => exact ih

end Gherkin
