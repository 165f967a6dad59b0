import Gherkin.Proofs.Scan.Beside
import Gherkin.Proofs.Scan.LineStart
import Gherkin.Proofs.Scan.Report
import Gherkin.Proofs.Scan.WholeLines
/-!
Text that stands for nothing. Spaces at the start of a line, and a line with a comment that
switches to no language, may be put behind whole lines wherever no doc string is open: what is read
is the same, whatever follows. A directive that is refused leaves its diagnostic between those of
the text before it and those of the text behind it.
-/
namespace Gherkin

/-- Text that stands for nothing at the start of a line, and the code that it leaves a diagnostic
of, if it leaves one. -/
inductive Text.Idle : Text → Option Text → Prop
  | spaces {text : Text} (blank : text.all isSpace = true) : Idle text none
  | comment {indent body : Text} (blank : indent.all isSpace = true) (unbroken : '\n' ∉ body)
      (stays : (Comment.codeOf? body).bind Language.find? = none) :
      Idle (indent ++ '#' :: (body ++ ['\n'])) (Comment.codeOf? body)

/-- Whether a run tells what another does, wherever that stands, and refuses one more code if one
is given. Both began with the diagnostics held. -/
structure Run.AgreesBut (held : List Diagnostic) (code : Option Text) (plain filled : Run) :
    Prop where
  kinds : filled.tokens.map (·.kind) = plain.tokens.map (·.kind)
  language : filled.context.language = plain.context.language
  diagnostics : ∃ before position after later,
    plain.context.diagnostics = held ++ before ++ after ∧
    filled.context.diagnostics =
      held ++ before ++ (code.map (Diagnostic.unsupportedLanguage · position)).toList ++ later ∧
    later.map Diagnostic.content = after.map Diagnostic.content

theorem Comment.content_beside {near : Text → Place → Place → Prop} {comment other : Comment}
    (beside : Comment.Beside near comment other) : other.content = comment.content := by
  rw [content, content, code_beside beside, beside.position.source]

namespace Lexer
variable {context : ScanContext} {lexer other : Lexer} {run : Run}

/-- Two lexers that have the same to read, wherever they stand. -/
abbrev Alike (lexer other : Lexer) : Prop := Beside (fun _ _ _ => True) lexer other

theorem walk_alike (walk : Walk context lexer run) (alike : Alike lexer other)
    {elsewhere : ScanContext} (same : elsewhere.language = context.language) :
    ∃ beyond, Walk elsewhere other beyond ∧
      beyond.tokens.map (·.kind) = run.tokens.map (·.kind) ∧
      beyond.comments.map Comment.content = run.comments.map Comment.content := by
  obtain ⟨beyond, again, tokens, comments⟩ :=
    walk_beside (fun _ _ _ _ kept => kept) walk alike same
  exact ⟨beyond, again, map_eq_map_of_forall₂ (tokens.imp fun _ _ token => token.kind),
    map_eq_map_of_forall₂ (comments.imp fun _ _ => Comment.content_beside)⟩

theorem extend_ahead (ended : lexer.cursor.ahead = []) (more : Text) :
    (lexer.extend more).cursor.ahead = more := by
  rw [extend, ended, List.nil_append]

theorem walk_spaces {blanks more : Text} (blank : blanks.all Text.isSpace = true)
    (unread : lexer.state.atStart = true) (ended : lexer.cursor.ahead = [])
    (walk : Walk context (lexer.extend more) run) :
    ∃ filled, Walk context (lexer.extend (blanks ++ more)) filled ∧
      filled.tokens.map (·.kind) = run.tokens.map (·.kind) ∧
      filled.comments.map Comment.content = run.comments.map Comment.content := by
  have alike : Alike (lexer.extend more).pastSpaces (lexer.extend (blanks ++ more)).pastSpaces := by
    refine ⟨?_, rfl, trivial, by simp [extend]⟩
    rw [past_spaces_ahead, past_spaces_ahead, extend_ahead ended, extend_ahead ended,
      List.dropWhile_append_of_pos (List.all_eq_true.mp blank)]
  have past := (walk_past_spaces_iff (lexer.extend more) unread).mpr walk
  obtain ⟨filled, again, kinds, contents⟩ := walk_alike past alike rfl
  have whole := (walk_past_spaces_iff (lexer.extend (blanks ++ more)) unread).mp again
  exact ⟨filled, whole, kinds, contents⟩

theorem walk_comment_line {indent body more : Text} (blank : indent.all Text.isSpace = true)
    (unbroken : '\n' ∉ body) (stays : (Comment.codeOf? body).bind Language.find? = none)
    (unread : lexer.state.atStart = true) (ended : lexer.cursor.ahead = [])
    (walk : Walk context (lexer.extend more) run) :
    ∃ filled later position,
      Walk context (lexer.extend (indent ++ '#' :: (body ++ '\n' :: more))) filled ∧
      filled.tokens.map (·.kind) = run.tokens.map (·.kind) ∧
      filled.comments = ⟨position, body, true⟩ :: later ∧
      later.map Comment.content = run.comments.map Comment.content := by
  let indented := lexer.extend (indent ++ '#' :: (body ++ '\n' :: more))
  let start := indented.pastSpaces
  have ahead : start.cursor.ahead = '#' :: (body ++ '\n' :: more) := by
    rw [past_spaces_ahead, extend_ahead ended,
      List.dropWhile_append_of_pos (List.all_eq_true.mp blank)]
    rfl
  have alike : Alike (lexer.extend more) (start.pastComment body) := by
    refine ⟨?_, rfl, trivial, by simp [start, indented, pastComment, extend]⟩
    rw [past_comment_ahead ahead, extend_ahead ended]
  have silent : (context.heed ⟨start.position, body, true⟩).1.language = context.language := by
    have stays : (⟨start.position, body, true⟩ : Comment).language? = none := stays
    rw [ScanContext.heed_context, stays]
    rfl
  obtain ⟨beyond, again, kinds, contents⟩ := walk_alike walk alike silent
  have found := read_comment_line context.language ahead unread unbroken
  have whole := (walk_past_spaces_iff indented unread).mp (Walk.comment found again)
  exact ⟨_, beyond.comments, start.position, whole, kinds, rfl, contents⟩

theorem walk_idle {inserted more : Text} {code : Option Text} (idle : inserted.Idle code)
    (unread : lexer.state.atStart = true) (ended : lexer.cursor.ahead = [])
    (walk : Walk context (lexer.extend more) run) :
    ∃ filled passed later position, Walk context (lexer.extend (inserted ++ more)) filled ∧
      filled.tokens.map (·.kind) = run.tokens.map (·.kind) ∧
      filled.comments = passed ++ later ∧
      later.map Comment.content = run.comments.map Comment.content ∧
      passed.filterMap Comment.language? = [] ∧
      passed.filterMap Comment.complaint? =
        (code.map (Diagnostic.unsupportedLanguage · position)).toList := by
  cases idle with
  | spaces blank =>
    obtain ⟨filled, again, kinds, contents⟩ := walk_spaces blank unread ended walk
    exact ⟨filled, [], filled.comments, lexer.position, again, kinds, rfl, contents, rfl, rfl⟩
  | @comment indent body blank unbroken stays =>
    obtain ⟨filled, later, position, again, kinds, comments, contents⟩ :=
      walk_comment_line blank unbroken stays unread ended walk
    have silent : (⟨position, body, true⟩ : Comment).language? = none := stays
    have complaint : (⟨position, body, true⟩ : Comment).complaint? =
        (Comment.codeOf? body).map (Diagnostic.unsupportedLanguage · position) := by
      rw [Comment.complaint?, silent, Comment.code?]
      cases Comment.codeOf? body <;> rfl
    refine ⟨filled, [⟨position, body, true⟩], later, position, ?_, kinds, comments, contents,
      ?_, ?_⟩
    · simpa using again
    · simp [silent]
    · rw [List.filterMap_cons, complaint]
      cases Comment.codeOf? body <;> rfl

-- Behind whole lines both texts are read by lexers that have come to the same place.
theorem drain_idle (source : Option Text) (context : ScanContext) {lines inserted more : Text}
    {code : Option Text} (whole : lines.IsWhole) (idle : inserted.Idle code)
    (closed : ((ofText lines source).drain context).lexer.state.atStart = true) :
    Run.AgreesBut context.diagnostics code ((ofText (lines ++ more) source).drain context)
      ((ofText (lines ++ inserted ++ more) source).drain context) := by
  let first := (ofText lines source).drain context
  have walk : Walk context (ofText lines source) first := walk_drain _ _
  have walkMore : Walk first.context (first.lexer.extend more)
    ((first.lexer.extend more).drain first.context) := walk_drain _ _
  obtain ⟨filled, passed, later, position, walkFilled, kinds, comments, contents, silent,
    refused⟩ :=
    walk_idle idle closed (walk_ends walk) walkMore
  have walkPlain := walk_extend walk whole closed walkMore
  have walkBoth := walk_extend walk whole closed walkFilled
  have plain : (ofText (lines ++ more) source).drain context = first.followedBy _ :=
    drain_of_walk walkPlain
  have both : (ofText (lines ++ inserted ++ more) source).drain context =
      first.followedBy filled := by
    rw [List.append_assoc]
    exact drain_of_walk walkBoth
  rw [plain, both]
  refine ⟨?_, ?_, first.comments.filterMap Comment.complaint?, position, _, _, ?_, ?_,
    ScanContext.complaint_contents contents⟩
  · simp only [Run.followedBy, List.map_append, kinds]
  · rw [walk_context walkBoth, walk_context walkPlain, ScanContext.heed_all_language,
      ScanContext.heed_all_language]
    simp only [Run.followedBy, comments, List.filterMap_append, silent, List.nil_append,
      ScanContext.languages_of_codes (ScanContext.codes_of_contents contents)]
  · rw [walk_context walkPlain, ScanContext.heed_all_diagnostics]
    simp only [Run.followedBy, List.filterMap_append, List.append_assoc]
  · rw [walk_context walkBoth, ScanContext.heed_all_diagnostics]
    simp only [Run.followedBy, comments, List.filterMap_append, refused, List.append_assoc]

end Lexer

theorem insert_idle (source : Option Text) (context : ScanContext) {lines inserted : Text}
    (more : Text) {code : Option Text} (whole : lines.IsWhole) (idle : inserted.Idle code) :
    let front := Lexer.ofText lines source
    let plain := Lexer.ofText (lines ++ more) source
    let filled := Lexer.ofText (lines ++ inserted ++ more) source
    ((front.drain context).lexer.state.atStart = true →
      Run.AgreesBut context.diagnostics code (plain.drain context) (filled.drain context)) ∧
    ((front.lex context).lexer.state.atStart = true →
      Run.AgreesBut context.diagnostics code (plain.lex context) (filled.lex context)) := by
  intro front plain filled
  refine ⟨Lexer.drain_idle source context whole idle, fun closed => ?_⟩
  have agrees : Run.AgreesBut context.diagnostics code (plain.drain context.resetLanguage)
      (filled.drain context.resetLanguage) :=
    Lexer.drain_idle source context.resetLanguage whole idle closed
  obtain ⟨kinds, language, before, position, after, later, noted, notedBoth, contents⟩ := agrees
  let verdict := Diagnostic.verdict front.cursor.source (plain.lex context).tokens
  have same : Diagnostic.verdict front.cursor.source (filled.lex context).tokens = verdict :=
    Diagnostic.verdict_of_kinds kinds
  refine ⟨kinds, ?_, before, position, after ++ verdict, later ++ verdict, ?_, ?_, ?_⟩
  · rw [Lexer.lex_context, Lexer.lex_context]
    exact language
  · rw [Lexer.lex_context, noted, ← List.append_assoc]
    rfl
  · rw [Lexer.lex_context, notedBoth, ← List.append_assoc, ← same]
    rfl
  · rw [List.map_append, List.map_append, contents]

theorem insert_idle_refused :
    let lines := Text.ofString "Feature: x\n"
    let inserted := Text.ofString "  # language: tlh\n"
    let more := Text.ofString "\"\"\"\n  a\n"
    let code := Text.ofString "tlh"
    let front := Lexer.ofText lines
    let plain := Lexer.ofText (lines ++ more)
    let filled := Lexer.ofText (lines ++ inserted ++ more)
    lines.IsWhole ∧ inserted.Idle (some code) ∧
    (front.drain .standard).lexer.state.atStart = true ∧
    (front.lex .standard).lexer.state.atStart = true ∧
    Run.AgreesBut [] (some code) (plain.drain .standard) (filled.drain .standard) ∧
    Run.AgreesBut [] (some code) (plain.lex .standard) (filled.lex .standard) := by
  intro lines inserted more code front plain filled
  have whole : lines.IsWhole := Or.inr rfl
  have idle : inserted.Idle (some code) :=
    @Text.Idle.comment (Text.ofString "  ") (Text.ofString " language: tlh")
      (by decide) (by decide) rfl
  have drained : (front.drain .standard).lexer.state.atStart = true := by decide +kernel
  have closed : (front.lex .standard).lexer.state.atStart = true := by decide +kernel
  obtain ⟨agrees, agreesAlone⟩ := insert_idle none .standard more whole idle
  exact ⟨whole, idle, drained, closed, agrees drained, agreesAlone closed⟩

end Gherkin
