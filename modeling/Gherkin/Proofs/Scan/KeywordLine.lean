import Gherkin.Proofs.Language.Longest
import Gherkin.Proofs.Scan.Line
import Gherkin.Proofs.Token.Heading
/-!
Lines that a keyword of a bundled language begins. Whatever spaces stand around the keyword, a
structural one with a colon gives its scope and the title behind it, without a colon it is prose,
and a step keyword gives itself and the text behind it, unless a longer keyword goes on into that
text.
-/
namespace Gherkin

namespace Text
variable {spaces : Text}

-- Spaces behind a line belong to its head when no colon comes before them.
theorem head_append_spaces (blank : ∀ c ∈ spaces, isSpace c = true) (line : Text) :
    ∃ front, lineUntil (· == ':') (line ++ spaces) = lineUntil (· == ':') line ++ front ∧
      ∀ c ∈ front, isSpace c = true := by
  rw [lineUntil, List.takeWhile_append]
  split
  · next all =>
    have whole : lineUntil (· == ':') line = line := (List.takeWhile_prefix _).eq_of_length all
    exact ⟨_, by rw [whole], fun c member => blank c ((List.takeWhile_prefix _).subset member)⟩
  · exact ⟨[], (List.append_nil _).symm, List.forall_mem_nil _⟩

end Text

theorem Language.resolve_structural_spaced {language : Language} (clear : language.Unambiguous)
    (legible : language.Legible) {scope : Scope} {synonym spaces : Text}
    (listed : (scope, synonym) ∈ language.structural)
    (blank : ∀ c ∈ spaces, Text.isSpace c = true) :
    language.resolve (synonym ++ spaces) = some ⟨scope, synonym.length⟩ := by
  have head : Text.trimEnd Text.isSpace (synonym ++ spaces) = synonym := by
    rw [Text.trim_end_append blank, legible.trimmed _ listed]
  rw [clear.resolve_structural (head.symm ▸ listed), head]

namespace LineState
variable {context : ScanContext} {synonym between behind : Text}

theorem gives_title {title : Text} {state : LineState} (isTitle : title.IsTitle)
    (read : state.atStart = false) (titled : state.scope.isSome = true) :
    Gives context state title [.title title] :=
  gives_one fun _ ended => Lexeme.first_title isTitle read titled ended

theorem gives_plain {text : Text} {state : LineState} (isPlain : text.IsPlain)
    (blank : ∀ c ∈ behind, Text.isSpace c = true) (read : state.atStart = false)
    (untitled : state.scope = none) (stepped : state.keyword.isSome = true) :
    Gives context state (text ++ behind) [.matchText text] :=
  gives_one fun _ ended => Lexeme.first_plain isPlain blank read untitled stepped ended

variable (clear : context.language.Unambiguous) (legible : context.language.Legible)
include clear legible

theorem gives_scope_line {scope : Scope} {title : Text}
    (listed : (scope, synonym) ∈ context.language.structural) (isTitle : title.IsTitle)
    (blank : ∀ c ∈ between, Text.isSpace c = true)
    (blankBehind : ∀ c ∈ behind, Text.isSpace c = true) :
    Gives context {} (synonym ++ between ++ [':'] ++ behind ++ title)
      [.scope scope, .title title] := by
  have resolved := Language.resolve_structural_spaced clear legible listed blank
  have rest : Gives context { atStart := false, scope := some scope } title [.title title] :=
    gives_title isTitle rfl rfl
  refine gives_cons (fun more _ => ?_) rest
  apply Lexeme.first_scope (legible.structural _ listed) blank blankBehind resolved
    (clear.scopes _ listed)
  intro c first
  rw [List.head?_append_of_ne_nil _ isTitle.shown] at first
  exact isTitle.trimmed.first c first

theorem gives_description_line {scope : Scope}
    (listed : (scope, synonym) ∈ context.language.structural)
    (blank : ∀ c ∈ between, Text.isSpace c = true) :
    Gives context {} (synonym ++ between) [.description synonym] := by
  have resolved := Language.resolve_structural_spaced clear legible listed blank
  exact gives_one fun _ ended => Lexeme.first_description (legible.structural _ listed)
    (legible.trimmed _ listed) blank resolved (clear.scopes _ listed) ended

theorem gives_step_line {keyword : StepKeyword} {text : Text}
    (listed : (keyword, synonym) ∈ context.language.steps) (isPlain : text.IsPlain)
    (longest : ∀ entry ∈ context.language.steps, synonym.length < entry.2.length →
      ∀ length, ¬Language.Takes (Text.lineUntil (· == ':') (synonym ++ text)) entry.2 length)
    (blank : ∀ c ∈ behind, Text.isSpace c = true) :
    Gives context {} (synonym ++ (text ++ behind)) [.keyword keyword, .matchText text] := by
  have heading := legible.steps _ listed
  have opens : synonym <+: Text.lineUntil (· == ':') (synonym ++ text) := by
    obtain ⟨noColon, noFeed⟩ := heading.unbroken
    rw [Text.lineUntil, List.takeWhile_append_of_pos]
    · exact List.prefix_append _ _
    · intro c member
      simpa using Text.unstopped_of_not_mem noFeed noColon c member
  have rest : Gives context { atStart := false, keyword := some keyword } (text ++ behind)
      [.matchText text] := gives_plain isPlain blank rfl rfl rfl
  refine gives_cons (fun more ended => ?_) rest
  apply Lexeme.first_step heading
  · obtain ⟨spaces, head, blankHead⟩ := Text.head_append_spaces blank (synonym ++ text)
    rw [← List.append_assoc, ← List.append_assoc, Text.line_until_append_ended _ ended, head]
    exact clear.resolve_opening listed opens blankHead longest
  · intro c first
    rw [List.append_assoc, List.head?_append_of_ne_nil _ isPlain.shown] at first
    exact isPlain.trimmed.first c first

omit clear legible

/-- On a line of a bundled language every keyword gives what it stands for, and with it the title or
the text behind it as a whole. -/
theorem gives_keyword_line (bundled : context.language ∈ Language.all)
    (before between behind : Text)
    (blank : ∀ c ∈ before ++ between ++ behind, Text.isSpace c = true) :
    (∀ scope synonym, (scope, synonym) ∈ context.language.structural →
      (∀ title : Text, title.IsTitle →
        Gives context {} (before ++ (synonym ++ between ++ [':'] ++ behind ++ title))
          [.scope scope, .title title]) ∧
      Gives context {} (before ++ (synonym ++ between)) [.description synonym]) ∧
    ∀ keyword synonym text, (keyword, synonym) ∈ context.language.steps → Text.IsPlain text →
      (∀ entry ∈ context.language.steps, synonym.length < entry.2.length →
        ∀ length, ¬Language.Takes (Text.lineUntil (· == ':') (synonym ++ text)) entry.2 length) →
      Gives context {} (before ++ (synonym ++ (text ++ behind)))
        [.keyword keyword, .matchText text] := by
  obtain ⟨clear, legible⟩ := Language.tables_of_mem_all _ bundled
  simp only [List.forall_mem_append] at blank
  obtain ⟨⟨blankBefore, blankBetween⟩, blankBehind⟩ := blank
  refine ⟨fun scope synonym listed => ⟨fun title isTitle => ?_, ?_⟩,
    fun keyword synonym text listed isPlain longest => ?_⟩
  · exact gives_behind_spaces rfl blankBefore
      (gives_scope_line clear legible listed isTitle blankBetween blankBehind)
  · exact gives_behind_spaces rfl blankBefore
      (gives_description_line clear legible listed blankBetween)
  · exact gives_behind_spaces rfl blankBefore
      (gives_step_line clear legible listed isPlain longest blankBehind)

theorem gives_keyword_line_french :
    let french := Language.ofDialect (Text.ofString "fr") .french
    let kinds (line : Text) :=
      ((Lexer.ofText line none).lex (.ofLanguage french)).tokens.map (·.kind)
    let outline := Text.ofString "Plan du scénario"
    let title := Text.ofString "Porte: \\ #1 | @nuit"
    let text := Text.ofString "la porte : 12:30"
    french ∈ Language.all ∧
      kinds ([' ', '\t'] ++ (outline ++ ['\t'] ++ [':'] ++ [' '] ++ title)) =
        [.scope .scenarioOutline, .title title] ∧
      kinds ([' ', '\t'] ++ (outline ++ ['\t'])) = [.description outline] ∧
      kinds ([' ', '\t'] ++ (Text.ofString "Et que " ++ (text ++ [' ']))) =
        [.keyword .conjunction, .matchText text] := by
  intro french kinds outline title text
  let context := (ScanContext.ofLanguage french).resetLanguage
  have bundled : context.language ∈ Language.all := List.mem_iff_getElem?.mpr ⟨3, rfl⟩
  obtain ⟨structural, steps⟩ := gives_keyword_line bundled [' ', '\t'] ['\t'] [' ']
    (List.all_eq_true.mp rfl)
  obtain ⟨titled, prose⟩ := structural .scenarioOutline outline (by decide)
  have step := steps .conjunction (Text.ofString "Et que ") text
    (by decide +kernel) (by decide) (by simp only [Language.not_takes_iff]; decide +kernel)
  exact ⟨bundled, (titled title (by decide)).lex none, prose.lex none, step.lex none⟩

end LineState
end Gherkin
