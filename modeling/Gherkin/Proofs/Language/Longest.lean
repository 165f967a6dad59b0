import Gherkin.Language.Resolve
import Gherkin.Proofs.Language.Tables
import Gherkin.Proofs.Text.Trimmed
/-!
Resolving the head of a line. A structural keyword has to be all of the head, and of the step
keywords that match the longest is taken. Where no two keywords of a language can be taken for one
another there is never a choice: one entry at most is as long as the longest, and no step keyword
matches where a structural one does.
-/
namespace Gherkin.Language
variable {language : Language} {text synonym : Text} {length : Nat} {found : ScopeMatch}
  {candidates : List ScopeMatch}

/-- Whether a step synonym takes so many characters of a text: it opens the text, or it is all of
the text when the spaces at either's end are left out. -/
def Takes (text synonym : Text) (length : Nat) : Prop :=
  (synonym <+: text ∧ length = synonym.length) ∨
  (Text.trimEnd Text.isSpace text = Text.trimEnd Text.isSpace synonym ∧
    length = (Text.trimEnd Text.isSpace text).length)

/-- Whether of all step synonyms of a language this one takes the most of a text, and no other takes
as much. -/
structure IsLongest (language : Language) (text : Text) (keyword : StepKeyword) (synonym : Text)
    (length : Nat) : Prop where
  listed : language.steps.count (keyword, synonym) = 1
  takes : Takes text synonym length
  greatest : ∀ entry ∈ language.steps, ∀ other, Takes text entry.2 other → other ≤ length
  only : ∀ entry ∈ language.steps, Takes text entry.2 length → entry = (keyword, synonym)

theorem longest_eq_none_iff : longest? candidates = none ↔ candidates = [] := by
  cases candidates with
  | nil => simp [longest?]
  | cons first rest =>
    rw [longest?]
    cases longest? rest with
    | none => simp
    | some best => dsimp only; split <;> simp

theorem longest_le (chosen : longest? candidates = some found) :
    ∀ candidate ∈ candidates, candidate.length ≤ found.length := by
  induction candidates generalizing found with
  | nil => cases chosen
  | cons first rest ih =>
    rw [List.forall_mem_cons]
    cases later : longest? rest with
    | none =>
      obtain rfl := longest_eq_none_iff.mp later
      cases chosen
      exact ⟨Nat.le_refl _, List.forall_mem_nil _⟩
    | some best =>
      simp only [longest?, later] at chosen
      split at chosen
      · next shorter =>
        cases chosen
        exact ⟨Nat.le_of_lt shorter, ih later⟩
      · next longer =>
        cases chosen
        exact ⟨Nat.le_refl _, fun candidate member =>
          (ih later candidate member).trans (Nat.le_of_not_lt longer)⟩

-- A synonym may match both ways, and then it is the longer way that counts.

theorem takes_of_synonym_length (matched : synonymLength? text synonym = some length) :
    Takes text synonym length := by
  unfold synonymLength? at matched
  split at matched
  · next opens =>
    cases matched
    exact Or.inl ⟨List.isPrefixOf_iff_prefix.mp opens, rfl⟩
  · dsimp only at matched
    split at matched
    · next same =>
      cases matched
      exact Or.inr ⟨same, rfl⟩
    · cases matched

theorem not_takes_iff :
    (∀ length, ¬Takes text synonym length) ↔
      ¬synonym <+: text ∧ Text.trimEnd Text.isSpace text ≠ Text.trimEnd Text.isSpace synonym := by
  constructor
  · intro refused
    exact ⟨fun opens => refused _ (Or.inl ⟨opens, rfl⟩), fun same => refused _ (Or.inr ⟨same, rfl⟩)⟩
  · rintro ⟨notOpens, notSame⟩ length (⟨opens, _⟩ | ⟨same, _⟩)
    · exact notOpens opens
    · exact notSame same

theorem takes_le_synonym (takes : Takes text synonym length) : length ≤ synonym.length := by
  rcases takes with ⟨_, rfl⟩ | ⟨same, rfl⟩
  · exact Nat.le_refl _
  · exact same ▸ Text.trim_end_length_le Text.isSpace synonym

theorem synonym_length_of_takes (takes : Takes text synonym length) :
    ∃ longer, synonymLength? text synonym = some longer ∧ length ≤ longer := by
  unfold synonymLength?
  split
  · exact ⟨synonym.length, rfl, takes_le_synonym takes⟩
  · next notOpens =>
    rcases takes with ⟨opens, _⟩ | ⟨same, rfl⟩
    · exact absurd (List.isPrefixOf_iff_prefix.mpr opens) notOpens
    · exact ⟨_, if_pos same, Nat.le_refl _⟩

theorem mem_step_matches_iff :
    found ∈ language.stepMatches text ↔
      ∃ entry ∈ language.steps, synonymLength? text entry.2 = some found.length ∧
        found.scope = .step entry.1 := by
  rw [stepMatches, List.mem_filterMap]
  constructor
  · rintro ⟨entry, listed, matched⟩
    obtain ⟨length, taken, rfl⟩ := Option.map_eq_some_iff.mp matched
    exact ⟨entry, listed, taken, rfl⟩
  · rintro ⟨entry, listed, taken, opened⟩
    refine ⟨entry, listed, ?_⟩
    rw [taken, Option.map_some, ← opened]

-- What a synonym takes of a text is the synonym, but for spaces at its end.
theorem take_of_takes (takes : Takes text synonym length) :
    text.take length = synonym ∨ text.take length = Text.trimEnd Text.isSpace synonym := by
  rcases takes with ⟨opens, rfl⟩ | ⟨same, rfl⟩
  · exact Or.inl (List.prefix_iff_eq_take.mp opens).symm
  · right
    rw [← same]
    exact (List.prefix_iff_eq_take.mp (Text.trim_end_initial _ text)).symm

theorem trim_end_take_of_takes (takes : Takes text synonym length) :
    Text.trimEnd Text.isSpace (text.take length) = Text.trimEnd Text.isSpace synonym := by
  rcases take_of_takes takes with same | same
  · rw [same]
  · rw [same, Text.trim_end_of_last fun _ => Text.trim_end_last]

theorem takes_le_length (takes : Takes text synonym length) : length ≤ text.length := by
  rcases takes with ⟨opens, rfl⟩ | ⟨_, rfl⟩
  · exact opens.length_le
  · exact Text.trim_end_length_le Text.isSpace text

-- Spaces at the end of a text do not make a synonym match. One that only matches with some of them
-- ends in spaces itself, and it matches without them too.
theorem takes_before_spaces {spaces : Text} (blank : ∀ c ∈ spaces, Text.isSpace c = true)
    (takes : Takes (text ++ spaces) synonym length) : ∃ fewer, Takes text synonym fewer := by
  rcases takes with ⟨opens, _⟩ | ⟨same, _⟩
  · rcases List.prefix_or_prefix_of_prefix opens (List.prefix_append text spaces) with
      within | ⟨more, rfl⟩
    · exact ⟨_, Or.inl ⟨within, rfl⟩⟩
    · have later : more <+: spaces := (List.prefix_append_right_inj text).mp opens
      refine ⟨_, Or.inr ⟨?_, rfl⟩⟩
      rw [Text.trim_end_append fun c member => blank c (later.subset member)]
  · rw [Text.trim_end_append blank] at same
    exact ⟨_, Or.inr ⟨same, rfl⟩⟩

namespace Unambiguous
variable (clear : language.Unambiguous)
include clear

theorem eq_of_takes {entry other : StepKeyword × Text} (listed : entry ∈ language.steps)
    (listedOther : other ∈ language.steps) (takes : Takes text entry.2 length)
    (takesOther : Takes text other.2 length) : entry = other := by
  apply List.inj_on_of_nodup_map clear.steps listed listedOther
  rw [← trim_end_take_of_takes takes, trim_end_take_of_takes takesOther]

theorem scope_eq {scope other : Scope} (listed : (scope, synonym) ∈ language.structural)
    (listedOther : (other, synonym) ∈ language.structural) : other = scope :=
  congrArg Prod.fst (List.inj_on_of_nodup_map clear.structural listedOther listed rfl)

theorem not_takes_of_structural {scope : Scope}
    (listed : (scope, Text.trimEnd Text.isSpace text) ∈ language.structural)
    {entry : StepKeyword × Text} (step : entry ∈ language.steps) :
    ¬Takes text entry.2 length := by
  obtain ⟨notWithin, notSame⟩ := clear.apart _ listed entry step
  obtain ⟨back, whole, spaces⟩ := Text.trim_end_parts Text.isSpace text
  intro takes
  rw [whole] at takes
  obtain ⟨_, ⟨opens, _⟩ | ⟨same, _⟩⟩ := takes_before_spaces spaces takes
  · exact notWithin opens
  · rw [Text.trim_end_of_last fun _ => Text.trim_end_last] at same
    exact notSame same.symm

theorem resolve_structural {scope : Scope}
    (listed : (scope, Text.trimEnd Text.isSpace text) ∈ language.structural) :
    language.resolve text = some ⟨scope, (Text.trimEnd Text.isSpace text).length⟩ := by
  rw [resolve]
  split
  · next entry found =>
    have held := List.find?_some found
    have same : entry.2 = Text.trimEnd Text.isSpace text := beq_iff_eq.mp held
    have member : (entry.1, Text.trimEnd Text.isSpace text) ∈ language.structural :=
      same ▸ List.mem_of_find?_eq_some found
    rw [clear.scope_eq listed member, same]
  · next none =>
    exact absurd (beq_iff_eq.mpr rfl) (List.find?_eq_none.mp none _ listed)

omit clear in
theorem resolve_steps
    (unlisted : ∀ entry ∈ language.structural, entry.2 ≠ Text.trimEnd Text.isSpace text) :
    language.resolve text = longest? (language.stepMatches text) := by
  have none : language.structural.find? (·.2 == Text.trimEnd Text.isSpace text) = none := by
    rw [List.find?_eq_none]
    exact fun entry member same => unlisted entry member (beq_iff_eq.mp same)
  rw [resolve]
  simp only [none]

theorem is_longest_of_longest (chosen : longest? (language.stepMatches text) = some found) :
    ∃ keyword synonym, found.scope = .step keyword ∧
      language.IsLongest text keyword synonym found.length := by
  obtain ⟨⟨keyword, synonym⟩, listed, matched, opened⟩ :=
    mem_step_matches_iff.mp (longest_mem chosen)
  have takes := takes_of_synonym_length matched
  refine ⟨keyword, synonym, opened, ?_, takes, ?_, ?_⟩
  · exact List.count_eq_one_of_mem clear.steps.of_map listed
  · intro entry listedOther other takesOther
    obtain ⟨longer, longerMatched, less⟩ := synonym_length_of_takes takesOther
    have member : ⟨.step entry.1, longer⟩ ∈ language.stepMatches text :=
      mem_step_matches_iff.mpr ⟨entry, listedOther, longerMatched, rfl⟩
    exact less.trans (longest_le chosen _ member)
  · exact fun entry listedOther takesOther => clear.eq_of_takes listedOther listed takesOther takes

theorem exists_longest {entry : StepKeyword × Text} (step : entry ∈ language.steps)
    (takes : Takes text entry.2 length) :
    ∃ keyword synonym longest, language.IsLongest text keyword synonym longest ∧
      longest? (language.stepMatches text) = some ⟨.step keyword, longest⟩ := by
  obtain ⟨longer, matched, _⟩ := synonym_length_of_takes takes
  have member : ⟨.step entry.1, longer⟩ ∈ language.stepMatches text :=
    mem_step_matches_iff.mpr ⟨entry, step, matched, rfl⟩
  cases chosen : longest? (language.stepMatches text) with
  | none => exact absurd member (by simp [longest_eq_none_iff.mp chosen])
  | some found =>
    obtain ⟨keyword, synonym, opened, longest⟩ := clear.is_longest_of_longest chosen
    exact ⟨keyword, synonym, found.length, longest, by rw [← opened]⟩

theorem longest_iff {keyword : StepKeyword} :
    longest? (language.stepMatches text) = some ⟨.step keyword, length⟩ ↔
      ∃ synonym, language.IsLongest text keyword synonym length := by
  constructor
  · intro chosen
    obtain ⟨_, synonym, opened, longest⟩ := clear.is_longest_of_longest chosen
    cases opened
    exact ⟨synonym, longest⟩
  · rintro ⟨synonym, longest⟩
    have listed : (keyword, synonym) ∈ language.steps :=
      List.one_le_count_iff.mp (Nat.le_of_eq longest.listed.symm)
    obtain ⟨other, same, most, found, chosen⟩ := clear.exists_longest listed longest.takes
    have listedOther : (other, same) ∈ language.steps :=
      List.one_le_count_iff.mp (Nat.le_of_eq found.listed.symm)
    obtain rfl : most = length := Nat.le_antisymm
      (longest.greatest _ listedOther most found.takes)
      (found.greatest _ listed length longest.takes)
    cases found.only _ listed longest.takes
    exact chosen

-- Either the head is a structural keyword, or only step keywords come into question.
theorem resolve_cases (text : Text) :
    (∃ scope, (scope, Text.trimEnd Text.isSpace text) ∈ language.structural ∧
      language.resolve text = some ⟨scope, (Text.trimEnd Text.isSpace text).length⟩) ∨
    ((∀ entry ∈ language.structural, entry.2 ≠ Text.trimEnd Text.isSpace text) ∧
      language.resolve text = longest? (language.stepMatches text)) := by
  by_cases listed : ∃ entry ∈ language.structural, entry.2 = Text.trimEnd Text.isSpace text
  · obtain ⟨⟨scope, _⟩, member, rfl⟩ := listed
    exact Or.inl ⟨scope, member, clear.resolve_structural member⟩
  · have unlisted : ∀ entry ∈ language.structural,
        entry.2 ≠ Text.trimEnd Text.isSpace text :=
      fun entry member same => listed ⟨entry, member, same⟩
    exact Or.inr ⟨unlisted, resolve_steps unlisted⟩

theorem resolve_structural_iff {scope : Scope} (structural : scope.isStructural = true) :
    language.resolve text = some ⟨scope, length⟩ ↔
      (scope, Text.trimEnd Text.isSpace text) ∈ language.structural ∧
        length = (Text.trimEnd Text.isSpace text).length := by
  constructor
  · intro resolved
    rcases clear.resolve_cases text with ⟨_, listed, same⟩ | ⟨_, same⟩
    · cases same.symm.trans resolved
      exact ⟨listed, rfl⟩
    · obtain ⟨_, _, opened, _⟩ := clear.is_longest_of_longest (same.symm.trans resolved)
      subst opened
      cases structural
  · rintro ⟨listed, rfl⟩
    exact clear.resolve_structural listed

theorem resolve_step_iff {keyword : StepKeyword} :
    language.resolve text = some ⟨.step keyword, length⟩ ↔
      ∃ synonym, language.IsLongest text keyword synonym length := by
  rw [← clear.longest_iff]
  rcases clear.resolve_cases text with ⟨scope, listed, same⟩ | ⟨_, same⟩
  · constructor
    · intro resolved
      cases same.symm.trans resolved
      cases clear.scopes _ listed
    · intro chosen
      obtain ⟨synonym, longest⟩ := clear.longest_iff.mp chosen
      have step : (keyword, synonym) ∈ language.steps :=
        List.one_le_count_iff.mp (Nat.le_of_eq longest.listed.symm)
      exact absurd longest.takes (clear.not_takes_of_structural listed step)
  · rw [same]

-- A step keyword that opens a text is taken when no longer one matches, also with spaces behind.
theorem resolve_opening {keyword : StepKeyword} {spaces : Text}
    (step : (keyword, synonym) ∈ language.steps) (opens : synonym <+: text)
    (blank : ∀ c ∈ spaces, Text.isSpace c = true)
    (longest : ∀ entry ∈ language.steps, synonym.length < entry.2.length →
      ∀ length, ¬Takes text entry.2 length) :
    language.resolve (text ++ spaces) = some ⟨.step keyword, synonym.length⟩ := by
  have takes : Takes (text ++ spaces) synonym synonym.length :=
    Or.inl ⟨opens.trans (List.prefix_append text spaces), rfl⟩
  refine clear.resolve_step_iff.mpr ⟨synonym, ?_, takes, ?_, ?_⟩
  · exact List.count_eq_one_of_mem clear.steps.of_map step
  · intro entry other length takesOther
    by_contra longer
    obtain ⟨fewer, takesText⟩ := takes_before_spaces blank takesOther
    exact longest entry other
      ((Nat.lt_of_not_le longer).trans_le (takes_le_synonym takesOther)) fewer takesText
  · exact fun entry other takesOther => clear.eq_of_takes other step takesOther takes

theorem resolve_none_iff :
    language.resolve text = none ↔
      (∀ entry ∈ language.structural, entry.2 ≠ Text.trimEnd Text.isSpace text) ∧
        ∀ entry ∈ language.steps, ∀ length, ¬Takes text entry.2 length := by
  constructor
  · intro unresolved
    rcases clear.resolve_cases text with ⟨_, _, same⟩ | ⟨unlisted, same⟩
    · cases same.symm.trans unresolved
    · refine ⟨unlisted, fun entry step length takes => ?_⟩
      obtain ⟨_, _, _, _, chosen⟩ := clear.exists_longest step takes
      cases (same.symm.trans unresolved).symm.trans chosen
  · rintro ⟨unlisted, unmatched⟩
    rw [resolve_steps unlisted, longest_eq_none_iff]
    apply List.eq_nil_iff_forall_not_mem.mpr
    intro found member
    obtain ⟨entry, step, matched, _⟩ := mem_step_matches_iff.mp member
    exact unmatched entry step _ (takes_of_synonym_length matched)

end Unambiguous

/-- In a bundled language a text is resolved as its one structural keyword, or else as the one step
keyword that takes the most of it; it is left unresolved when there is neither. -/
theorem resolve_bundled (bundled : language ∈ all) (text : Text) :
    let head := Text.trimEnd Text.isSpace text
    (∀ scope length, scope.isStructural = true →
      (language.resolve text = some ⟨scope, length⟩ ↔
        (scope, head) ∈ language.structural ∧ length = head.length)) ∧
    (∀ scope, (scope, head) ∈ language.structural → scope.isStructural = true ∧
      (∀ other, (other, head) ∈ language.structural → other = scope) ∧
        ∀ entry ∈ language.steps, ∀ length, ¬Takes text entry.2 length) ∧
    (∀ keyword length, language.resolve text = some ⟨.step keyword, length⟩ ↔
      ∃ synonym, language.IsLongest text keyword synonym length) ∧
    (∀ entry ∈ language.steps, ∀ length, Takes text entry.2 length →
      ∃ keyword synonym longest, language.IsLongest text keyword synonym longest) ∧
    (∀ keyword synonym length, language.IsLongest text keyword synonym length →
      1 ≤ length ∧ length ≤ text.length ∧
        (text.take length = synonym ∨ text.take length = Text.trimEnd Text.isSpace synonym)) ∧
    (language.resolve text = none ↔
      (∀ entry ∈ language.structural, entry.2 ≠ head) ∧
        ∀ entry ∈ language.steps, ∀ length, ¬Takes text entry.2 length) := by
  intro head
  obtain ⟨clear, _⟩ := tables_of_mem_all language bundled
  refine ⟨fun scope length structural => clear.resolve_structural_iff structural,
    fun scope listed => ⟨clear.scopes _ listed, fun other => clear.scope_eq listed,
      fun entry step length => clear.not_takes_of_structural listed step⟩,
    fun keyword length => clear.resolve_step_iff, ?_, ?_, clear.resolve_none_iff⟩
  · intro entry step length takes
    obtain ⟨keyword, synonym, longest, found, _⟩ := clear.exists_longest step takes
    exact ⟨keyword, synonym, longest, found⟩
  · intro keyword synonym length longest
    have resolved := clear.resolve_step_iff.mpr ⟨synonym, longest⟩
    exact ⟨resolve_length_pos resolved, takes_le_length longest.takes, take_of_takes longest.takes⟩

theorem resolve_bundled_nested :
    let french := ofDialect (Text.ofString "fr") .french
    let text := Text.ofString "Et que la porte"
    french ∈ all ∧ french.resolve text = some ⟨.step .conjunction, 7⟩ ∧
      ∃ synonym, french.IsLongest text .conjunction synonym 7 := by
  intro french text
  have bundled : french ∈ all := List.mem_iff_getElem?.mpr ⟨3, rfl⟩
  have resolved : french.resolve text = some ⟨.step .conjunction, 7⟩ := by decide +kernel
  obtain ⟨_, _, step, _⟩ := resolve_bundled bundled text
  exact ⟨bundled, resolved, (step .conjunction 7).mp resolved⟩

end Gherkin.Language
