import Mathlib.Data.List.Nodup
import Gherkin.Proofs.Language.Tag
import Gherkin.Proofs.Text.Trimmed
import Gherkin.Proofs.Token.Returns
/-!
Finding a language. The code is tried as it stands and in its normal spelling, but both find only
what the primary language of the tag finds, so it alone decides. How a code is spelled therefore
makes no difference, and no more do parts of a tag behind the primary language, as long as no blank
ends them: that is trimmed before the tag is read.
-/
namespace Gherkin.Language
open LanguageTag

variable {code text primary : Text} {language : Language}

theorem codes_of_mem_all : ∀ language ∈ all,
    isPrimary language.code = true ∧ normalSpelling language.code = language.code := by
  decide +kernel

theorem codes_nodup : (all.map (·.code)).Nodup := by decide +kernel

theorem with_code_iff : withCode? code = some language ↔ language ∈ all ∧ language.code = code := by
  constructor
  · intro found
    have held := List.find?_some found
    exact ⟨with_code_mem found, beq_iff_eq.mp held⟩
  · rintro ⟨bundled, rfl⟩
    cases found : withCode? language.code with
    | none => exact absurd (beq_self_eq_true _) (List.find?_eq_none.mp found language bundled)
    | some other =>
      have held := List.find?_some found
      have same := List.inj_on_of_nodup_map codes_nodup (with_code_mem found) bundled
        (beq_iff_eq.mp held)
      rw [same]

theorem with_tag_iff :
    withTag? text = some language ↔
      language ∈ all ∧
        ∃ primary, IsTagOf primary text ∧ primary.map Char.toLower = language.code := by
  rw [← of_text_iff]
  unfold withTag?
  split
  · next tag read =>
    rw [with_code_iff, read]
    simp [eq_comm]
  · next read => simp [read]

-- What is true of all characters of ASCII is tried out, and all others stay as they are.

theorem of_ascii {p : Char → Prop} (every : ∀ n < 128, p (Char.ofNat n)) {c : Char}
    (ascii : c.toNat < 128) : p c := by
  have tried := every c.toNat ascii
  rwa [Char.ofNat_toNat] at tried

theorem lower_beyond {c : Char} (beyond : 128 ≤ c.toNat) : c.toLower = c := by
  refine dif_neg fun upper => ?_
  have last := UInt32.le_iff_toNat_le.mp upper.2
  exact absurd (Nat.le_trans beyond last) (by decide)

def normalChar (c : Char) : Char := if c = '_' then '-' else foldCase c

theorem normal_spelling_eq (code : Text) : normalSpelling code = code.map normalChar := rfl

/-- A character but for what its spelling in a code leaves open: the case of a letter of ASCII, and
which of the two separators it is. -/
def spelled (c : Char) : Char := if c = '_' then '-' else c.toLower

theorem spelled_beyond {c : Char} (beyond : 128 ≤ c.toNat) : spelled c = c := by
  rw [spelled, lower_beyond beyond]
  split
  · next same => subst same; exact absurd beyond (by decide)
  · rfl

theorem normal_char_of_ascii {c : Char} (ascii : c.toNat < 128) :
    normalChar c = spelled c ∧ CountsAs (normalChar c) c := by
  have every : ∀ n < 128, normalChar (Char.ofNat n) = spelled (Char.ofNat n) ∧
      CountsAs (normalChar (Char.ofNat n)) (Char.ofNat n) := by decide +kernel
  exact @of_ascii (fun c => normalChar c = spelled c ∧ CountsAs (normalChar c) c) every c ascii

theorem normal_char_beyond {c : Char} (beyond : 128 ≤ c.toNat) :
    normalChar c = c ∨ normalChar c = 'k' := by
  unfold normalChar foldCase
  split
  · next same => subst same; exact absurd beyond (by decide)
  · split
    · exact Or.inr rfl
    · exact Or.inl (lower_beyond beyond)

theorem normal_char_spelled (c : Char) : normalChar (spelled c) = normalChar c := by
  by_cases ascii : c.toNat < 128
  · exact @of_ascii (fun c => normalChar (spelled c) = normalChar c) (by decide +kernel) c ascii
  · rw [spelled_beyond (Nat.le_of_not_lt ascii)]

theorem lower_normal_char (c : Char) : (normalChar c).toLower = normalChar c := by
  by_cases ascii : c.toNat < 128
  · exact @of_ascii (fun c => (normalChar c).toLower = normalChar c) (by decide +kernel) c ascii
  · have beyond := Nat.le_of_not_lt ascii
    rcases normal_char_beyond beyond with same | same
    · rw [same, lower_beyond beyond]
    · rw [same]
      rfl

theorem is_blank_spelled (c : Char) : Text.isBlank (spelled c) = Text.isBlank c := by
  by_cases ascii : c.toNat < 128
  · exact @of_ascii (fun c => Text.isBlank (spelled c) = Text.isBlank c) (by decide +kernel) c ascii
  · rw [spelled_beyond (Nat.le_of_not_lt ascii)]

theorem normal_char_counts {c : Char} (part : isPartChar c = true) : CountsAs (normalChar c) c := by
  simp only [isPartChar, Bool.and_eq_true, decide_eq_true_eq] at part
  exact (normal_char_of_ascii part.2).2

theorem normal_spelling_of_spelled {other : Text} (same : other.map spelled = code.map spelled) :
    normalSpelling other = normalSpelling code := by
  have through (code : Text) : normalSpelling code = (code.map spelled).map normalChar := by
    rw [normal_spelling_eq, List.map_map]
    exact List.map_congr_left fun c _ => (normal_char_spelled c).symm
  rw [through, through, same]

theorem lower_of_tag_of_normal (tag : IsTagOf primary (normalSpelling code)) :
    primary.map Char.toLower = primary := by
  obtain ⟨_, _, _, tail, _, _, _, whole⟩ := tag
  conv_rhs => rw [← List.map_id primary]
  apply List.map_congr_left
  intro c member
  have inside : c ∈ normalSpelling code := whole ▸ List.mem_append_left tail member
  obtain ⟨d, _, rfl⟩ := List.mem_map.mp inside
  exact lower_normal_char d

-- The first two of the three ways to find a language find what the last one does.

theorem with_tag_of_code (found : withCode? code = some language) :
    withTag? code = some language := by
  obtain ⟨bundled, rfl⟩ := with_code_iff.mp found
  obtain ⟨form, normal⟩ := codes_of_mem_all language bundled
  have tag : IsTagOf language.code language.code :=
    ⟨none, none, [], [], form, ⟨nofun, nofun, nofun⟩, .nil, (List.append_nil _).symm⟩
  rw [← normal] at tag
  have lower := lower_of_tag_of_normal tag
  rw [normal] at tag lower
  exact with_tag_iff.mpr ⟨bundled, _, tag, lower⟩

theorem with_tag_of_code_as_written (found : withCode? code = some language) :
    withTag? (normalSpelling code) = some language := by
  obtain ⟨bundled, rfl⟩ := with_code_iff.mp found
  rw [(codes_of_mem_all language bundled).2]
  exact with_tag_of_code found

theorem find_eq (code : Text) :
    find? code = withTag? (normalSpelling (Text.trim Text.isBlank code)) := by
  unfold find?
  dsimp only
  cases written : withCode? (Text.trim Text.isBlank code) with
  | some language => exact (with_tag_of_code_as_written written).symm
  | none =>
    cases normal : withCode? (normalSpelling (Text.trim Text.isBlank code)) with
    | some language => exact (with_tag_of_code normal).symm
    | none => rfl

theorem find_iff : find? code = some language ↔
    language ∈ all ∧ IsTagOf language.code (normalSpelling (Text.trim Text.isBlank code)) := by
  rw [find_eq, with_tag_iff]
  refine and_congr_right fun bundled => ?_
  constructor
  · rintro ⟨primary, tag, same⟩
    rwa [← same, lower_of_tag_of_normal tag]
  · intro tag
    exact ⟨_, tag, lower_of_tag_of_normal tag⟩

-- How a code is spelled makes no difference, and no more do blanks around it.

theorem find_of_spelled {before behind other : Text} (front : ∀ c ∈ before, Text.isBlank c = true)
    (back : ∀ c ∈ behind, Text.isBlank c = true) (same : other.map spelled = code.map spelled) :
    find? (before ++ other ++ behind) = find? code := by
  have trimmed (code : Text) : (Text.trim Text.isBlank code).map spelled =
      Text.trim Text.isBlank (code.map spelled) := (Text.trim_map is_blank_spelled code).symm
  have inside : (Text.trim Text.isBlank other).map spelled =
      (Text.trim Text.isBlank code).map spelled := by rw [trimmed, same, trimmed]
  rw [find_eq, find_eq, Text.trim_amid front back, normal_spelling_of_spelled inside]

theorem normal_char_separator (c : Char) : isSeparator (normalChar c) = isSeparator c := by
  by_cases ascii : c.toNat < 128
  · exact (normal_char_of_ascii ascii).2.separator
  · have none : isSeparator c = false := by
      rw [isSeparator, Bool.or_eq_false_iff, beq_eq_false_iff_ne, beq_eq_false_iff_ne]
      constructor <;> rintro rfl <;> exact ascii (by decide)
    rcases normal_char_beyond (Nat.le_of_not_lt ascii) with same | same
    · rw [same]
    · rw [same, none]
      rfl

theorem normal_of_bare (tag : IsTagOf primary (normalSpelling code))
    (bare : ∀ c ∈ code, isSeparator c = false) : normalSpelling code = primary := by
  obtain ⟨script, region, variants, tail, _, _, appends, whole⟩ := tag
  generalize script.toList ++ region.toList ++ variants = parts at appends
  cases appends with
  | nil => rw [whole, List.append_nil]
  | @cons separator part rest _ parted _ _ =>
    have inside : separator ∈ normalSpelling code := by simp [whole]
    obtain ⟨c, member, rfl⟩ := List.mem_map.mp inside
    have same := normal_char_separator c
    rw [bare c member] at same
    exact Bool.noConfusion (same.symm.trans parted)

theorem find_of_appended {script region : Option Text} {variants : List Text} {tail : Text}
    (trimmed : Text.IsTrimmed Text.isBlank code) (bare : ∀ c ∈ code, isSeparator c = false)
    (found : find? code = some language) (forms : AreForms script region variants)
    (appends : Appends (script.toList ++ region.toList ++ variants) tail)
    (ends : ∀ c, tail.getLast? = some c → Text.isBlank c = false) :
    find? (code ++ tail) = some language := by
  obtain ⟨bundled, tag⟩ := find_iff.mp found
  rw [Text.trim_of_trimmed trimmed] at tag
  have normal := normal_of_bare tag bare
  obtain ⟨_, _, _, _, form, _⟩ := tag
  have whole : Text.IsTrimmed Text.isBlank (code ++ tail) := by
    constructor
    · intro c head
      cases code with
      | nil => rw [← normal] at form; cases form
      | cons first rest => exact trimmed.first c head
    · intro c last
      rw [List.getLast?_append] at last
      cases final : tail.getLast? with
      | some d =>
        rw [final] at last
        exact ends c (final.trans last)
      | none =>
        rw [final] at last
        exact trimmed.last c last
  rw [find_iff, Text.trim_of_trimmed whole]
  refine ⟨bundled, _, _, _, tail.map normalChar, form, forms.map fun _ => normal_char_counts,
    ?_, ?_⟩
  · have mapped := appends.map (fun _ => normal_char_counts) (part_chars_of_forms forms)
    simpa [Option.toList_map] using mapped
  · rw [normal_spelling_eq, List.map_append, ← normal_spelling_eq, normal]

-- Beyond ASCII only the Kelvin sign has a lower case in ASCII, so what the lower case of any other
-- character is makes no difference to a tag.

/-- Whether a text is what a character becomes in lower case. What that is outside ASCII is left
open, also that it may be several characters and another one in another place. -/
def IsLowerCase (c : Char) (lower : Text) : Prop :=
  if c.toNat < 128 ∨ c = '\u212A' then lower = [foldCase c] else ∃ d ∈ lower, 128 ≤ d.toNat

theorem lower_case_of_fold {lowers : List Text} (lowered : List.Forall₂ IsLowerCase text lowers)
    (folds : ∀ c ∈ text, c.toNat < 128 ∨ c = '\u212A') : lowers.flatten = text.map foldCase := by
  induction lowered with
  | nil => rfl
  | cons first _ ih =>
    obtain ⟨here, others⟩ := List.forall_mem_cons.mp folds
    rw [IsLowerCase, if_pos here] at first
    rw [List.flatten_cons, ih others, first]
    rfl

theorem beyond_of_lower_case {lowers : List Text} (lowered : List.Forall₂ IsLowerCase text lowers)
    {c : Char} (member : c ∈ text) (unfolded : ¬(c.toNat < 128 ∨ c = '\u212A')) :
    ∃ d ∈ lowers.flatten, 128 ≤ d.toNat := by
  induction lowered with
  | nil => cases member
  | cons first _ ih =>
    simp only [List.flatten_cons, List.mem_append]
    rcases List.mem_cons.mp member with rfl | later
    · rw [IsLowerCase, if_neg unfolded] at first
      obtain ⟨d, inside, beyond⟩ := first
      exact ⟨d, Or.inl inside, beyond⟩
    · obtain ⟨d, inside, beyond⟩ := ih later
      exact ⟨d, Or.inr inside, beyond⟩

theorem tag_of_lower_case {lowers : List Text} (lowered : List.Forall₂ IsLowerCase text lowers) :
    IsTagOf primary lowers.flatten ↔ IsTagOf primary (text.map foldCase) := by
  by_cases folds : ∀ c ∈ text, c.toNat < 128 ∨ c = '\u212A'
  · rw [lower_case_of_fold lowered folds]
  · obtain ⟨c, member, unfolded⟩ := not_forall₂.mp folds
    obtain ⟨notAscii, notKelvin⟩ := not_or.mp unfolded
    have beyond := Nat.le_of_not_lt notAscii
    have same : foldCase c = c := by rw [foldCase, if_neg notKelvin, lower_beyond beyond]
    obtain ⟨d, inside, beyondToo⟩ := beyond_of_lower_case lowered member unfolded
    constructor
    · exact fun tag => absurd (ascii_of_tag tag d inside) (Nat.not_lt.mpr beyondToo)
    · exact fun tag => absurd (ascii_of_tag tag c (List.mem_map.mpr ⟨c, member, same⟩))
        (Nat.not_lt.mpr beyond)

theorem normal_spelling_of_hyphened (code : Text) :
    normalSpelling code = code.map (foldCase ∘ fun c => if c = '_' then '-' else c) := by
  refine List.map_congr_left fun c _ => ?_
  rw [Function.comp_apply]
  split <;> rfl

/-- Finding a language is looking up the primary language of a tag. A language is found exactly when
the code, trimmed, with hyphens and in lower case, is a tag of it, so no way to find one decides
otherwise than reading the tag does. Blanks around a code and the spelling of its letters and
separators make no difference, and no more do a script, a region and variants behind a bare code,
unless a blank ends them. -/
theorem find_by_primary_language (code : Text) (language : Language) :
    let bare := Text.trim Text.isBlank code
    (find? code = some language ↔
      language ∈ all ∧ IsTagOf language.code (normalSpelling bare)) ∧
    (∀ lowers, List.Forall₂ IsLowerCase (bare.map fun c => if c = '_' then '-' else c) lowers →
      (IsTagOf language.code lowers.flatten ↔ IsTagOf language.code (normalSpelling bare))) ∧
    (withCode? bare = some language ∨ withCode? (normalSpelling bare) = some language →
      withTag? (normalSpelling bare) = some language) ∧
    find? code = withTag? (normalSpelling bare) ∧
    (∀ before behind other, (∀ c ∈ before, Text.isBlank c = true) →
      (∀ c ∈ behind, Text.isBlank c = true) → other.map spelled = code.map spelled →
      find? (before ++ other ++ behind) = find? code) ∧
    (Text.IsTrimmed Text.isBlank code → (∀ c ∈ code, isSeparator c = false) →
      find? code = some language →
      ∀ script region variants tail, AreForms script region variants →
        Appends (script.toList ++ region.toList ++ variants) tail →
        (∀ c, tail.getLast? = some c → Text.isBlank c = false) →
        find? (code ++ tail) = some language) := by
  refine ⟨find_iff, fun lowers lowered => ?_, ?_, find_eq code, fun _ _ _ => find_of_spelled,
    fun trimmed bare found _ _ _ _ => find_of_appended trimmed bare found⟩
  · rw [tag_of_lower_case lowered, List.map_map, normal_spelling_of_hyphened]
  · rintro (written | normal)
    · exact with_tag_of_code_as_written written
    · exact with_tag_of_code normal

theorem finds_french_however_tagged :
    let french := ofDialect (Text.ofString "fr") .french
    let tail := Text.ofString "-Latn_CA-1$$$"
    find? (Text.ofString "\u00A0fR\t") = some french ∧
    find? (Text.ofString "Fr" ++ tail) = some french := by
  have found : find? (Text.ofString "Fr") = some (ofDialect (Text.ofString "fr") .french) := by
    decide +kernel
  obtain ⟨_, _, _, _, spellings, appended⟩ := find_by_primary_language (Text.ofString "Fr")
    (ofDialect (Text.ofString "fr") .french)
  constructor
  · rw [← found]
    exact spellings ['\u00A0'] ['\t'] ['f', 'R'] (List.forall_mem_singleton.mpr rfl)
      (List.forall_mem_singleton.mpr rfl) rfl
  · have forms : AreForms (some (Text.ofString "Latn")) (some (Text.ofString "CA"))
        [Text.ofString "1$$$"] := by constructor <;> decide
    refine appended (by decide) (by simp [Text.ofString, isSeparator]) found _ _ _ _ forms ?_ ?_
    · have variant : Appends [Text.ofString "1$$$"] (Text.ofString "-1$$$") :=
        .cons rfl (by simp [Text.ofString, isSeparator]) .nil
      exact .cons rfl (by simp [Text.ofString, isSeparator])
        (.cons rfl (by simp [Text.ofString, isSeparator]) variant)
    · rintro _ ⟨⟩
      rfl

/-- A variant of four characters that begins with a digit may end in blanks, and a tag that ends so
is not the tag that is read. -/
theorem find_trims_variant :
    let french := ofDialect (Text.ofString "fr") .french
    find? (Text.ofString "fr") = some french ∧ AreForms none none [Text.ofString "1   "] ∧
    Appends [Text.ofString "1   "] (Text.ofString "-1   ") ∧
    IsTagOf french.code (Text.ofString "fr-1   ") ∧
    find? (Text.ofString "fr" ++ Text.ofString "-1   ") = none := by
  have forms : AreForms none none [Text.ofString "1   "] := by constructor <;> decide
  have appends : Appends [Text.ofString "1   "] (Text.ofString "-1   ") :=
    .cons rfl (by simp [Text.ofString, isSeparator]) .nil
  have tag : IsTagOf (Text.ofString "fr") (Text.ofString "fr-1   ") :=
    ⟨none, none, _, _, by decide, forms, appends, rfl⟩
  exact ⟨by decide +kernel, forms, appends, tag, by decide +kernel⟩

end Gherkin.Language
