import Mathlib.Tactic.MkIffOfInductiveProp
import Gherkin.Language.Find
import Gherkin.Proofs.Text.Lines
/-!
The grammar of language tags. A tag is written as a primary language with its other parts behind it,
each behind a hyphen or an underscore: a script, a region and any number of variants, in this order.
Reading a tag part by part accepts what the grammar allows and nothing else; although four letters
may be a script or a variant, taking them for a script never leads astray.
-/
namespace Gherkin

namespace LanguageTag

/-- Whether a character stands between two parts of a tag. -/
def isSeparator (c : Char) : Bool := c == '-' || c == '_'

/-- Whether a text is made of parts that each follow a separator. -/
inductive Appends : List Text → Text → Prop
  | nil : Appends [] []
  | cons {separator : Char} {part rest : Text} {parts : List Text}
      (parted : isSeparator separator = true) (whole : ∀ c ∈ part, isSeparator c = false)
      (later : Appends parts rest) : Appends (part :: parts) (separator :: part ++ rest)

/-- Whether parts of a tag have the forms of a script, a region and variants. -/
structure AreForms (script region : Option Text) (variants : List Text) : Prop where
  script : ∀ part ∈ script, isScript part = true
  region : ∀ part ∈ region, isRegion part = true
  variants : ∀ part ∈ variants, isVariant part = true

/-- Whether a text is a well-formed tag of a primary language. -/
def IsTagOf (primary text : Text) : Prop :=
  ∃ (script region : Option Text) (variants : List Text) (tail : Text),
    isPrimary primary = true ∧ AreForms script region variants ∧
      Appends (script.toList ++ region.toList ++ variants) tail ∧ text = primary ++ tail

variable {primary text first tail : Text} {parts : List Text}

theorem separator_of_alpha {c : Char} (alpha : c.isAlpha = true) : isSeparator c = false := by
  rw [isSeparator, Bool.or_eq_false_iff, beq_eq_false_iff_ne, beq_eq_false_iff_ne]
  constructor <;> rintro rfl <;> cases alpha

theorem free_of_is_primary (form : isPrimary primary = true) :
    ∀ c ∈ primary, isSeparator c = false := by
  simp only [isPrimary, Bool.and_eq_true, List.all_eq_true] at form
  exact fun c member => separator_of_alpha (form.1.1.1 c member)

theorem split_on_appends (appends : Appends parts tail)
    (free : ∀ c ∈ first, isSeparator c = false) :
    Text.splitOn isSeparator (first ++ tail) = first :: parts := by
  induction appends generalizing first with
  | nil =>
    rw [Text.split_on_free_front isSeparator free, Text.splitOn]
    simp
  | cons parted whole _ ih =>
    rw [Text.split_on_free_front isSeparator free, List.cons_append, Text.splitOn, ih whole]
    simp [parted]

theorem appends_of_split (split : Text.splitOn isSeparator text = first :: parts) :
    ∃ tail, Appends parts tail ∧ text = first ++ tail := by
  induction text generalizing first parts with
  | nil =>
    cases split
    exact ⟨[], .nil, rfl⟩
  | cons c rest ih =>
    obtain ⟨piece, others, pieces⟩ :=
      List.exists_cons_of_ne_nil (Text.split_on_ne_nil isSeparator rest)
    obtain ⟨tail, appends, rfl⟩ := ih pieces
    rw [Text.splitOn, pieces] at split
    split at split
    · next parted =>
      cases split
      have whole := Text.split_on_free isSeparator _ piece (pieces ▸ List.mem_cons_self)
      exact ⟨c :: piece ++ tail, .cons parted whole appends, rfl⟩
    · cases split
      exact ⟨tail, appends, rfl⟩

-- The forms differ in length: of the three only a script and a variant may be the same part.

theorem length_of_is_script (form : isScript first = true) : first.length = 4 := by
  simp only [isScript, Bool.and_eq_true, beq_iff_eq] at form
  exact form.2

theorem length_of_is_region (form : isRegion first = true) :
    first.length = 2 ∨ first.length = 3 := by
  simp only [isRegion, Bool.or_eq_true, Bool.and_eq_true, beq_iff_eq] at form
  exact form.imp And.right And.right

theorem length_of_is_variant (form : isVariant first = true) : 4 ≤ first.length := by
  unfold isVariant at form
  split at form
  · exact Nat.le_refl 4
  · simp only [Bool.and_eq_true, decide_eq_true_eq] at form
    exact Nat.le_of_succ_le form.1.2

theorem not_region_of_variants {variants : List Text}
    (forms : ∀ part ∈ variants, isVariant part = true) :
    optional isRegion variants = (none, variants) := by
  cases variants with
  | nil => rfl
  | cons part rest =>
    have long := length_of_is_variant (forms part List.mem_cons_self)
    refine if_neg fun region => ?_
    have short := length_of_is_region region
    omega

theorem optional_forms (form : Text → Bool) (parts : List Text) :
    (∀ part ∈ (optional form parts).1, form part = true) ∧
      parts = (optional form parts).1.toList ++ (optional form parts).2 := by
  cases parts with
  | nil => exact ⟨nofun, rfl⟩
  | cons part rest =>
    rw [optional]
    split
    · next formed =>
      refine ⟨fun _ taken => ?_, rfl⟩
      cases taken
      exact formed
    · exact ⟨nofun, rfl⟩

theorem optional_some {form : Text → Bool} {part : Text} (formed : form part = true)
    (rest : List Text) : optional form (part :: rest) = (some part, rest) := if_pos formed

theorem region_then_variants {region : Option Text} {variants : List Text}
    (forms : AreForms none region variants) :
    optional isRegion (region.toList ++ variants) = (region, variants) := by
  cases region with
  | none => exact not_region_of_variants forms.variants
  | some part => exact optional_some (forms.region part rfl) variants

-- Where no script is meant the first part may still be read as one, and then it is a variant.
theorem variants_of_forms {script region : Option Text} {variants : List Text}
    (forms : AreForms script region variants) :
    let read := optional isScript (script.toList ++ region.toList ++ variants)
    (optional isRegion read.2).2.all isVariant = true := by
  have all := List.all_eq_true.mpr forms.variants
  cases script with
  | some part =>
    have rest : AreForms none region variants := ⟨nofun, forms.region, forms.variants⟩
    have read : optional isScript ((some part).toList ++ region.toList ++ variants) =
        (some part, region.toList ++ variants) := optional_some (forms.script part rfl) _
    dsimp only
    rwa [read, region_then_variants rest]
  | none =>
    dsimp only [Option.toList_none, List.nil_append]
    cases region with
    | some part =>
      have notScript : isScript part ≠ true := fun form => by
        have long := length_of_is_script form
        have short := length_of_is_region (forms.region part rfl)
        omega
      have read : optional isScript ((some part).toList ++ variants) =
          (none, (some part).toList ++ variants) := if_neg notScript
      rwa [read, region_then_variants forms]
    | none =>
      have fewer : ∀ part ∈ (optional isScript variants).2, isVariant part = true := by
        intro part member
        apply forms.variants
        rw [(optional_forms isScript variants).2]
        exact List.mem_append_right _ member
      rw [Option.toList_none, List.nil_append, not_region_of_variants fewer]
      exact List.all_eq_true.mpr fewer

theorem of_text_eq (text : Text) :
    ofText text =
      match Text.splitOn isSeparator text with
      | [] => .error .primary
      | first :: parts =>
        if isPrimary first then
          let script := optional isScript parts
          let region := optional isRegion script.2
          if region.2.all isVariant then
            .ok ⟨first.map Char.toLower, script.1, region.1, region.2⟩
          else .error .subtag
        else .error .primary := rfl

/-- A text is read as a tag of a language when the grammar says that it is one. -/
theorem of_text_iff (text lower : Text) :
    (∃ tag, ofText text = .ok tag ∧ tag.primary = lower) ↔
      ∃ primary, IsTagOf primary text ∧ primary.map Char.toLower = lower := by
  constructor
  · rintro ⟨tag, read, rfl⟩
    rw [of_text_eq] at read
    split at read
    · cases read
    · next first parts split =>
      obtain ⟨tail, appends, rfl⟩ := appends_of_split split
      split at read
      · next isPrimary =>
        dsimp only at read
        split at read
        · next all =>
          cases read
          obtain ⟨script, whole⟩ := optional_forms isScript parts
          obtain ⟨region, rest⟩ := optional_forms isRegion (optional isScript parts).2
          rw [whole, rest, ← List.append_assoc] at appends
          exact ⟨first, ⟨_, _, _, tail, isPrimary, ⟨script, region, List.all_eq_true.mp all⟩,
            appends, rfl⟩, rfl⟩
        · cases read
      · cases read
  · rintro ⟨primary, ⟨script, region, variants, tail, form, forms, appends, rfl⟩, rfl⟩
    rw [of_text_eq, split_on_appends appends (free_of_is_primary form)]
    have all := variants_of_forms forms
    dsimp only at all ⊢
    rw [if_pos form, if_pos all]
    exact ⟨_, rfl, rfl⟩

-- The form of a part stays when its characters are exchanged for others that count the same.

/-- Whether two characters count the same in the forms of a tag's parts. -/
@[mk_iff] structure CountsAs (other c : Char) : Prop where
  alpha : other.isAlpha = c.isAlpha
  digit : other.isDigit = c.isDigit
  part : isPartChar other = isPartChar c
  separator : isSeparator other = isSeparator c

instance (other c : Char) : Decidable (CountsAs other c) :=
  decidable_of_iff' _ (countsAs_iff other c)

variable {f : Char → Char} {part : Text}

theorem is_variant_eq (part : Text) :
    isVariant part =
      if part.length = 4 then
        part.all isPartChar && ((part.take 1).all Char.isDigit || part.tail.all Char.isAlphanum)
      else part.all Char.isAlphanum && 5 ≤ part.length && part.length ≤ 8 := by
  rcases part with _ | ⟨a, _ | ⟨b, _ | ⟨c, _ | ⟨d, _ | ⟨e, rest⟩⟩⟩⟩⟩ <;> simp [isVariant]

theorem all_map_of_counts {p : Char → Bool} (same : ∀ c ∈ part, p (f c) = p c) :
    (part.map f).all p = part.all p := by
  induction part with
  | nil => rfl
  | cons c rest ih =>
    obtain ⟨first, others⟩ := List.forall_mem_cons.mp same
    rw [List.map_cons, List.all_cons, List.all_cons, first, ih others]

section Counts
variable (counts : ∀ c ∈ part, CountsAs (f c) c)
include counts

theorem alphanum_of_counts : ∀ c ∈ part, (f c).isAlphanum = c.isAlphanum := fun c member =>
  congrArg₂ or (counts c member).alpha (counts c member).digit

theorem is_script_map : isScript (part.map f) = isScript part := by
  rw [isScript, all_map_of_counts fun c member => (counts c member).alpha, List.length_map,
    isScript]

theorem is_region_map : isRegion (part.map f) = isRegion part := by
  rw [isRegion, all_map_of_counts fun c member => (counts c member).alpha,
    all_map_of_counts fun c member => (counts c member).digit, List.length_map, isRegion]

theorem is_variant_map : isVariant (part.map f) = isVariant part := by
  have alphanum := alphanum_of_counts counts
  rw [is_variant_eq, is_variant_eq, List.length_map, ← List.map_take, ← List.map_tail,
    all_map_of_counts fun c member => (counts c member).part, all_map_of_counts alphanum,
    all_map_of_counts fun c member => (counts c (List.mem_of_mem_take member)).digit,
    all_map_of_counts fun c member => alphanum c (List.mem_of_mem_tail member)]

end Counts

theorem part_char_of_alphanum {c : Char} (alphanum : c.isAlphanum = true) :
    isPartChar c = true := by
  have within {first last : Char} (begins : 0 < first.toNat) (ends : last.toNat < 128)
      (low : first.val ≤ c.val) (high : c.val ≤ last.val) : isPartChar c = true := by
    rw [isPartChar, Bool.and_eq_true, decide_eq_true_eq, decide_eq_true_eq]
    exact ⟨Nat.lt_of_lt_of_le begins (UInt32.le_iff_toNat_le.mp low),
      Nat.lt_of_le_of_lt (UInt32.le_iff_toNat_le.mp high) ends⟩
  rcases Bool.or_eq_true_iff.mp alphanum with alpha | digit
  · rcases Bool.or_eq_true_iff.mp alpha with upper | lower
    · obtain ⟨low, high⟩ := of_decide_eq_true upper
      exact within (by decide) (by decide) low high
    · obtain ⟨low, high⟩ := Bool.and_eq_true_iff.mp lower
      exact within (by decide) (by decide) (of_decide_eq_true low) (of_decide_eq_true high)
  · obtain ⟨low, high⟩ := Bool.and_eq_true_iff.mp digit
    exact within (by decide) (by decide) (of_decide_eq_true low) (of_decide_eq_true high)

theorem part_chars_of_forms {script region : Option Text} {variants : List Text}
    (forms : AreForms script region variants) :
    ∀ part ∈ script.toList ++ region.toList ++ variants, ∀ c ∈ part, isPartChar c = true := by
  intro part member c inside
  rw [List.mem_append, List.mem_append, Option.mem_toList, Option.mem_toList] at member
  rcases member with (isScript | isRegion) | isVariant
  · have form := forms.script part isScript
    simp only [LanguageTag.isScript, Bool.and_eq_true, List.all_eq_true] at form
    exact part_char_of_alphanum (Bool.or_eq_true_iff.mpr (Or.inl (form.1 c inside)))
  · have form := forms.region part isRegion
    simp only [LanguageTag.isRegion, Bool.or_eq_true, Bool.and_eq_true, List.all_eq_true] at form
    apply part_char_of_alphanum
    rcases form with ⟨alpha, _⟩ | ⟨digit, _⟩
    · exact Bool.or_eq_true_iff.mpr (Or.inl (alpha c inside))
    · exact Bool.or_eq_true_iff.mpr (Or.inr (digit c inside))
  · have form := forms.variants part isVariant
    rw [is_variant_eq] at form
    split at form
    · simp only [Bool.and_eq_true, List.all_eq_true] at form
      exact form.1 c inside
    · simp only [Bool.and_eq_true, List.all_eq_true] at form
      exact part_char_of_alphanum (form.1.1 c inside)

theorem ascii_of_part_char {c : Char} (part : isPartChar c = true) : c.toNat < 128 := by
  simp only [isPartChar, Bool.and_eq_true, decide_eq_true_eq] at part
  exact part.2

theorem part_char_of_separator {c : Char} (parted : isSeparator c = true) :
    isPartChar c = true := by
  simp only [isSeparator, Bool.or_eq_true, beq_iff_eq] at parted
  rcases parted with rfl | rfl <;> decide

theorem part_chars_of_appends (appends : Appends parts tail)
    (chars : ∀ part ∈ parts, ∀ c ∈ part, isPartChar c = true) :
    ∀ c ∈ tail, isPartChar c = true := by
  induction appends with
  | nil => exact nofun
  | cons parted _ _ ih =>
    obtain ⟨first, others⟩ := List.forall_mem_cons.mp chars
    exact List.forall_mem_append.mpr
      ⟨List.forall_mem_cons.mpr ⟨part_char_of_separator parted, first⟩, ih others⟩

/-- A tag is in ASCII. -/
theorem ascii_of_tag (tag : IsTagOf primary text) : ∀ c ∈ text, c.toNat < 128 := by
  obtain ⟨script, region, variants, tail, form, forms, appends, rfl⟩ := tag
  have behind := part_chars_of_appends appends (part_chars_of_forms forms)
  simp only [isPrimary, Bool.and_eq_true, List.all_eq_true] at form
  intro c member
  apply ascii_of_part_char
  rcases List.mem_append.mp member with inside | inside
  · exact part_char_of_alphanum (Bool.or_eq_true_iff.mpr (Or.inl (form.1.1.1 c inside)))
  · exact behind c inside

section Counts
variable (counts : ∀ c, isPartChar c = true → CountsAs (f c) c)
include counts

theorem AreForms.map {script region : Option Text} {variants : List Text}
    (forms : AreForms script region variants) :
    AreForms (script.map (List.map f)) (region.map (List.map f)) (variants.map (List.map f)) := by
  have among := part_chars_of_forms forms
  simp only [List.forall_mem_append, Option.mem_toList] at among
  obtain ⟨⟨ofScript, ofRegion⟩, ofVariants⟩ := among
  constructor
  · intro image member
    obtain ⟨part, taken, rfl⟩ := Option.map_eq_some_iff.mp member
    rw [is_script_map fun c inside => counts c (ofScript part taken c inside)]
    exact forms.script part taken
  · intro image member
    obtain ⟨part, taken, rfl⟩ := Option.map_eq_some_iff.mp member
    rw [is_region_map fun c inside => counts c (ofRegion part taken c inside)]
    exact forms.region part taken
  · intro image member
    obtain ⟨part, taken, rfl⟩ := List.mem_map.mp member
    rw [is_variant_map fun c inside => counts c (ofVariants part taken c inside)]
    exact forms.variants part taken

theorem Appends.map (appends : Appends parts tail)
    (chars : ∀ part ∈ parts, ∀ c ∈ part, isPartChar c = true) :
    Appends (parts.map (List.map f)) (tail.map f) := by
  induction appends with
  | nil => exact .nil
  | @cons separator part rest parts parted whole _ ih =>
    obtain ⟨first, others⟩ := List.forall_mem_cons.mp chars
    have same := (counts _ (part_char_of_separator parted)).separator
    rw [List.map_append, List.map_cons, List.map_cons]
    refine .cons (same.trans parted) ?_ (ih others)
    intro image member
    obtain ⟨c, inside, rfl⟩ := List.mem_map.mp member
    exact (counts c (first c inside)).separator.trans (whole c inside)

end Counts

end LanguageTag
end Gherkin
