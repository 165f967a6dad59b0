import Mathlib.Data.List.Sort
import Gherkin.Language.Bundled
import Gherkin.Proofs.Text.Trimmed
/-!
Tables out of dialects. The step synonyms of a dialect are read list after list, and one that is
blank or in the table already is passed over, whatever keyword it is listed for. So a table has each
synonym once, in the place and with the keyword of its first listing, and asterisks are bullets.
There is no other table of which this holds.
-/
namespace Gherkin

/-- Whether the first listing of one synonym is in front of the first listing of another. -/
def Text.ListedBefore (synonyms : List Text) (earlier later : Text) : Prop :=
  synonyms.idxOf earlier < synonyms.idxOf later

namespace Dialect

/-- The step synonyms of a dialect, list after list. -/
def stepSynonyms (dialect : Dialect) : List Text :=
  dialect.context ++ dialect.action ++ dialect.outcome ++ dialect.conjunction ++ dialect.contrast

/-- The keyword of the first list that has a synonym. -/
def keyword? (dialect : Dialect) (synonym : Text) : Option StepKeyword :=
  if synonym ∈ dialect.context then some .context
  else if synonym ∈ dialect.action then some .action
  else if synonym ∈ dialect.outcome then some .outcome
  else if synonym ∈ dialect.conjunction then some .conjunction
  else if synonym ∈ dialect.contrast then some .contrast
  else none

/-- Whether a table is made from the step synonyms of a dialect: it has those that are not blank,
each once and in the order of their first listings. An asterisk between blanks is a bullet, and any
other synonym has the keyword of the first list that it is in. -/
structure IsStepTable (dialect : Dialect) (table : List (StepKeyword × Text)) : Prop where
  distinct : (table.map (·.2)).Nodup
  listed : ∀ synonym, synonym ∈ table.map (·.2) ↔
    synonym ∈ dialect.stepSynonyms ∧ Text.trim Text.isBlank synonym ≠ []
  ordered : (table.map (·.2)).Pairwise (Text.ListedBefore dialect.stepSynonyms)
  bullets : ∀ entry ∈ table, Text.trim Text.isBlank entry.2 = ['*'] → entry.1 = .bullet
  keywords : ∀ entry ∈ table, Text.trim Text.isBlank entry.2 ≠ ['*'] →
    dialect.keyword? entry.2 = some entry.1

/-- The entries of a scope: its synonyms that are not blank, as often as they are listed. -/
def scopeEntries (scope : Scope) (synonyms : List Text) : List (Scope × Text) :=
  (synonyms.filter fun synonym => Text.trim Text.isBlank synonym ≠ []).map (scope, ·)

/-- The step synonyms of a dialect in the order in which they are read, each with the keyword that
it is listed for. -/
def stepListings (dialect : Dialect) : List (StepKeyword × Text) :=
  dialect.steps.flatMap fun list => list.2.map fun synonym => (list.1, synonym)

theorem map_step_listings (dialect : Dialect) :
    dialect.stepListings.map (·.2) = dialect.stepSynonyms := by
  simp [stepListings, steps, stepSynonyms, Function.comp_def]

theorem find_listed (keyword : StepKeyword) (synonyms : List Text) (synonym : Text) :
    (synonyms.map (keyword, ·)).find? (·.2 == synonym) =
      if synonym ∈ synonyms then some (keyword, synonym) else none := by
  induction synonyms with
  | nil => rfl
  | cons first rest ih =>
    by_cases same : first = synonym
    · simp [same]
    · simp [same, Ne.symm same, ih]

theorem find_step_listing (dialect : Dialect) (synonym : Text) :
    dialect.stepListings.find? (·.2 == synonym) =
      (dialect.keyword? synonym).map (·, synonym) := by
  simp only [stepListings, steps, List.flatMap_cons, List.flatMap_nil, List.find?_append,
    find_listed, keyword?]
  split_ifs <;> rfl

end Dialect

namespace Text
variable {synonyms : List Text} {earlier later : Text}

instance (synonyms : List Text) : Std.Asymm (ListedBefore synonyms) :=
  ⟨fun _ _ => Nat.lt_asymm⟩

theorem ne_of_listed_before (before : ListedBefore synonyms earlier later) : earlier ≠ later := by
  rintro rfl
  exact Nat.lt_irrefl _ before

theorem listed_before_append (before : ListedBefore synonyms earlier later)
    (memberEarlier : earlier ∈ synonyms) (memberLater : later ∈ synonyms) (more : List Text) :
    ListedBefore (synonyms ++ more) earlier later := by
  rw [ListedBefore, List.idxOf_append_of_mem memberEarlier, List.idxOf_append_of_mem memberLater]
  exact before

theorem listed_before_new (member : earlier ∈ synonyms) (new : later ∉ synonyms)
    (more : List Text) : ListedBefore (synonyms ++ more) earlier later := by
  rw [ListedBefore, List.idxOf_append_of_mem member, List.idxOf_append_of_notMem new]
  exact Nat.lt_add_right _ (List.idxOf_lt_length_of_mem member)

theorem trim_ne_nil_iff (synonym : Text) :
    trim isBlank synonym ≠ [] ↔ isBlankText synonym = false := by
  rw [ne_eq, trim_eq_nil_iff, Bool.not_eq_true]
  rfl

end Text

namespace Language
variable {listings table others : List (StepKeyword × Text)} {listing : StepKeyword × Text}
  {dialect : Dialect}

/-- A table after one more listing is read. -/
def record (table : List (StepKeyword × Text)) (listing : StepKeyword × Text) :
    List (StepKeyword × Text) :=
  if Text.isBlankText listing.2 = true ∨ listing.2 ∈ table.map (·.2) then table
  else table ++ [(keywordOf listing.1 listing.2, listing.2)]

theorem mem_first_entries_cons {Key : Type} (first : Key × Text) (rest : List (Key × Text))
    (synonym : Text) :
    synonym ∈ (firstEntries (first :: rest)).map (·.2) ↔
      synonym = first.2 ∨ synonym ∈ (firstEntries rest).map (·.2) := by
  rw [firstEntries, List.map_cons, List.mem_cons]
  by_cases same : synonym = first.2 <;> simp [same]

-- The first entries are told from the front, but a table grows at its end.
theorem first_entries_append_last {Key : Type} (table : List (Key × Text)) (entry : Key × Text) :
    firstEntries (table ++ [entry]) =
      if entry.2 ∈ (firstEntries table).map (·.2) then firstEntries table
      else firstEntries table ++ [entry] := by
  induction table with
  | nil => rfl
  | cons first rest ih =>
    rw [List.cons_append]
    simp only [mem_first_entries_cons]
    rw [firstEntries, firstEntries, ih]
    by_cases held : entry.2 ∈ (firstEntries rest).map (·.2)
    · rw [if_pos held, if_pos (Or.inr held)]
    · rw [if_neg held, List.filter_append]
      by_cases same : entry.2 = first.2
      · simp [same]
      · simp [same, held]

theorem step_table_eq_foldl (dialect : Dialect) :
    stepTable dialect = dialect.stepListings.foldl record [] := by
  show firstEntries ((dialect.stepListings.filter fun listing => !Text.isBlankText listing.2).map
    fun listing => (keywordOf listing.1 listing.2, listing.2)) = _
  induction dialect.stepListings using List.reverseRecOn with
  | nil => rfl
  | append_singleton before listing ih =>
    rw [List.foldl_concat, ← ih, record, List.filter_append, List.map_append]
    by_cases blank : Text.isBlankText listing.2 = true
    · simp [blank]
    · have kept : [listing].filter (fun listing => !Text.isBlankText listing.2) = [listing] := by
        simp [blank]
      rw [kept, List.map_singleton, first_entries_append_last]
      simp only [blank, Bool.false_eq_true, false_or]

/-- Whether an entry has the keyword that comes of the first listing of its synonym. -/
def FirstGives (listings : List (StepKeyword × Text)) (entry : StepKeyword × Text) : Prop :=
  ∃ keyword, listings.find? (·.2 == entry.2) = some (keyword, entry.2) ∧
    entry.1 = keywordOf keyword entry.2

/-- Whether a table has what it should when these listings have been read. -/
structure Tabulates (listings table : List (StepKeyword × Text)) : Prop where
  listed : ∀ synonym, synonym ∈ table.map (·.2) ↔
    synonym ∈ listings.map (·.2) ∧ Text.isBlankText synonym = false
  ordered : (table.map (·.2)).Pairwise (Text.ListedBefore (listings.map (·.2)))
  keywords : ∀ entry ∈ table, FirstGives listings entry

namespace Tabulates
variable (known : Tabulates listings table)
include known

theorem mem_listings {synonym : Text} (held : synonym ∈ table.map (·.2)) :
    synonym ∈ listings.map (·.2) := ((known.listed synonym).mp held).1

-- What follows changes nothing for the synonyms in the table, for they are listed before it.

theorem ordered_append (more : List (StepKeyword × Text)) :
    (table.map (·.2)).Pairwise (Text.ListedBefore ((listings ++ more).map (·.2))) := by
  refine known.ordered.imp_of_mem fun heldEarlier heldLater before => ?_
  rw [List.map_append]
  exact Text.listed_before_append before (known.mem_listings heldEarlier)
    (known.mem_listings heldLater) _

theorem keywords_append (more : List (StepKeyword × Text)) :
    ∀ entry ∈ table, FirstGives (listings ++ more) entry := by
  intro entry member
  obtain ⟨keyword, found, given⟩ := known.keywords entry member
  exact ⟨keyword, by rw [List.find?_append, found, Option.some_or], given⟩

theorem pass_over (needless : Text.isBlankText listing.2 = true ∨ listing.2 ∈ table.map (·.2)) :
    Tabulates (listings ++ [listing]) table where
  listed := by
    intro synonym
    rw [known.listed, List.map_append, List.mem_append, List.map_singleton, List.mem_singleton]
    constructor
    · rintro ⟨member, visible⟩
      exact ⟨Or.inl member, visible⟩
    · rintro ⟨member | rfl, visible⟩
      · exact ⟨member, visible⟩
      · rcases needless with blank | held
        · exact Bool.noConfusion (visible.symm.trans blank)
        · exact ⟨known.mem_listings held, visible⟩
  ordered := known.ordered_append [listing]
  keywords := known.keywords_append [listing]

theorem take_up (visible : Text.isBlankText listing.2 = false)
    (new : listing.2 ∉ table.map (·.2)) :
    Tabulates (listings ++ [listing])
      (table ++ [(keywordOf listing.1 listing.2, listing.2)]) := by
  have unlisted : listing.2 ∉ listings.map (·.2) :=
    fun member => new ((known.listed _).mpr ⟨member, visible⟩)
  have grown : (table ++ [(keywordOf listing.1 listing.2, listing.2)]).map (·.2) =
      table.map (·.2) ++ [listing.2] := List.map_append
  constructor
  · intro synonym
    rw [grown, List.map_append, List.mem_append, List.mem_append, List.map_singleton,
      List.mem_singleton, known.listed]
    constructor
    · rintro (⟨member, shown⟩ | rfl)
      · exact ⟨Or.inl member, shown⟩
      · exact ⟨Or.inr rfl, visible⟩
    · rintro ⟨member | rfl, shown⟩
      · exact Or.inl ⟨member, shown⟩
      · exact Or.inr rfl
  · rw [grown, List.pairwise_append]
    refine ⟨known.ordered_append [listing], List.pairwise_singleton _ _, ?_⟩
    intro earlier held later last
    obtain rfl := List.mem_singleton.mp last
    rw [List.map_append]
    exact Text.listed_before_new (known.mem_listings held) unlisted _
  · have none : listings.find? (·.2 == listing.2) = none := by
      rw [List.find?_eq_none]
      intro other member same
      exact unlisted (List.mem_map.mpr ⟨other, member, beq_iff_eq.mp same⟩)
    intro entry member
    rcases List.mem_append.mp member with held | last
    · exact known.keywords_append [listing] entry held
    · obtain rfl := List.mem_singleton.mp last
      refine ⟨listing.1, ?_, rfl⟩
      rw [List.find?_append, none, Option.none_or]
      exact List.find?_cons_of_pos (beq_iff_eq.mpr rfl)

theorem record_keeps (listing : StepKeyword × Text) :
    Tabulates (listings ++ [listing]) (record table listing) := by
  rw [record]
  split
  · next needless => exact known.pass_over needless
  · next needed =>
    obtain ⟨visible, new⟩ := not_or.mp needed
    exact known.take_up (Bool.not_eq_true _ ▸ visible) new

end Tabulates

theorem foldl_tabulates (listings : List (StepKeyword × Text)) :
    Tabulates listings (listings.foldl record []) := by
  induction listings using List.reverseRecOn with
  | nil => exact ⟨by simp, List.Pairwise.nil, by simp⟩
  | append_singleton before listing ih =>
    rw [List.foldl_concat]
    exact ih.record_keeps listing

theorem step_table_tabulates (dialect : Dialect) :
    Tabulates dialect.stepListings (stepTable dialect) :=
  step_table_eq_foldl dialect ▸ foldl_tabulates dialect.stepListings

theorem keyword_of_mem_step_table {entry : StepKeyword × Text}
    (member : entry ∈ stepTable dialect) :
    ∃ keyword, dialect.keyword? entry.2 = some keyword ∧
      entry.1 = keywordOf keyword entry.2 := by
  obtain ⟨keyword, found, given⟩ := (step_table_tabulates dialect).keywords entry member
  rw [dialect.find_step_listing] at found
  obtain ⟨first, listed, same⟩ := Option.map_eq_some_iff.mp found
  cases same
  exact ⟨keyword, listed, given⟩

theorem is_step_table (dialect : Dialect) : dialect.IsStepTable (stepTable dialect) := by
  have known := step_table_tabulates dialect
  have ordered := dialect.map_step_listings ▸ known.ordered
  constructor
  · exact ordered.imp Text.ne_of_listed_before
  · intro synonym
    rw [known.listed, dialect.map_step_listings, Text.trim_ne_nil_iff]
  · exact ordered
  · intro entry member asterisk
    obtain ⟨keyword, _, given⟩ := keyword_of_mem_step_table member
    rw [given, keywordOf, if_pos asterisk]
  · intro entry member other
    obtain ⟨keyword, listed, given⟩ := keyword_of_mem_step_table member
    rw [given, keywordOf, if_neg other, listed]

theorem eq_map_of_is_step_table (made : dialect.IsStepTable table) :
    table = (table.map (·.2)).map fun synonym =>
      (keywordOf ((dialect.keyword? synonym).getD .bullet) synonym, synonym) := by
  rw [List.map_map]
  refine (List.map_id table).symm.trans (List.map_congr_left fun entry member => ?_)
  refine Prod.ext ?_ rfl
  show entry.1 = keywordOf ((dialect.keyword? entry.2).getD .bullet) entry.2
  by_cases asterisk : Text.trim Text.isBlank entry.2 = ['*']
  · rw [keywordOf, if_pos asterisk, made.bullets entry member asterisk]
  · rw [keywordOf, if_neg asterisk, made.keywords entry member asterisk, Option.getD_some]

-- Of two synonyms one at most is listed before the other, so they have one order only.
theorem step_table_unique (made : dialect.IsStepTable table)
    (again : dialect.IsStepTable others) : table = others := by
  have synonyms : table.map (·.2) = others.map (·.2) := by
    refine made.ordered.eq_of_mem_iff again.ordered fun synonym => ?_
    rw [made.listed, again.listed]
  rw [eq_map_of_is_step_table made, eq_map_of_is_step_table again, synonyms]

theorem entries_eq (lists : List (Scope × List Text)) :
    entries lists = lists.flatMap fun list => Dialect.scopeEntries list.1 list.2 := by
  have shown : (fun synonym => !Text.isBlankText synonym) =
      fun synonym => decide (Text.trim Text.isBlank synonym ≠ []) := by
    funext synonym
    rw [Bool.eq_iff_iff, decide_eq_true_iff, Text.trim_ne_nil_iff, Bool.not_eq_true']
  rw [entries, List.filter_flatMap]
  refine List.flatMap_congr fun list _ => ?_
  rw [List.filter_map, Dialect.scopeEntries, ← shown]
  rfl

/-- The steps of a language are the one table that is made from the step synonyms of its dialect.
Its structural keywords are all that are not blank, scope after scope. -/
theorem tables_of_dialect (code : Text) (dialect : Dialect) :
    (∀ table, (ofDialect code dialect).steps = table ↔ dialect.IsStepTable table) ∧
    (ofDialect code dialect).structural =
      Dialect.scopeEntries .feature dialect.feature ++
      Dialect.scopeEntries .background dialect.background ++
      Dialect.scopeEntries .scenario dialect.scenario ++
      Dialect.scopeEntries .scenarioOutline dialect.scenarioOutline ++
      Dialect.scopeEntries .rule dialect.rule ++
      Dialect.scopeEntries .examples dialect.examples := by
  constructor
  · intro table
    constructor
    · rintro rfl
      exact is_step_table dialect
    · exact step_table_unique (is_step_table dialect)
  · show entries dialect.structural = _
    rw [entries_eq]
    simp [Dialect.structural]

-- A synonym keeps its first keyword, and an asterisk with other blanks is a synonym of its own.
example :
    (ofDialect [] { Dialect.english with
      action := Dialect.words ["Given ", " *", "\t", "When "]
      outcome := Dialect.words ["When ", "* "] }).steps =
      [(.bullet, Text.ofString "* "), (.context, Text.ofString "Given "),
       (.bullet, Text.ofString " *"), (.action, Text.ofString "When "),
       (.conjunction, Text.ofString "And "), (.contrast, Text.ofString "But ")] := by
  decide +kernel

end Language
end Gherkin
