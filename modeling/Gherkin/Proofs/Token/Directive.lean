import Gherkin.Proofs.Text.Pattern
import Gherkin.Proofs.Text.Trimmed
import Gherkin.Token.Comment
/-!
Directives. The body of a directive is the word, a colon and a code, with nothing but blanks in front
of either and around the code, and it can be read so in one way only. The pattern that says the same,
with the whole code between two runs of blanks, finds that code: the blanks in front of it are taken
first, and the code then ends as early as what is left allows.
-/
namespace Gherkin

namespace Comment
variable {opening body rest : Text}

/-- Whether the body of a comment is a directive, with these blanks in front of the word and of the
colon and with this text behind the colon. -/
structure IsDirective (body front gap rest : Text) : Prop where
  front_blank : ∀ c ∈ front, Text.isBlank c = true
  gap_blank : ∀ c ∈ gap, Text.isBlank c = true
  whole : body = front ++ directiveWord ++ gap ++ ':' :: rest

def Visible (opening : Text) : Prop := ∃ c, opening.head? = some c ∧ Text.isBlank c = false

theorem word_visible : Visible directiveWord := ⟨'l', rfl, by decide⟩

theorem colon_visible : Visible [':'] := ⟨':', rfl, by decide⟩

theorem head_visible (visible : Visible opening) (rest : Text) :
    ∀ c, (opening ++ rest).head? = some c → Text.isBlank c = false := by
  obtain ⟨c, first, shown⟩ := visible
  obtain ⟨more, rfl⟩ := List.head?_eq_some_iff.mp first
  rintro _ ⟨⟩
  exact shown

theorem after_opening_iff (visible : Visible opening) (text rest : Text) :
    afterOpening? opening text = some rest ↔
      ∃ front, (∀ c ∈ front, Text.isBlank c = true) ∧ text = front ++ (opening ++ rest) := by
  rw [afterOpening?, List.isPrefixOf?_eq_some_iff_append_eq]
  constructor
  · intro opens
    refine ⟨text.takeWhile Text.isBlank, fun _ => List.mem_takeWhile_imp, ?_⟩
    rw [opens, List.takeWhile_append_dropWhile]
  · rintro ⟨front, blank, rfl⟩
    exact (Text.run_exact_behind blank (head_visible visible rest)).symm

theorem code_iff (body code : Text) :
    codeOf? body = some code ↔
      ∃ front gap rest, IsDirective body front gap rest ∧ code = Text.trim Text.isBlank rest := by
  have parts : codeOf? body = (afterOpening? directiveWord body).bind fun behind =>
      (afterOpening? [':'] behind).map (Text.trim Text.isBlank) := by
    rw [codeOf?]
    cases afterOpening? directiveWord body <;> rfl
  rw [parts, Option.bind_eq_some_iff]
  constructor
  · rintro ⟨behind, worded, coded⟩
    obtain ⟨rest, coloned, rfl⟩ := Option.map_eq_some_iff.mp coded
    obtain ⟨front, frontBlank, rfl⟩ := (after_opening_iff word_visible _ _).mp worded
    obtain ⟨gap, gapBlank, rfl⟩ := (after_opening_iff colon_visible _ _).mp coloned
    exact ⟨front, gap, rest, ⟨frontBlank, gapBlank, by simp⟩, rfl⟩
  · rintro ⟨front, gap, rest, ⟨frontBlank, gapBlank, rfl⟩, rfl⟩
    refine ⟨gap ++ ([':'] ++ rest), (after_opening_iff word_visible _ _).mpr
      ⟨front, frontBlank, by simp⟩, ?_⟩
    rw [(after_opening_iff colon_visible _ _).mpr ⟨gap, gapBlank, rfl⟩]
    rfl

-- Blanks go to the first character that is none, so what is in front of an opening is settled.
theorem opening_unique (visible : Visible opening) {front gap more rest : Text}
    (frontBlank : ∀ c ∈ front, Text.isBlank c = true)
    (gapBlank : ∀ c ∈ gap, Text.isBlank c = true)
    (same : front ++ (opening ++ more) = gap ++ (opening ++ rest)) :
    front = gap ∧ more = rest := by
  have first : front = gap := by
    rw [← Text.run_exact frontBlank (head_visible visible more), same,
      Text.run_exact gapBlank (head_visible visible rest)]
  subst first
  exact ⟨rfl, List.append_cancel_left (List.append_cancel_left same)⟩

theorem directive_unique {front gap front' gap' rest' : Text}
    (read : IsDirective body front gap rest) (again : IsDirective body front' gap' rest') :
    front = front' ∧ gap = gap' ∧ rest = rest' := by
  have same : front ++ (directiveWord ++ (gap ++ ([':'] ++ rest))) =
      front' ++ (directiveWord ++ (gap' ++ ([':'] ++ rest'))) := by
    simpa using read.whole.symm.trans again.whole
  obtain ⟨rfl, behind⟩ := opening_unique word_visible read.front_blank again.front_blank same
  obtain ⟨rfl, code⟩ := opening_unique colon_visible read.gap_blank again.gap_blank behind
  exact ⟨rfl, rfl, code⟩

def blanks : Pattern := .many true Text.isBlank

/-- The end of the pattern of a directive, behind the colon: the code between its blanks. -/
def codePattern : Pattern :=
  .seq blanks (.seq (.group (.many false (· != '\n'))) (.seq blanks .finish))

/-- The pattern of a directive, which is written `^\s*language\s*:\s*(.*?)\s*$`. -/
def directivePattern : Pattern :=
  .seq .start (.seq blanks (.seq (.literal directiveWord)
    (.seq blanks (.seq (.literal [':']) codePattern))))

-- An opening behind blanks is matched in the one way in which it is read.
theorem ways_opening (visible : Visible opening) (next : Pattern) (attempt : Attempt) :
    let front := attempt.ahead.takeWhile Text.isBlank
    (Pattern.seq blanks (.seq (.literal opening) next)).ways attempt =
      match afterOpening? opening attempt.ahead with
      | none => []
      | some rest =>
        next.ways { attempt with behind := attempt.behind ++ front ++ opening, ahead := rest } := by
  intro front
  have stuck : ∀ attempt : Attempt, attempt.ahead.head?.any Text.isBlank = true →
      (Pattern.seq (.literal opening) next).ways attempt = [] := by
    intro attempt blank
    have refused : opening.isPrefixOf? attempt.ahead = none := by
      rw [Option.eq_none_iff_forall_ne_some]
      intro rest opens
      rw [List.isPrefixOf?_eq_some_iff_append_eq] at opens
      obtain ⟨c, head, white⟩ := (Option.any_eq_true _ _).mp blank
      rw [← opens] at head
      exact Bool.noConfusion ((head_visible visible rest c head).symm.trans white)
    rw [Pattern.ways, Pattern.ways, refused]
    rfl
  have behind : (attempt.past front.length).behind = attempt.behind ++ front :=
    congrArg (attempt.behind ++ ·) (Text.take_run Text.isBlank attempt.ahead)
  have ahead : (attempt.past front.length).ahead = attempt.ahead.dropWhile Text.isBlank :=
    Text.drop_run Text.isBlank attempt.ahead
  rw [blanks, Pattern.ways_many_greedy stuck, Pattern.ways, Pattern.ways, ahead, behind,
    afterOpening?]
  cases opening.isPrefixOf? (attempt.ahead.dropWhile Text.isBlank) with
  | none => rfl
  | some rest => exact List.flatMap_singleton _ _

theorem ways_to_end (attempt : Attempt) :
    (Pattern.seq blanks .finish).ways attempt =
      if attempt.ahead.dropWhile Text.isBlank = [] then
        [attempt.past (attempt.ahead.takeWhile Text.isBlank).length]
      else [] := by
  have stuck : ∀ attempt : Attempt, attempt.ahead.head?.any Text.isBlank = true →
      Pattern.finish.ways attempt = [] := by
    intro attempt blank
    refine if_neg fun ended => ?_
    rw [ended] at blank
    cases blank
  rw [blanks, Pattern.ways_many_greedy stuck, Pattern.ways]
  congr 1
  rw [Attempt.past, Text.drop_run]

-- The code ends where nothing but blanks is left, and no earlier, for its last character is none.
theorem code_found (attempt : Attempt) (unbroken : '\n' ∉ attempt.ahead) :
    ∃ found, (codePattern.ways attempt).head? = some found ∧
      found.group = some (Text.trim Text.isBlank attempt.ahead) := by
  let shown := attempt.ahead.dropWhile Text.isBlank
  let code := Text.trim Text.isBlank attempt.ahead
  let reached := attempt.past (attempt.ahead.takeWhile Text.isBlank).length
  have ahead : reached.ahead = shown := Text.drop_run Text.isBlank attempt.ahead
  obtain ⟨back, whole, blank⟩ := Text.trim_end_parts Text.isBlank shown
  have parted : shown = code ++ back := whole
  have within : code.length ≤ (reached.ahead.takeWhile (· != '\n')).length := by
    have line : shown.takeWhile (· != '\n') = shown := by
      rw [List.takeWhile_eq_self_iff]
      intro c member
      rw [bne_iff_ne]
      rintro rfl
      exact unbroken ((List.dropWhile_suffix _).subset member)
    rw [ahead, line, parted, List.length_append]
    exact Nat.le_add_right _ _
  have before : ∀ fewer < code.length, ∀ group,
      (Pattern.seq blanks .finish).ways { reached.past fewer with group } = [] := by
    intro fewer less group
    have left : (reached.past fewer).ahead = code.drop fewer ++ back := by
      rw [Attempt.past, ahead, parted, List.drop_append_of_le_length (Nat.le_of_lt less)]
    obtain ⟨last, final⟩ : ∃ last, code.getLast? = some last :=
      Option.isSome_iff_exists.mp (by simpa using List.ne_nil_of_length_pos (by omega))
    have member : last ∈ code.drop fewer := by
      apply List.mem_of_getLast?
      rw [List.getLast?_drop, if_neg (by omega), final]
    have kept := Text.mem_drop_while (List.mem_append_left back member) (Text.trim_end_last final)
    rw [ways_to_end, if_neg]
    rw [left]
    exact List.ne_nil_of_mem kept
  have goes : ((Pattern.seq blanks .finish).ways { reached.past code.length with
      group := some (reached.ahead.take code.length) }).head? =
        some { (reached.past code.length).past back.length with group := some code } := by
    have left : (reached.past code.length).ahead = back := by
      rw [Attempt.past, ahead, parted, List.drop_left]
    have taken : reached.ahead.take code.length = code := by rw [ahead, parted, List.take_left]
    rw [ways_to_end, left, List.dropWhile_eq_nil_iff.mpr blank, if_pos rfl,
      List.takeWhile_eq_self_iff.mpr blank, taken]
    rfl
  exact ⟨_, Pattern.head_many_greedy (Pattern.head_many_lazy within before goes), rfl⟩

theorem pattern_code (body : Text) (unbroken : '\n' ∉ body) :
    (directivePattern.first? body).bind Attempt.group = codeOf? body := by
  rw [directivePattern, Pattern.first_at_start, ways_opening word_visible, codeOf?]
  cases worded : afterOpening? directiveWord body with
  | none => rfl
  | some behind =>
    dsimp only
    rw [ways_opening colon_visible]
    cases coloned : afterOpening? [':'] behind with
    | none => rfl
    | some rest =>
      obtain ⟨front, _, rfl⟩ := (after_opening_iff word_visible _ _).mp worded
      obtain ⟨gap, _, rfl⟩ := (after_opening_iff colon_visible _ _).mp coloned
      have kept : '\n' ∉ rest := fun member => unbroken (by simp [member])
      obtain ⟨found, first, code⟩ := code_found ⟨_, rest, none⟩ kept
      dsimp only
      rw [first]
      exact code

/-- A comment is a directive just when its body reads as one, which it does in one way at most; its
code is what stands behind the colon without the blanks around it, and it is the code that the
pattern of a directive finds. -/
theorem code_of_directive_iff (body : Text) (unbroken : '\n' ∉ body) :
    (∀ code, codeOf? body = some code ↔
      ∃ front gap rest, IsDirective body front gap rest ∧
        code = Text.trim Text.isBlank rest) ∧
    (codeOf? body = none ↔ ¬ ∃ front gap rest, IsDirective body front gap rest) ∧
    (∀ front gap rest front' gap' rest', IsDirective body front gap rest →
      IsDirective body front' gap' rest' → front = front' ∧ gap = gap' ∧ rest = rest') ∧
    (directivePattern.first? body).bind Attempt.group = codeOf? body := by
  refine ⟨code_iff body, ?_, fun _ _ _ _ _ _ => directive_unique, pattern_code body unbroken⟩
  rw [Option.eq_none_iff_forall_ne_some]
  constructor
  · rintro uncoded ⟨front, gap, rest, read⟩
    exact uncoded _ ((code_iff body _).mpr ⟨front, gap, rest, read, rfl⟩)
  · intro unread code coded
    obtain ⟨front, gap, rest, read, -⟩ := (code_iff body code).mp coded
    exact unread ⟨front, gap, rest, read⟩

theorem code_of_directive_spaced :
    let body := Text.ofString "\u3000language\u00a0: \tfr: x \u2028 y\u2003\r"
    '\n' ∉ body ∧
      IsDirective body ['\u3000'] ['\u00a0'] (Text.ofString " \tfr: x \u2028 y\u2003\r") ∧
      (directivePattern.first? body).bind Attempt.group =
        some (Text.ofString "fr: x \u2028 y") := by
  intro body
  have unbroken : '\n' ∉ body := by decide
  have read : IsDirective body ['\u3000'] ['\u00a0']
      (Text.ofString " \tfr: x \u2028 y\u2003\r") :=
    ⟨List.forall_mem_singleton.mpr (by decide), List.forall_mem_singleton.mpr (by decide), rfl⟩
  obtain ⟨coded, -, -, found⟩ := code_of_directive_iff body unbroken
  exact ⟨unbroken, read, found.trans ((coded _).mpr ⟨_, _, _, read, by decide⟩)⟩

end Comment
end Gherkin
