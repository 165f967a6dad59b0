import Gherkin.Message.Localisation
/-!
What a thread does with the wording in use. It chooses locales, asks for them, has diagnostics
rendered and installs another shared wording, and it enters scopes and leaves them again, within
one another. From the first to the last move of a scope there is a wording in front, so nothing
chosen within it reaches the shared wording or one that a guard keeps; once it is left all is as
before, except for a shared wording installed meanwhile.
-/
namespace Gherkin

inductive LocalisationMove
  | select (requested : List LanguageTag)
  | current
  | render (diagnostic : Diagnostic)
  | install (wording : Wording)
  | enter (requested : List LanguageTag)
  | leave (number : Nat)

def LocalisationMove.installed? : LocalisationMove → Option Wording
  | .install wording => some wording
  | _ => none

def lastInstalled? (moves : List LocalisationMove) : Option Wording :=
  (moves.filterMap (·.installed?)).getLast?

/-- A thread: what it sees of the localisation, and the guards it made, in the order in which it
made them. There is none any more where a scope was left. -/
structure Session where
  localisation : Localisation
  guards : List (Option Localisation.Guard) := []
  deriving DecidableEq

/-- Whether moves leave the scopes that they enter, the newest first, and no others. The guards
made before them are below `next`, and `opened` are the scopes still to be left, newest first. -/
def Nested : (next : Nat) → (opened : List Nat) → List LocalisationMove → Prop
  | _, opened, [] => opened = []
  | next, opened, .enter _ :: later => Nested (next + 1) (next :: opened) later
  | next, opened, .leave number :: later =>
    opened.head? = some number ∧ Nested next opened.tail later
  | next, opened, _ :: later => Nested next opened later

namespace Session

def held (session : Session) (number : Nat) : Option Localisation.Guard :=
  session.guards[number]?.join

/-- One move. Asking changes nothing, and a scope is left only once. -/
def step (session : Session) : LocalisationMove → Session
  | .select requested =>
    { session with localisation := session.localisation.select requested }
  | .current => session
  | .render _ => session
  | .install wording => { session with localisation := session.localisation.install wording }
  | .enter requested =>
    let (guard, localisation) := session.localisation.enter requested
    { localisation, guards := session.guards ++ [some guard] }
  | .leave number =>
    match session.held number with
    | some guard =>
      { localisation := session.localisation.leave guard, guards := session.guards.set number none }
    | none => session

def after (session : Session) (moves : List LocalisationMove) : Session :=
  moves.foldl step session

def bracketed (session : Session) (requested : List LanguageTag) (body : List LocalisationMove) :
    Session :=
  session.after (.enter requested :: body ++ [.leave session.guards.length])

variable {session outer : Session} {opened : List Nat}

theorem held_beyond {number : Nat} (beyond : session.guards.length ≤ number) :
    session.held number = none := by
  rw [held, List.getElem?_eq_none beyond, Option.join_none]

theorem lt_of_held {number : Nat} {guard : Localisation.Guard}
    (holds : session.held number = some guard) : number < session.guards.length := by
  refine Nat.lt_of_not_le fun beyond => ?_
  rw [held_beyond beyond] at holds
  cases holds

theorem length_enter (session : Session) (requested : List LanguageTag) :
    (session.step (.enter requested)).guards.length = session.guards.length + 1 :=
  List.length_append

theorem held_enter (session : Session) (requested : List LanguageTag) (number : Nat) :
    (session.step (.enter requested)).held number =
      if number = session.guards.length then some ⟨session.localisation.inFront⟩
      else session.held number := by
  split
  case isTrue newest =>
    simp [newest, held, step, Localisation.enter]
  case isFalse other =>
    obtain older | beyond := Nat.lt_or_gt_of_ne other
    · simp only [held, step, List.getElem?_append_left older]
    · rw [held_beyond (Nat.le_of_lt beyond), held_beyond (length_enter session requested ▸ beyond)]

theorem step_leave {number : Nat} {guard : Localisation.Guard}
    (holds : session.held number = some guard) :
    session.step (.leave number) =
      { localisation := session.localisation.leave guard,
        guards := session.guards.set number none } := by
  rw [step, holds]

theorem held_leave {number : Nat} {guard : Localisation.Guard}
    (holds : session.held number = some guard) (other : Nat) :
    (session.step (.leave number)).held other =
      if other = number then none else session.held other := by
  rw [step_leave holds, held, List.getElem?_set]
  split
  case isTrue same =>
    subst other
    rw [if_pos (lt_of_held holds), if_pos rfl, Option.join_some]
  case isFalse apart => rw [if_neg (Ne.symm apart), held]

/-- What holds within a scope, with `outer` as it was when the scope had just been entered. The
guards made since then that are still held put a wording back in front, so there is always one;
the other guards are those of `outer`. -/
structure Within (outer : Session) (opened : List Nat) (session : Session) : Prop where
  front : session.localisation.inFront.isSome
  distinct : opened.Nodup
  since : ∀ number ∈ opened, outer.guards.length ≤ number
  saved : ∀ number ∈ opened, ∃ wording, session.held number = some ⟨some wording⟩
  others : ∀ number, number ∉ opened → session.held number = outer.held number
  longer : outer.guards.length ≤ session.guards.length

theorem within_entered (session : Session) (requested : List LanguageTag) :
    (session.step (.enter requested)).Within [] (session.step (.enter requested)) where
  front := rfl
  distinct := List.nodup_nil
  since := by simp
  saved := by simp
  others _ _ := rfl
  longer := Nat.le_refl _

theorem Within.of_guards (within : outer.Within opened session) {next : Session}
    (front : next.localisation.inFront.isSome) (same : next.guards = session.guards) :
    outer.Within opened next where
  front := front
  distinct := within.distinct
  since := within.since
  saved := by simpa only [held, same] using within.saved
  others := by simpa only [held, same] using within.others
  longer := by simpa only [same] using within.longer

theorem Within.enter (within : outer.Within opened session) (requested : List LanguageTag) :
    outer.Within (session.guards.length :: opened) (session.step (.enter requested)) := by
  have new : session.guards.length ∉ opened := by
    intro member
    obtain ⟨wording, holds⟩ := within.saved _ member
    exact Nat.lt_irrefl _ (lt_of_held holds)
  refine ⟨rfl, List.nodup_cons.mpr ⟨new, within.distinct⟩,
    List.forall_mem_cons.mpr ⟨within.longer, within.since⟩, List.forall_mem_cons.mpr ⟨?_, ?_⟩,
    ?_, ?_⟩
  · -- the newest guard keeps what was in front, and there was something
    obtain ⟨wording, front⟩ := Option.isSome_iff_exists.mp within.front
    exact ⟨wording, by rw [held_enter, if_pos rfl, front]⟩
  · intro number member
    rw [held_enter, if_neg (ne_of_mem_of_not_mem member new)]
    exact within.saved number member
  · intro number outside
    obtain ⟨other, outside⟩ := List.ne_and_not_mem_of_not_mem_cons outside
    rw [held_enter, if_neg other]
    exact within.others number outside
  · rw [length_enter]
    exact Nat.le_succ_of_le within.longer

theorem Within.leave {newest : Nat} {older : List Nat}
    (within : outer.Within (newest :: older) session) :
    outer.Within older (session.step (.leave newest)) := by
  obtain ⟨new, distinct⟩ := List.nodup_cons.mp within.distinct
  obtain ⟨wording, holds⟩ := within.saved newest List.mem_cons_self
  have since := List.forall_mem_cons.mp within.since
  refine ⟨?_, distinct, since.2, ?_, ?_, ?_⟩
  · rw [step_leave holds]
    rfl
  · intro number member
    rw [held_leave holds, if_neg (ne_of_mem_of_not_mem member new)]
    exact within.saved number (List.mem_cons_of_mem newest member)
  · intro number outside
    rw [held_leave holds]
    split
    case isTrue same => rw [same, held_beyond since.1]
    case isFalse other =>
      exact within.others number (List.not_mem_cons_of_ne_of_not_mem other outside)
  · rw [step_leave holds, List.length_set]
    exact within.longer

theorem select_in_front {localisation : Localisation} (front : localisation.inFront.isSome)
    (requested : List LanguageTag) :
    localisation.select requested =
      { localisation with inFront := some (Wording.select requested) } := by
  obtain ⟨wording, found⟩ := Option.isSome_iff_exists.mp front
  rw [Localisation.select, found]

/-- Within a scope one move neither leaves the scope itself nor changes the shared wording other
than by installing one. -/
theorem Within.step (within : outer.Within opened session) {move : LocalisationMove}
    {later : List LocalisationMove}
    (nested : Nested session.guards.length opened (move :: later)) :
    (∃ opened, outer.Within opened (session.step move) ∧
        Nested (session.step move).guards.length opened later) ∧
      (session.step move).localisation.shared =
        move.installed?.getD session.localisation.shared := by
  cases move with
  | current => exact ⟨⟨opened, within, nested⟩, rfl⟩
  | render diagnostic => exact ⟨⟨opened, within, nested⟩, rfl⟩
  | install wording => exact ⟨⟨opened, within.of_guards within.front rfl, nested⟩, rfl⟩
  | select requested =>
    have chosen := select_in_front within.front requested
    refine ⟨⟨opened, within.of_guards ?_ rfl, nested⟩, ?_⟩
    · rw [Session.step, chosen]
      rfl
    · rw [Session.step, chosen]
      rfl
  | enter requested =>
    refine ⟨⟨_, within.enter requested, ?_⟩, rfl⟩
    rw [length_enter]
    exact nested
  | leave number =>
    obtain ⟨newest, nested⟩ := nested
    obtain ⟨older, rfl⟩ := List.head?_eq_some_iff.mp newest
    obtain ⟨wording, holds⟩ := within.saved number List.mem_cons_self
    refine ⟨⟨older, within.leave, ?_⟩, ?_⟩
    · rw [step_leave holds, List.length_set]
      exact nested
    · rw [step_leave holds]
      rfl

theorem last_installed_cons (move : LocalisationMove) (later : List LocalisationMove) :
    lastInstalled? (move :: later) = (lastInstalled? later).or move.installed? := by
  cases installs : move.installed? with
  | none => rw [lastInstalled?, List.filterMap_cons_none installs, Option.or_none, lastInstalled?]
  | some wording =>
    rw [lastInstalled?, List.filterMap_cons_some installs, List.getLast?_cons, ← lastInstalled?]
    cases lastInstalled? later <;> rfl

theorem Within.run (within : outer.Within opened session) {body : List LocalisationMove}
    (nested : Nested session.guards.length opened body) :
    outer.Within [] (session.after body) ∧
      (session.after body).localisation.shared =
        (lastInstalled? body).getD session.localisation.shared := by
  induction body generalizing session opened with
  | nil =>
    cases (show opened = [] from nested)
    exact ⟨within, rfl⟩
  | cons move later ih =>
    obtain ⟨⟨opened, within, nested⟩, shared⟩ := within.step nested
    obtain ⟨left, last⟩ := ih within nested
    refine ⟨left, ?_⟩
    rw [last_installed_cons, Option.getD_or, ← shared]
    exact last

/-- Before its last move a scope still has the guard that keeps what was in front of it. -/
theorem held_within (session : Session) {requested : List LanguageTag}
    (within : (session.step (.enter requested)).Within [] outer) (number : Nat) :
    outer.held number =
      if number = session.guards.length then some ⟨session.localisation.inFront⟩
      else session.held number := by
  rw [within.others number List.not_mem_nil, held_enter]

theorem bracketed_eq (session : Session) (requested : List LanguageTag)
    (body : List LocalisationMove) :
    session.bracketed requested body =
      ((session.step (.enter requested)).after body).step (.leave session.guards.length) := by
  rw [bracketed, after, List.foldl_append]
  rfl

variable {body : List LocalisationMove}

theorem localisation_bracketed (requested : List LanguageTag)
    (nested : Nested (session.guards.length + 1) [] body) :
    (session.bracketed requested body).localisation =
      { session.localisation with
        shared := (lastInstalled? body).getD session.localisation.shared } := by
  rw [← length_enter session requested] at nested
  obtain ⟨within, shared⟩ := (within_entered session requested).run nested
  have own := held_within session within session.guards.length
  rw [if_pos rfl] at own
  rw [bracketed_eq, step_leave own]
  exact congrArg (fun wording => Localisation.mk wording session.localisation.inFront) shared

theorem held_bracketed (requested : List LanguageTag)
    (nested : Nested (session.guards.length + 1) [] body) :
    (session.bracketed requested body).held = session.held := by
  rw [← length_enter session requested] at nested
  obtain ⟨within, -⟩ := (within_entered session requested).run nested
  have own := held_within session within session.guards.length
  rw [if_pos rfl] at own
  funext number
  rw [bracketed_eq, held_leave own, held_within session within]
  split
  case isTrue same => rw [same, held_beyond (Nat.le_refl _)]
  case isFalse => rfl

theorem localisation_after_install (session : Session) (last : Option Wording) :
    (session.after (last.toList.map .install)).localisation =
      { session.localisation with shared := last.getD session.localisation.shared } := by
  cases last <;> rfl

end Session

/-- A scope that is entered, and left after any moves that leave the scopes entered among them,
leaves no trace but the wording installed last: what was in front is in front again, the guards held
are those held before, and diagnostics and locales read as if only that wording had been
installed. -/
theorem bracket_restores (session : Session) (requested : List LanguageTag)
    (body : List LocalisationMove) (nested : Nested (session.guards.length + 1) [] body) :
    (session.bracketed requested body).localisation =
        { session.localisation with
          shared := (lastInstalled? body).getD session.localisation.shared } ∧
      (session.bracketed requested body).held = session.held ∧
      (∀ diagnostic, (session.bracketed requested body).localisation.render diagnostic =
        (session.after ((lastInstalled? body).toList.map .install)).localisation.render
          diagnostic) ∧
      (session.bracketed requested body).localisation.current =
        (session.after ((lastInstalled? body).toList.map .install)).localisation.current := by
  have restored := Session.localisation_bracketed requested nested
  refine ⟨restored, Session.held_bracketed requested nested, fun diagnostic => ?_, ?_⟩
  · rw [restored, Session.localisation_after_install]
  · rw [restored, Session.localisation_after_install]

theorem bracket_restores_within_a_scope :
    let french : LanguageTag := ⟨['f', 'r'], none, none, []⟩
    let session : Session := ⟨⟨⟨[.american]⟩, some ⟨[.french, .american]⟩⟩, [some ⟨none⟩]⟩
    let body : List LocalisationMove := [.select [french], .enter [], .install ⟨[.american]⟩,
      .enter [french], .select [], .leave 3, .render (.noValidGherkin none), .install ⟨[]⟩,
      .leave 2, .select [], .current]
    Nested (session.guards.length + 1) [] body ∧
    (session.bracketed [] body).localisation = ⟨⟨[]⟩, some ⟨[.french, .american]⟩⟩ ∧
    (session.bracketed [] body).held 0 = some ⟨none⟩ ∧
    (session.bracketed [] body).localisation.current = [.french, .american] := by
  intro french session body
  have nested : Nested (session.guards.length + 1) [] body := ⟨rfl, rfl, rfl⟩
  obtain ⟨restored, held, _, current⟩ := bracket_restores session [] body nested
  exact ⟨nested, restored, congrFun held 0, current⟩

end Gherkin
