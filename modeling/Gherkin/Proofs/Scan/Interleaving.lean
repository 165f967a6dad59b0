import Mathlib.Logic.Function.Basic
import Gherkin.Proofs.Scan.Drive
/-!
Lexers that share a context and are asked for tokens in turns, while someone may take the
diagnostics noted so far. A call moves the lexer that it asks and no other, and of the context it
changes the language by a directive and adds diagnostics at the end. So as long as no text
switches the language, each lexer does what it does alone, and the context gathers the diagnostics
of all of them, those of each lexer in its own order.
-/
namespace Gherkin

/-- Named lexers that share one context. -/
structure SharedScan (Name : Type) where
  lexers : Name → Lexer
  context : ScanContext

/-- What may happen to a shared scan: a lexer is asked for its next token, or the diagnostics that
the context holds are taken. -/
inductive Move (Name : Type)
  | next (name : Name)
  | take
  deriving DecidableEq

inductive Answer (Name : Type)
  | token (name : Name) (given : Option Token)
  | taken (batch : List Diagnostic)

namespace Answer
variable {Name : Type} [DecidableEq Name]

/-- The answer of one lexer. -/
def tokenOf? (name : Name) : Answer Name → Option (Option Token)
  | .token asked given => if asked = name then some given else none
  | .taken _ => none

def batch : Answer Name → List Diagnostic
  | .token _ _ => []
  | .taken batch => batch

end Answer

/-- Whether no comment that a lexer passes in a context switches the language. -/
def Lexer.Still (context : ScanContext) (lexer : Lexer) : Prop :=
  ∀ comment ∈ (lexer.drain context).comments, comment.language? = none

theorem ScanContext.heed_all_still {context : ScanContext} {comments : List Comment}
    (still : ∀ comment ∈ comments, comment.language? = none) :
    (context.heedAll comments).language = context.language := by
  rw [heed_all_language, List.filterMap_eq_nil_iff.mpr still]
  rfl

namespace Lexer
variable {context elsewhere : ScanContext} {lexer : Lexer}

theorem still_elsewhere (same : elsewhere.language = context.language)
    (still : lexer.Still context) : lexer.Still elsewhere := by
  rw [Still, drain_elsewhere same]
  exact still

theorem still_pull (still : lexer.Still context) :
    let pull := lexer.nextToken context
    pull.context.language = context.language ∧ pull.lexer.Still pull.context := by
  intro pull
  rw [Still, drain_behind_pull] at still
  obtain ⟨passed, ahead⟩ := List.forall_mem_append.mp still
  refine ⟨?_, ahead⟩
  rw [next_token_context]
  exact ScanContext.heed_all_still passed

end Lexer

namespace SharedScan
variable {Name : Type} [DecidableEq Name] {scan : SharedScan Name} {name : Name} {move : Move Name}

def step (scan : SharedScan Name) : Move Name → Answer Name × SharedScan Name
  | .next name =>
    let pull := (scan.lexers name).nextToken scan.context
    (.token name pull.token, ⟨Function.update scan.lexers name pull.lexer, pull.context⟩)
  | .take =>
    let taken := scan.context.takeDiagnostics
    (.taken taken.1, { scan with context := taken.2 })

def run (scan : SharedScan Name) : List (Move Name) → List (Answer Name) × SharedScan Name
  | [] => ([], scan)
  | move :: rest =>
    let stepped := scan.step move
    let later := stepped.2.run rest
    (stepped.1 :: later.1, later.2)

/-- What a lexer does alone, in the same context, when it is asked as often as the moves ask it. -/
def alone (scan : SharedScan Name) (moves : List (Move Name)) (name : Name) : Driven :=
  (scan.lexers name).drive scan.context (moves.count (.next name))

/-- The diagnostics that a move adds to those of the context, each with the lexer that notes it. -/
def notes (scan : SharedScan Name) : Move Name → List (Name × Diagnostic)
  | .next name =>
    (((scan.lexers name).nextToken scan.context).comments.filterMap Comment.complaint?).map
      (name, ·)
  | .take => []

def noted (scan : SharedScan Name) : List (Move Name) → List (Name × Diagnostic)
  | [] => []
  | move :: rest => scan.notes move ++ (scan.step move).2.noted rest

def Still (scan : SharedScan Name) : Prop := ∀ name, (scan.lexers name).Still scan.context

-- The frame of a move: only the lexer that it asks moves.

theorem step_lexer (other : move ≠ .next name) :
    (scan.step move).2.lexers name = scan.lexers name := by
  cases move with
  | next asked =>
    have apart : name ≠ asked := fun same => other (congrArg Move.next same.symm)
    exact Function.update_of_ne apart _ _
  | take => rfl

theorem step_language (still : scan.Still) (move : Move Name) :
    (scan.step move).2.context.language = scan.context.language := by
  cases move with
  | next asked => exact (Lexer.still_pull (still asked)).1
  | take => rfl

theorem step_still (still : scan.Still) (move : Move Name) : (scan.step move).2.Still := by
  intro name
  by_cases asked : move = .next name
  · subst asked
    simp only [step, Function.update_self]
    exact (Lexer.still_pull (still name)).2
  · rw [step_lexer asked]
    exact Lexer.still_elsewhere (step_language still move) (still name)

theorem step_diagnostics (scan : SharedScan Name) (move : Move Name) :
    (scan.step move).1.batch ++ (scan.step move).2.context.diagnostics =
      scan.context.diagnostics ++ (scan.notes move).map Prod.snd := by
  cases move with
  | next asked =>
    simp only [step, Answer.batch, notes, Lexer.next_token_context,
      ScanContext.heed_all_diagnostics, List.nil_append, List.map_map]
    exact congrArg (scan.context.diagnostics ++ ·) (List.map_id _).symm
  | take => rfl

-- What a move answers and notes is of the lexer that it asks.

theorem step_answer_own (scan : SharedScan Name) (name : Name) :
    (scan.step (.next name)).1.tokenOf? name =
      some ((scan.lexers name).nextToken scan.context).token :=
  if_pos rfl

theorem step_answer_other (other : move ≠ .next name) :
    (scan.step move).1.tokenOf? name = none := by
  cases move with
  | next asked => exact if_neg fun same => other (congrArg Move.next same)
  | take => rfl

theorem notes_own (scan : SharedScan Name) (name : Name) :
    ((scan.notes (.next name)).filter (·.1 = name)).map Prod.snd =
      ((scan.lexers name).nextToken scan.context).comments.filterMap Comment.complaint? := by
  simp [notes, List.filter_map, Function.comp_def]

theorem notes_other (other : move ≠ .next name) :
    (scan.notes move).filter (·.1 = name) = [] := by
  cases move with
  | next asked =>
    have apart : asked ≠ name := fun same => other (congrArg Move.next same)
    simp [notes, List.filter_map, Function.comp_def, apart]
  | take => rfl

-- The lone run of a lexer goes on behind a move of its own, and behind the moves of others it is
-- the same run in a context that holds other diagnostics.

theorem alone_own (scan : SharedScan Name) (rest : List (Move Name)) (name : Name) :
    let pull := (scan.lexers name).nextToken scan.context
    let later := (scan.step (.next name)).2.alone rest name
    scan.alone (.next name :: rest) name =
      { later with
        answers := pull.token :: later.answers
        comments := pull.comments ++ later.comments } := by
  simp only [alone, List.count_cons_self, Lexer.drive, step, Function.update_self]

theorem alone_other (still : scan.Still) (other : move ≠ .next name) (rest : List (Move Name)) :
    let after := (scan.step move).2
    let alone := scan.alone (move :: rest) name
    after.alone rest name = { alone with context := after.context.heedAll alone.comments } := by
  dsimp only [alone]
  rw [step_lexer other, List.count_cons_of_ne other]
  exact Lexer.drive_elsewhere (step_language still move) _

/-- Whether a lexer gives and notes in a shared scan what it gives and notes alone. -/
structure AsAlone (scan : SharedScan Name) (moves : List (Move Name)) (name : Name) : Prop where
  answers : (scan.run moves).1.filterMap (Answer.tokenOf? name) = (scan.alone moves name).answers
  lexer : (scan.run moves).2.lexers name = (scan.alone moves name).lexer
  notes : ((scan.noted moves).filter (·.1 = name)).map Prod.snd =
    (scan.alone moves name).comments.filterMap Comment.complaint?

theorem as_alone_step (still : scan.Still) {rest : List (Move Name)}
    (later : (scan.step move).2.AsAlone rest name) : scan.AsAlone (move :: rest) name := by
  obtain ⟨answers, lexer, notes⟩ := later
  by_cases asked : move = .next name
  · subst asked
    have own := scan.alone_own rest name
    dsimp only at own
    constructor
    · rw [own, run, List.filterMap_cons_some (step_answer_own scan name), answers]
    · rw [own, run, lexer]
    · rw [own, noted, List.filter_append, List.map_append, notes_own, notes,
        List.filterMap_append]
  · have other := alone_other still asked rest
    dsimp only at other
    rw [other] at answers lexer notes
    constructor
    · rw [run, List.filterMap_cons_none (step_answer_other asked), answers]
    · rw [run, lexer]
    · rw [noted, List.filter_append, notes_other asked, List.nil_append, notes]

theorem run_as_alone (still : scan.Still) (moves : List (Move Name)) (name : Name) :
    scan.AsAlone moves name := by
  induction moves generalizing scan with
  | nil => exact ⟨rfl, rfl, rfl⟩
  | cons move rest ih => exact as_alone_step still (ih (step_still still move))

theorem run_language (still : scan.Still) (moves : List (Move Name)) :
    (scan.run moves).2.context.language = scan.context.language := by
  induction moves generalizing scan with
  | nil => rfl
  | cons move rest ih => exact (ih (step_still still move)).trans (step_language still move)

theorem run_diagnostics (scan : SharedScan Name) (moves : List (Move Name)) :
    (scan.run moves).1.flatMap Answer.batch ++ (scan.run moves).2.context.diagnostics =
      scan.context.diagnostics ++ (scan.noted moves).map Prod.snd := by
  induction moves generalizing scan with
  | nil => exact (List.append_nil _).symm
  | cons move rest ih =>
    rw [run, List.flatMap_cons, List.append_assoc, ih, ← List.append_assoc, step_diagnostics,
      List.append_assoc, noted, List.map_append]

end SharedScan

theorem run_interleaved {Name : Type} [DecidableEq Name] (scan : SharedScan Name)
    (still : ∀ name, ∀ comment ∈ ((scan.lexers name).drain scan.context).comments,
      comment.language? = none)
    (moves : List (Move Name)) :
    let run := scan.run moves
    (∀ name,
      let alone := (scan.lexers name).drive scan.context (moves.count (.next name))
      run.1.filterMap (Answer.tokenOf? name) = alone.answers ∧
      run.2.lexers name = alone.lexer ∧
      (none ∈ alone.answers →
        alone.answers.reduceOption = ((scan.lexers name).drain scan.context).tokens ∧
        alone.context = ((scan.lexers name).drain scan.context).context)) ∧
    run.2.context.language = scan.context.language ∧
    ∃ noted : List (Name × Diagnostic),
      run.1.flatMap Answer.batch ++ run.2.context.diagnostics =
        scan.context.diagnostics ++ noted.map Prod.snd ∧
      ∀ name, ((scan.lexers name).drive scan.context
          (moves.count (.next name))).context.diagnostics =
        scan.context.diagnostics ++ (noted.filter (·.1 = name)).map Prod.snd := by
  intro run
  have asAlone := SharedScan.run_as_alone still moves
  refine ⟨fun name => ⟨(asAlone name).answers, (asAlone name).lexer, fun exhausted => ?_⟩,
    SharedScan.run_language still moves, scan.noted moves, scan.run_diagnostics moves, ?_⟩
  · obtain ⟨tokens, _, context⟩ := Lexer.drive_of_none exhausted
    exact ⟨tokens, context⟩
  · intro name
    rw [Lexer.drive_context, ScanContext.heed_all_diagnostics]
    exact congrArg (scan.context.diagnostics ++ ·) (asAlone name).notes.symm

theorem run_interleaved_refused :
    let first := Lexer.ofText (Text.ofString "Given a\n# language: tlh\nb\n")
    let second := Lexer.ofText (Text.ofString "# language: xx\nWhen c\n")
    let scan : SharedScan Bool := ⟨fun name => if name then first else second, .standard⟩
    let moves : List (Move Bool) := [.next true, .next false, .next true, .next true, .next false,
      .next true, .take, .next false, .next true, .next false, .next true]
    let run := scan.run moves
    (∀ name, ∀ comment ∈ ((scan.lexers name).drain scan.context).comments,
      comment.language? = none) ∧
    run.1.filterMap (Answer.tokenOf? true) = (first.drive .standard 6).answers ∧
    run.1.filterMap (Answer.tokenOf? false) = (second.drive .standard 4).answers ∧
    (first.drive .standard 6).answers.reduceOption = (first.drain .standard).tokens ∧
    run.2.context.language = .default ∧
    ∃ noted : List (Bool × Diagnostic),
      run.1.flatMap Answer.batch ++ run.2.context.diagnostics = noted.map Prod.snd ∧
      (noted.filter (·.1 = true)).map Prod.snd = [.unsupportedLanguage (Text.ofString "tlh")
        { line := 2, column := 1, source := none }] ∧
      (noted.filter (·.1 = false)).map Prod.snd = [.unsupportedLanguage (Text.ofString "xx")
        { line := 1, column := 1, source := none }] := by
  intro first second scan moves run
  have still : ∀ name, ∀ comment ∈ ((scan.lexers name).drain scan.context).comments,
      comment.language? = none := by decide +kernel
  have exhausted : none ∈ (first.drive .standard 6).answers := by decide +kernel
  obtain ⟨alone, language, noted, gathered, own⟩ := run_interleaved scan still moves
  obtain ⟨answers, _, whole⟩ := alone true
  refine ⟨still, answers, (alone false).1, (whole exhausted).1, language, noted, gathered, ?_, ?_⟩
  · exact (own true).symm.trans (by decide +kernel)
  · exact (own false).symm.trans (by decide +kernel)

end Gherkin
