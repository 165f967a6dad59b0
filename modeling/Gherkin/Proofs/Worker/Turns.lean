import Gherkin.Proofs.Worker.Verdict
/-!
A worker over time. Jobs are spawned and called from outside while the worker does its steps, in
any order, until it is closed. What matters is what its moves accept, begin and end: each job
accepted is begun later, in its turn, and each job begun comes to the end that it has by itself
before the next is begun. A panic is one such end and holds up nothing. A closed worker accepts
nothing more and, left to its steps, ends all that it has accepted.
-/
namespace Gherkin

/-- What may happen to a worker. Anyone outside may spawn or call a job, and moves do not name who
it is. -/
inductive WorkerMove
  | spawn (job : Job)
  | call (job : Job)
  /-- The worker does its next step, if there is one. -/
  | step
  | close

def WorkerMove.isStep : WorkerMove → Bool
  | .step => true
  | _ => false

/-- What a move does with a whole job. -/
inductive Deed
  | accepted (envelope : Envelope)
  | begun (envelope : Envelope)
  | ended (verdict : Verdict)

namespace Deed

def accepted? : Deed → Option Envelope
  | .accepted envelope => some envelope
  | _ => none

def begun? : Deed → Option Envelope
  | .begun envelope => some envelope
  | _ => none

def ended? : Deed → Option Verdict
  | .ended verdict => some verdict
  | _ => none

end Deed

/-- What the moves of a worker have done with whole jobs, and the worker after them. -/
structure WorkerRun where
  deeds : List Deed
  worker : Worker

namespace WorkerRun

def accepted (run : WorkerRun) : List Envelope := run.deeds.filterMap Deed.accepted?

def begun (run : WorkerRun) : List Envelope := run.deeds.filterMap Deed.begun?

def ended (run : WorkerRun) : List Verdict := run.deeds.filterMap Deed.ended?

end WorkerRun

namespace Worker

def move (worker : Worker) : WorkerMove → Worker
  | .spawn job => worker.spawn job
  | .call job => (worker.call job).2
  | .step => worker.step?.getD worker
  | .close => worker.close

def acceptance? (worker : Worker) (envelope : Envelope) : Option Deed :=
  if worker.accepting then some (.accepted envelope) else none

/-- The deed of an action: a job that it puts into the queue. -/
def actionDeed? (worker : Worker) : Action → Option Deed
  | .spawn job => worker.acceptance? ⟨job, none⟩
  | _ => none

/-- The deed of the next step. -/
def stepDeed? (worker : Worker) : Option Deed :=
  match worker.stage with
  | .idle => worker.queue.head?.map .begun
  | .working task =>
    match task.frame.rest, task.callers with
    | action :: _, _ => worker.actionDeed? action
    | [], _ :: _ => none
    | [], [] => some (.ended ⟨task.ticket, .returned task.frame.value⟩)
  | .panicked ticket message _ => some (.ended ⟨ticket, .panicked message⟩)
  | .ending _ => none

def deed? (worker : Worker) : WorkerMove → Option Deed
  | .spawn job => worker.acceptance? ⟨job, none⟩
  | .call job => worker.acceptance? ⟨job, some worker.calls.length⟩
  | .step => worker.stepDeed?
  | .close => none

def run (worker : Worker) : List WorkerMove → WorkerRun
  | [] => ⟨[], worker⟩
  | move :: rest =>
    let later := (worker.move move).run rest
    { later with deeds := (worker.deed? move).toList ++ later.deeds }

/-- Whether some deeds lead from one worker to another: what the first has in its queue and
accepts is begun or in the queue of the second, in the same order, and what it has in progress and
begins is ended or in progress, each job with its own end. -/
structure Conserves (before : Worker) (deeds : List Deed) (after : Worker) : Prop where
  queue : before.queue ++ deeds.filterMap Deed.accepted? =
    deeds.filterMap Deed.begun? ++ after.queue
  progress : before.stage.verdict?.toList ++
      (deeds.filterMap Deed.begun?).map Envelope.verdict =
    deeds.filterMap Deed.ended? ++ after.stage.verdict?.toList

namespace Conserves
variable {before between after : Worker} {deeds later : List Deed}

theorem trans (first : Conserves before deeds between) (second : Conserves between later after) :
    Conserves before (deeds ++ later) after := by
  constructor
  · rw [List.filterMap_append, List.filterMap_append, ← List.append_assoc, first.queue,
      List.append_assoc, second.queue, List.append_assoc]
  · rw [List.filterMap_append, List.filterMap_append, List.map_append, ← List.append_assoc,
      first.progress, List.append_assoc, second.progress, List.append_assoc]

-- Where nothing is begun or ended only the queue and the acceptances count.
theorem of_acceptance (queue : after.queue = before.queue ++ deeds.filterMap Deed.accepted?)
    (begun : deeds.filterMap Deed.begun? = []) (ended : deeds.filterMap Deed.ended? = [])
    (stage : after.stage.verdict? = before.stage.verdict?) : Conserves before deeds after :=
  ⟨by rw [begun, queue]; rfl, by rw [begun, ended, stage]; simp⟩

theorem of_end {verdict : Verdict} (queue : after.queue = before.queue)
    (progress : before.stage.verdict? = some verdict) (rests : after.stage.verdict? = none) :
    Conserves before [.ended verdict] after :=
  ⟨(List.append_nil _).trans queue.symm, by rw [progress, rests]; rfl⟩

end Conserves

variable {worker after : Worker}

theorem conserves_acceptance (envelope : Envelope)
    (queue : after.queue = worker.queue ++ if worker.accepting then [envelope] else [])
    (stage : after.stage.verdict? = worker.stage.verdict?) :
    Conserves worker (worker.acceptance? envelope).toList after := by
  rw [acceptance?]
  cases accepting : worker.accepting <;> rw [accepting] at queue <;>
    exact .of_acceptance queue rfl rfl stage

theorem spawn_eq (worker : Worker) (job : Job) :
    worker.spawn job =
      { worker with queue := worker.queue ++ if worker.accepting then [⟨job, none⟩] else [] } := by
  rw [spawn]
  split
  · rfl
  · rw [List.append_nil]

theorem call_eq (worker : Worker) (job : Job) :
    worker.call job = (worker.calls.length,
      { worker with
        queue := worker.queue ++
          if worker.accepting then [⟨job, some worker.calls.length⟩] else []
        calls := worker.calls ++ [if worker.accepting then {} else ⟨.dropped, .dropped⟩] }) := by
  rw [call]
  split
  · rfl
  · rw [List.append_nil]

/-- One step of a worker, by what it has to do next. -/
inductive Steps (worker : Worker) : Worker → Prop
  | begins {envelope : Envelope} {queue : List Envelope} (idle : worker.stage = .idle)
      (queued : worker.queue = envelope :: queue) :
      worker.Steps { worker with
        queue
        stage := .working { ticket := envelope.ticket, frame := { rest := envelope.job } } }
  | acts {task : Task} {action : Action} {rest : Job} (working : worker.stage = .working task)
      (left : task.frame.rest = action :: rest) :
      worker.Steps (worker.perform { task with frame := { task.frame with rest } } action)
  /-- A job done at once has ended, and the job that waited for it goes on. -/
  | resumes {task : Task} {caller : Frame} {callers : List Frame}
      (working : worker.stage = .working task) (left : task.frame.rest = [])
      (waiting : task.callers = caller :: callers) :
      worker.Steps (worker.become
        (.working { task with frame := caller.hear task.frame.value, callers }))
  | finishes {task : Task} (working : worker.stage = .working task)
      (left : task.frame.rest = []) (alone : task.callers = []) :
      worker.Steps (worker.finish task)
  | tells {ticket : Option Nat} {message : String} {later : List String}
      (panicked : worker.stage = .panicked ticket message later) :
      worker.Steps ((worker.report ticket message).become (.ending later))
  | rests {later : List String} (ending : worker.stage = .ending later) :
      worker.Steps { worker with journal := worker.journal ++ later, stage := .idle }

theorem steps_of_step (stepped : worker.step? = some after) : worker.Steps after := by
  unfold step? at stepped
  split at stepped
  · next idle =>
    split at stepped
    · cases stepped
    · next queued =>
      cases stepped
      exact .begins idle queued
  · next working =>
    split at stepped
    · next left =>
      cases stepped
      exact .acts working left
    · next left waiting =>
      cases stepped
      exact .resumes working left waiting
    · next left alone =>
      cases stepped
      exact .finishes working left alone
  · next panicked =>
    cases stepped
    exact .tells panicked
  · next ending =>
    cases stepped
    exact .rests ending

theorem conserves_perform {task : Task} {action : Action} {rest : Job}
    (working : worker.stage = .working task) (left : task.frame.rest = action :: rest) :
    Conserves worker (worker.actionDeed? action).toList
      (worker.perform { task with frame := { task.frame with rest } } action) := by
  have stage : (worker.perform { task with frame := { task.frame with rest } }
      action).stage.verdict? = worker.stage.verdict? := by
    rw [perform_verdict, working, Stage.verdict?, Task.outcome, ← left]
  cases action with
  | spawn job =>
    exact conserves_acceptance ⟨job, none⟩ (congrArg Worker.queue (spawn_eq worker job)) stage
  | panic payload =>
    refine .of_acceptance ?_ rfl rfl stage
    exact (update_call_queue worker task.ticket _).trans (List.append_nil _).symm
  | _ => exact .of_acceptance (List.append_nil _).symm rfl rfl stage

theorem conserves_step (steps : worker.Steps after) :
    Conserves worker worker.stepDeed?.toList after := by
  cases steps with
  | begins idle queued =>
    rw [stepDeed?, idle, queued]
    exact ⟨by rw [queued]; exact List.append_nil _, by rw [idle]; rfl⟩
  | acts working left =>
    simp only [stepDeed?, working, left]
    exact conserves_perform working left
  | resumes working left waiting =>
    simp only [stepDeed?, working, left, waiting]
    refine .of_acceptance (List.append_nil _).symm rfl rfl ?_
    rw [working, Stage.verdict?, Task.outcome, waiting, Frame.outcome, left]
    exact congrArg (fun outcome => some (Verdict.mk _ outcome)) (Frame.outcome_hear _ _ _)
  | @finishes task working left alone =>
    simp only [stepDeed?, working, left, alone]
    refine .of_end (update_call_queue worker task.ticket _) ?_ rfl
    rw [working, Stage.verdict?, Task.outcome, alone, Frame.outcome, left]
    rfl
  | @tells ticket message later panicked =>
    rw [stepDeed?, panicked]
    refine .of_end (report_queue worker ticket message) ?_ rfl
    rw [panicked]
    rfl
  | rests ending =>
    rw [stepDeed?, ending]
    refine .of_acceptance (List.append_nil _).symm rfl rfl ?_
    rw [ending]
    rfl

theorem idle_of_rest (rests : worker.step? = none) :
    worker.stage = .idle ∧ worker.queue = [] := by
  unfold step? at rests
  split at rests
  · next idle =>
    split at rests
    · next queued => exact ⟨idle, queued⟩
    · cases rests
  · split at rests <;> cases rests
  · cases rests
  · cases rests

theorem step_deed_of_rest (rests : worker.step? = none) : worker.stepDeed? = none := by
  obtain ⟨idle, queued⟩ := idle_of_rest rests
  rw [stepDeed?, idle, queued]
  rfl

theorem conserves_move (worker : Worker) (move : WorkerMove) :
    Conserves worker (worker.deed? move).toList (worker.move move) := by
  cases move with
  | spawn job =>
    rw [Worker.move, spawn_eq]
    exact conserves_acceptance ⟨job, none⟩ rfl rfl
  | call job =>
    rw [Worker.move, call_eq]
    exact conserves_acceptance ⟨job, some worker.calls.length⟩ rfl rfl
  | step =>
    rw [deed?, Worker.move]
    cases stepped : worker.step? with
    | none =>
      rw [step_deed_of_rest stepped]
      exact .of_acceptance (List.append_nil _).symm rfl rfl rfl
    | some after => exact conserves_step (steps_of_step stepped)
  | close => exact .of_acceptance (List.append_nil _).symm rfl rfl rfl

theorem conserves_run (worker : Worker) (moves : List WorkerMove) :
    Conserves worker (worker.run moves).deeds (worker.run moves).worker := by
  induction moves generalizing worker with
  | nil => exact .of_acceptance (List.append_nil _).symm rfl rfl rfl
  | cons move rest ih => exact (conserves_move worker move).trans (ih (worker.move move))

-- A closed worker accepts nothing, so it has no more work than it had when it was closed.

theorem update_call_accepting (worker : Worker) (ticket : Option Nat) (change : Call → Call) :
    (worker.updateCall ticket change).accepting = worker.accepting := by
  cases ticket <;> rfl

theorem report_accepting (worker : Worker) (ticket : Option Nat) (message : String) :
    (worker.report ticket message).accepting = worker.accepting := by
  cases ticket <;> rfl

theorem perform_closed (closed : worker.accepting = false) (task : Task) (action : Action) :
    (worker.perform task action).accepting = false := by
  cases action with
  | spawn job => exact (congrArg Worker.accepting (spawn_eq worker job)).trans closed
  | panic payload => exact (update_call_accepting worker _ _).trans closed
  | close => rfl
  | _ => exact closed

theorem step_closed (closed : worker.accepting = false) (steps : worker.Steps after) :
    after.accepting = false := by
  cases steps with
  | begins => exact closed
  | acts => exact perform_closed closed _ _
  | resumes => exact closed
  | finishes => exact (update_call_accepting worker _ _).trans closed
  | tells => exact (report_accepting worker _ _).trans closed
  | rests => exact closed

theorem move_closed (closed : worker.accepting = false) (move : WorkerMove) :
    (worker.move move).accepting = false := by
  cases move with
  | spawn job => exact (congrArg Worker.accepting (spawn_eq worker job)).trans closed
  | call job =>
    rw [Worker.move, call_eq]
    exact closed
  | step =>
    rw [Worker.move]
    cases stepped : worker.step? with
    | none => exact closed
    | some after => exact step_closed closed (steps_of_step stepped)
  | close => rfl

theorem acceptance_closed (closed : worker.accepting = false) (envelope : Envelope) :
    worker.acceptance? envelope = none := by
  rw [acceptance?, closed]
  rfl

theorem action_deed_closed (closed : worker.accepting = false) (action : Action) :
    worker.actionDeed? action = none := by
  cases action with
  | spawn job => exact acceptance_closed closed _
  | _ => rfl

theorem deed_closed (closed : worker.accepting = false) (move : WorkerMove) :
    (worker.deed? move).toList.filterMap Deed.accepted? = [] := by
  cases move with
  | spawn job => rw [deed?, acceptance_closed closed]; rfl
  | call job => rw [deed?, acceptance_closed closed]; rfl
  | step =>
    rw [deed?, stepDeed?]
    split
    · cases worker.queue <;> rfl
    · split
      · rw [action_deed_closed closed]
        rfl
      · rfl
      · rfl
    · rfl
    · rfl
  | close => rfl

theorem run_closed (closed : worker.accepting = false) (moves : List WorkerMove) :
    (worker.run moves).accepted = [] ∧ (worker.run moves).worker.accepting = false := by
  induction moves generalizing worker with
  | nil => exact ⟨rfl, closed⟩
  | cons move rest ih =>
    obtain ⟨accepted, still⟩ := ih (move_closed closed move)
    refine ⟨?_, still⟩
    rw [run, WorkerRun.accepted, List.filterMap_append, deed_closed closed]
    exact accepted

theorem work_of_rest (rests : worker.step? = none) : worker.work = 0 := by
  obtain ⟨idle, queued⟩ := idle_of_rest rests
  rw [work, idle, queued]
  rfl

theorem rest_of_work (done : worker.work = 0) : worker.step? = none := by
  cases stepped : worker.step? with
  | none => rfl
  | some after =>
    have spent := step_work_lt stepped
    omega

theorem move_work_le (closed : worker.accepting = false) (move : WorkerMove) :
    (worker.move move).work ≤ worker.work - move.isStep.toNat := by
  cases move with
  | spawn job =>
    rw [Worker.move, spawn, closed]
    exact Nat.le_refl _
  | call job =>
    rw [Worker.move, call_eq, closed]
    simp [work, WorkerMove.isStep]
  | step =>
    rw [Worker.move]
    cases stepped : worker.step? with
    | none =>
      have done := work_of_rest stepped
      rw [Option.getD_none, done]
      exact Nat.zero_le _
    | some after => exact Nat.le_sub_one_of_lt (step_work_lt stepped)
  | close => exact Nat.le_refl _

theorem run_work_le (closed : worker.accepting = false) (moves : List WorkerMove) :
    (worker.run moves).worker.work ≤ worker.work - moves.countP WorkerMove.isStep := by
  induction moves generalizing worker with
  | nil => exact Nat.le_refl _
  | cons move rest ih =>
    have spent := move_work_le closed move
    have later := ih (move_closed closed move)
    have steps : (move :: rest).countP WorkerMove.isStep =
        rest.countP WorkerMove.isStep + move.isStep.toNat := by
      cases move <;> simp [List.countP_cons, WorkerMove.isStep]
    rw [run, steps]
    dsimp only
    omega

end Worker

theorem run_in_turn (name : String) (moves : List WorkerMove) :
    let run := (Worker.start name).run moves
    run.begun <+: run.accepted ∧
    run.accepted = run.begun ++ run.worker.queue ∧
    (∀ alike : Envelope → Bool, run.begun.countP alike ≤ run.accepted.countP alike) ∧
    run.begun.map Envelope.verdict = run.ended ++ run.worker.stage.verdict?.toList ∧
    run.begun.length ≤ run.ended.length + 1 ∧
    ∀ later : List WorkerMove, run.worker.work ≤ later.countP WorkerMove.isStep →
      let joined := run.worker.close.run later
      joined.worker.step? = none ∧ joined.worker.accepting = false ∧
      joined.accepted = [] ∧
      run.begun ++ joined.begun = run.accepted ∧
      run.ended ++ joined.ended = run.accepted.map Envelope.verdict := by
  intro run
  obtain ⟨accepted, ended⟩ := Worker.conserves_run (Worker.start name) moves
  replace accepted : run.accepted = run.begun ++ run.worker.queue := accepted
  replace ended : run.begun.map Envelope.verdict =
      run.ended ++ run.worker.stage.verdict?.toList := ended
  have started : run.begun <+: run.accepted := ⟨_, accepted.symm⟩
  have single : run.begun.length ≤ run.ended.length + 1 := by
    have lengths := congrArg List.length ended
    rw [List.length_map, List.length_append] at lengths
    have one := Option.length_toList_le (o := run.worker.stage.verdict?)
    omega
  refine ⟨started, accepted, fun alike => started.sublist.countP_le, ended, single, ?_⟩
  intro later enough joined
  have closed : run.worker.close.accepting = false := rfl
  obtain ⟨none, still⟩ := Worker.run_closed closed later
  have spent : joined.worker.work ≤ run.worker.work - later.countP WorkerMove.isStep :=
    Worker.run_work_le closed later
  have rests : joined.worker.step? = Option.none := Worker.rest_of_work (by omega)
  obtain ⟨idle, empty⟩ := Worker.idle_of_rest rests
  obtain ⟨queue, progress⟩ := Worker.conserves_run run.worker.close later
  have begunLater : run.worker.queue = joined.begun := by
    have whole : run.worker.queue ++ joined.accepted = joined.begun ++ joined.worker.queue := queue
    rwa [none, empty, List.append_nil, List.append_nil] at whole
  have endedLater : run.worker.stage.verdict?.toList ++ joined.begun.map Envelope.verdict =
      joined.ended := by
    have whole : run.worker.stage.verdict?.toList ++ joined.begun.map Envelope.verdict =
      joined.ended ++ joined.worker.stage.verdict?.toList := progress
    rw [idle] at whole
    exact whole.trans (List.append_nil _)
  refine ⟨rests, still, none, ?_, ?_⟩
  · rw [accepted, begunLater]
  · calc run.ended ++ joined.ended
        = run.ended ++ (run.worker.stage.verdict?.toList ++ joined.begun.map Envelope.verdict) := by
          rw [endedLater]
      _ = run.begun.map Envelope.verdict ++ joined.begun.map Envelope.verdict := by
          rw [ended, List.append_assoc]
      _ = run.accepted.map Envelope.verdict := by
          rw [accepted, begunLater, List.map_append]

theorem run_in_turn_panics :
    let moves : List WorkerMove := [.spawn [.note "a", .panic (.text "boom"), .note "b"], .step,
      .call [.spawn [.execute [.panic .other]], .answer (.int 1)],
      .step, .step, .step, .step, .step, .step]
    let later : List WorkerMove := .spawn [.note "late"] :: List.replicate 12 .step
    let run := (Worker.start "worker").run moves
    let joined := run.worker.close.run later
    run.worker.work ≤ later.countP WorkerMove.isStep ∧
    run.begun.length = 2 ∧ run.accepted.length = 3 ∧
    joined.worker.step? = none ∧ joined.worker.journal = ["a"] ∧
    run.ended ++ joined.ended = [⟨none, .panicked "boom"⟩, ⟨some 0, .returned (.int 1)⟩,
      ⟨none, .panicked "non-string panic payload"⟩] := by
  intro moves later run joined
  have enough : run.worker.work ≤ later.countP WorkerMove.isStep := by decide
  obtain ⟨_, _, _, _, _, drop⟩ := run_in_turn "worker" moves
  obtain ⟨rests, _, _, _, ended⟩ := drop later enough
  exact ⟨enough, rfl, rfl, rests, rfl, ended⟩

end Gherkin
