import Gherkin.Proofs.Worker.Delivery
import Gherkin.Proofs.Worker.Effects
/-!
A worker against a worker that does each job as a whole. Jobs come from outside between any two
steps, and the job in progress puts further jobs behind all those that are there. What the journal
holds in the end is nevertheless what it would hold had each job been done at one go, in the order
in which the jobs were accepted: the order alone decides.
-/
namespace Gherkin

mutual

def Action.keepsOpen : Action → Bool
  | .execute job => Job.keepsOpen job
  | .spawn job => Job.keepsOpen job
  | .close => false
  | _ => true

def Job.keepsOpen : List Action → Bool
  | [] => true
  | action :: rest => action.keepsOpen && Job.keepsOpen rest

end

def Stage.frames : Stage → List Frame
  | .working task => task.frame :: task.callers
  | _ => []

namespace WorkerMove

def keepsOpen : WorkerMove → Bool
  | .spawn job => Job.keepsOpen job
  | .call job => Job.keepsOpen job
  | .step => true
  | .close => false

def job? : WorkerMove → Option Job
  | .spawn job => some job
  | .call job => some job
  | _ => none

end WorkerMove

/-- Whether jobs, done as a whole and in turn, leave a journal: those in the queue and, in the order
in which they are submitted, all others. While a job is done it submits the jobs that it spawns, and
others may be submitted from outside at any time. -/
inductive InTurn (name : String) : List Job → List Submission → List String → Prop
  | done : InTurn name [] [] []
  | submitted {job : Job} {queue : List Job} {order : List Submission} {journal : List String}
      (rest : InTurn name (queue ++ [job]) order journal) :
      InTurn name queue (⟨job, false⟩ :: order) journal
  | takes {job : Job} {queue : List Job} {during order : List Submission} {journal : List String}
      (own : Submission.nestedJobs during = Job.spawned name job)
      (rest : InTurn name (queue ++ during.map (·.job)) order journal) :
      InTurn name (job :: queue) (during ++ order) (Job.journal name job ++ journal)

namespace InTurn
variable {name : String} {queue : List Job} {order during : List Submission}
  {journal : List String}

/-- The order in which jobs are accepted decides what the journal holds. -/
theorem journal_eq (turns : InTurn name queue order journal) :
    journal = (queue ++ order.map (·.job)).flatMap (Job.journal name) := by
  induction turns with
  | done => rfl
  | submitted _ ih => rw [ih, List.append_assoc]; rfl
  | takes _ _ ih =>
    rw [ih, List.map_append, List.cons_append, List.flatMap_cons, List.append_assoc]

/-- The jobs that are not from outside are those that all jobs spawn, one job after another. -/
theorem nested_eq (turns : InTurn name queue order journal) :
    Submission.nestedJobs order =
      (queue ++ order.map (·.job)).flatMap (Job.spawned name) := by
  induction turns with
  | done => rfl
  | submitted _ ih =>
    rw [List.append_assoc] at ih
    exact ih
  | takes own _ ih =>
    rw [Submission.nested_jobs_append, own, ih, List.map_append, List.cons_append,
      List.flatMap_cons, List.append_assoc]

theorem of_outside (outside : Submission.nestedJobs during = [])
    (rest : InTurn name (queue ++ during.map (·.job)) order journal) :
    InTurn name queue (during ++ order) journal := by
  induction during generalizing queue with
  | nil => rwa [List.map_nil, List.append_nil] at rest
  | cons submission during ih =>
    obtain ⟨job, nested⟩ := submission
    cases nested with
    | true => cases outside
    | false =>
      apply submitted
      apply ih outside
      rwa [List.append_assoc]

end InTurn

namespace Worker
variable {worker after : Worker}

def submissions (worker : Worker) : List WorkerMove → List Submission
  | [] => []
  | move :: rest => (worker.submission? move).toList ++ (worker.move move).submissions rest

theorem submissions_accepted (worker : Worker) (moves : List WorkerMove) :
    (worker.submissions moves).map (·.job) =
      (worker.run moves).accepted.map (·.job) := by
  induction moves generalizing worker with
  | nil => rfl
  | cons move rest ih =>
    have first : (worker.submission? move).toList.map (·.job) =
        ((worker.deed? move).toList.filterMap Deed.accepted?).map (·.job) := by
      rw [submission?]
      rcases worker.deed? move with _ | (_ | _ | _) <;> rfl
    rw [submissions, List.map_append, first, ih, run, WorkerRun.accepted, WorkerRun.accepted,
      List.filterMap_append, List.map_append]

theorem open_of_open_end {moves : List WorkerMove}
    (live : (worker.run moves).worker.accepting = true) : worker.accepting = true := by
  cases closed : worker.accepting with
  | true => rfl
  | false =>
    have still := (run_closed closed moves).2
    exact still.symm.trans live

theorem outside_of_submission (live : worker.accepting = true) (move : WorkerMove) :
    ((worker.submission? move).toList.filter (!·.nested)).map (·.job) = move.job?.toList := by
  cases move with
  | spawn job | call job =>
    rw [submission_accepted live rfl]
    rfl
  | step =>
    rw [submission?]
    rcases (worker.deed? .step).bind Deed.accepted? with _ | _ <;> rfl
  | close => rfl

theorem submissions_outside {moves : List WorkerMove}
    (live : (worker.run moves).worker.accepting = true) :
    ((worker.submissions moves).filter (!·.nested)).map (·.job) =
      moves.filterMap WorkerMove.job? := by
  induction moves generalizing worker with
  | nil => rfl
  | cons move rest ih =>
    have first := outside_of_submission (open_of_open_end live) move
    rw [submissions, List.filter_append, List.map_append, first, ih live]
    cases move <;> rfl

/-- A run to the end, from any state of the worker: the job in progress ends as it must, and all
others are done as a whole and in turn. -/
theorem run_serves {moves : List WorkerMove}
    (live : (worker.run moves).worker.accepting = true)
    (rests : (worker.run moves).worker.step? = none) :
    ∃ during order journal, worker.submissions moves = during ++ order ∧
      Submission.nestedJobs during = worker.stage.spawned worker.name ∧
      (worker.run moves).worker.journal = worker.promised ++ journal ∧
      InTurn worker.name (worker.queue.map (·.job) ++ during.map (·.job)) order journal := by
  induction moves generalizing worker with
  | nil =>
    obtain ⟨idle, queued⟩ := idle_of_rest rests
    refine ⟨[], [], [], rfl, ?_, ?_, ?_⟩
    · rw [show worker.stage = .idle from idle]
      rfl
    · rw [promised, show worker.stage = .idle from idle]
      exact ((List.append_nil _).trans (List.append_nil _)).symm
    · rw [show worker.queue = [] from queued]
      exact .done
  | cons move rest ih =>
    obtain ⟨during, order, journal, whole, spawned, holds, turns⟩ := ih live rests
    rcases advances_or_begins_move (open_of_open_end live) move with advances | ⟨none, job, begins⟩
    · refine ⟨(worker.submission? move).toList ++ during, order, journal, ?_, ?_, ?_, ?_⟩
      · rw [submissions, whole, List.append_assoc]
      · rw [Submission.nested_jobs_append, spawned, advances.name, advances.spawned]
      · rw [← advances.promised]
        exact holds
      · rw [advances.name, advances.queue, List.append_assoc] at turns
        rwa [List.map_append]
    · refine ⟨[], during ++ order, Job.journal worker.name job ++ journal, ?_, ?_, ?_, ?_⟩
      · rw [submissions, none, whole]
        rfl
      · rw [begins.idle]
        rfl
      · rw [← List.append_assoc, ← begins.promised]
        exact holds
      · rw [begins.name, begins.spawned] at spawned
        rw [begins.name] at turns
        rw [begins.queue, List.map_nil, List.append_nil]
        exact .takes spawned turns

-- A worker that nobody closes, neither from outside nor from a job.

structure KeepsOpen (worker : Worker) : Prop where
  accepting : worker.accepting = true
  queue : ∀ envelope ∈ worker.queue, Job.keepsOpen envelope.job = true
  frames : ∀ frame ∈ worker.stage.frames, Job.keepsOpen frame.rest = true

theorem KeepsOpen.submitted (keeps : worker.KeepsOpen) {envelope : Envelope}
    (own : Job.keepsOpen envelope.job = true) :
    ∀ other ∈ worker.queue ++ [envelope], Job.keepsOpen other.job = true := by
  rw [List.forall_mem_append, List.forall_mem_singleton]
  exact ⟨keeps.queue, own⟩

theorem keeps_open_perform (keeps : worker.KeepsOpen) {task : Task} {action : Action} {rest : Job}
    (working : worker.stage = .working task) (acts : task.frame.rest = action :: rest) :
    (worker.perform { task with frame := { task.frame with rest } } action).KeepsOpen := by
  have frames := keeps.frames
  rw [working, Stage.frames, List.forall_mem_cons, acts, Job.keepsOpen, Bool.and_eq_true] at frames
  obtain ⟨⟨own, others⟩, callers⟩ := frames
  have remaining (value : Value) (told : Told) : ∀ frame ∈ ⟨rest, value, told⟩ :: task.callers,
      Job.keepsOpen frame.rest = true := List.forall_mem_cons.mpr ⟨others, callers⟩
  cases action with
  | panic payload =>
    obtain ⟨calls, same⟩ := update_call_calls worker task.ticket fun call =>
      { call with reply := .dropped }
    rw [perform, same]
    exact ⟨keeps.accepting, keeps.queue, List.forall_mem_nil _⟩
  | execute job =>
    exact ⟨keeps.accepting, keeps.queue, List.forall_mem_cons.mpr ⟨own, remaining _ _⟩⟩
  | spawn job =>
    rw [perform, spawn_eq, keeps.accepting]
    exact ⟨rfl, keeps.submitted own, remaining _ _⟩
  | close => cases own
  | _ => exact ⟨keeps.accepting, keeps.queue, remaining _ _⟩

theorem keeps_open_step (keeps : worker.KeepsOpen) (steps : worker.Steps after) :
    after.KeepsOpen := by
  cases steps with
  | begins idle queued =>
    have queue := keeps.queue
    rw [queued, List.forall_mem_cons] at queue
    exact ⟨keeps.accepting, queue.2, List.forall_mem_singleton.mpr queue.1⟩
  | acts working acts => exact keeps_open_perform keeps working acts
  | resumes working left waiting =>
    have frames := keeps.frames
    rw [working, Stage.frames, waiting, List.forall_mem_cons, List.forall_mem_cons] at frames
    obtain ⟨_, next, others⟩ := frames
    exact ⟨keeps.accepting, keeps.queue, List.forall_mem_cons.mpr ⟨next, others⟩⟩
  | @finishes task =>
    obtain ⟨calls, same⟩ := update_call_calls worker task.ticket fun _ =>
      ⟨.sent task.frame.value, .dropped⟩
    rw [finish, same]
    exact ⟨keeps.accepting, keeps.queue, List.forall_mem_nil _⟩
  | @tells ticket message later =>
    obtain ⟨calls, events, same⟩ := report_told worker ticket message
    rw [same]
    exact ⟨keeps.accepting, keeps.queue, List.forall_mem_nil _⟩
  | rests => exact ⟨keeps.accepting, keeps.queue, List.forall_mem_nil _⟩

theorem keeps_open_move (keeps : worker.KeepsOpen) {move : WorkerMove}
    (noClose : move.keepsOpen = true) : (worker.move move).KeepsOpen := by
  cases move with
  | spawn job =>
    rw [Worker.move, spawn_eq, keeps.accepting]
    exact ⟨rfl, keeps.submitted noClose, keeps.frames⟩
  | call job =>
    rw [Worker.move, call_eq, keeps.accepting]
    exact ⟨rfl, keeps.submitted noClose, keeps.frames⟩
  | step =>
    rw [Worker.move]
    cases stepped : worker.step? with
    | none => exact keeps
    | some after => exact keeps_open_step keeps (steps_of_step stepped)
  | close => cases noClose

theorem keeps_open_run (keeps : worker.KeepsOpen) {moves : List WorkerMove}
    (noClose : ∀ move ∈ moves, move.keepsOpen = true) : (worker.run moves).worker.KeepsOpen := by
  induction moves generalizing worker with
  | nil => exact keeps
  | cons move rest ih =>
    obtain ⟨first, others⟩ := List.forall_mem_cons.mp noClose
    exact ih (keeps_open_move keeps first) others

theorem run_append (worker : Worker) (earlier later : List WorkerMove) :
    (worker.run (earlier ++ later)).worker = ((worker.run earlier).worker.run later).worker := by
  induction earlier generalizing worker with
  | nil => rfl
  | cons move rest ih => exact ih (worker.move move)

theorem rests_of_steps {count : Nat} (enough : worker.work ≤ count) :
    (worker.run (List.replicate count .step)).worker.step? = none := by
  induction count generalizing worker with
  | zero => exact rest_of_work (Nat.le_zero.mp enough)
  | succ count ih =>
    refine @ih (worker.move .step) ?_
    rw [Worker.move]
    cases stepped : worker.step? with
    | none =>
      rw [Option.getD_none, work_of_rest stepped]
      exact Nat.zero_le _
    | some after => exact Nat.le_of_lt_succ (Nat.lt_of_lt_of_le (step_work_lt stepped) enough)

theorem outcome_of_call {name : String} {earlier later : List WorkerMove} {job : Job}
    (live : ((start name).run (earlier ++ .call job :: later)).worker.accepting = true)
    (rests : ((start name).run (earlier ++ .call job :: later)).worker.step? = none) :
    outcomeAmid? name earlier job later = some (Job.outcome job) := by
  rw [run_append] at live rests
  exact outcome_of_rest (standing_amid name (open_of_open_end live) job later) rests

theorem begun_of_rest {moves : List WorkerMove} (idle : worker.stage = .idle)
    (queued : worker.queue = []) (rests : (worker.run moves).worker.step? = none) :
    (worker.run moves).begun = (worker.run moves).accepted ∧
      (worker.run moves).ended = (worker.run moves).accepted.map Envelope.verdict := by
  obtain ⟨queue, progress⟩ := conserves_run worker moves
  obtain ⟨idleThen, queuedThen⟩ := idle_of_rest rests
  rw [queued, queuedThen, List.append_nil] at queue
  rw [idle, idleThen] at progress
  have begun : (worker.run moves).begun = (worker.run moves).accepted := queue.symm
  refine ⟨begun, ?_⟩
  rw [← begun]
  exact ((List.append_nil _).symm.trans progress.symm)

end Worker

/-- A worker that nobody closes comes to what it would come to if it did each job as a whole. It
accepts the jobs that are submitted from outside and those that jobs spawn; left alone, it begins
and ends each of them once, in the order in which it accepted them. This order decides what the
journal then holds. A job done at once does all that it does in its place. A panic, at whatever
depth, ends the one job of the queue that it happens in: what that job did before stands, and a call
that waits for it gets the message. -/
theorem run_as_reference (name : String) (moves : List WorkerMove)
    (noClose : ∀ move ∈ moves, move.keepsOpen = true) :
    let run := (Worker.start name).run moves
    let order := (Worker.start name).submissions moves
    order.map (·.job) = run.accepted.map (·.job) ∧
    (order.filter (!·.nested)).map (·.job) = moves.filterMap WorkerMove.job? ∧
    (∀ count, run.worker.work ≤ count →
      (run.worker.run (List.replicate count .step)).worker.step? = none) ∧
    (run.worker.step? = none →
      InTurn name [] order run.worker.journal ∧
      (∀ journal, InTurn name [] order journal → journal = run.worker.journal) ∧
      Submission.nestedJobs order = (order.map (·.job)).flatMap (Job.spawned name) ∧
      run.begun = run.accepted ∧ run.ended = run.accepted.map Envelope.verdict ∧
      ∀ earlier job later, moves = earlier ++ .call job :: later →
        Worker.outcomeAmid? name earlier job later = some (Job.outcome job) ∧
        ∀ message, Job.panic? job = some message →
          Worker.outcomeAmid? name earlier job later = some (.panicked message)) ∧
    (∀ front job rest, Job.panic? front = none → Job.panic? job = none →
      Job.effects name {} (front ++ .execute job :: rest) =
        Job.effects name {} front ++ Job.effects name {} job ++
          Job.effects name (Job.tells {} (front ++ [.execute job])) rest) ∧
    ∀ front action rest message, Job.panic? front = none → action.panic? = some message →
      Job.effects name {} (front ++ action :: rest) =
        Job.effects name {} front ++ action.effects name (Job.tells {} front) ∧
      Job.panic? (front ++ action :: rest) = some message := by
  intro run order
  have start : (Worker.start name).KeepsOpen :=
    ⟨rfl, List.forall_mem_nil _, List.forall_mem_nil _⟩
  have live := (Worker.keeps_open_run start noClose).accepting
  refine ⟨Worker.submissions_accepted _ moves, Worker.submissions_outside live,
    fun count => Worker.rests_of_steps, fun rests => ?_,
    fun front job rest goes returns => Job.effects_of_execute name goes returns {} rest,
    fun front action rest message goes panics => Job.effects_of_panic name goes panics {} rest⟩
  obtain ⟨during, later, journal, whole, outside, holds, turns⟩ := Worker.run_serves live rests
  have served : InTurn name [] order run.worker.journal := by
    have same : run.worker.journal = journal := holds
    have inOrder : order = during ++ later := whole
    rw [same, inOrder]
    exact InTurn.of_outside outside turns
  obtain ⟨begun, ended⟩ := Worker.begun_of_rest rfl rfl rests
  refine ⟨served, fun other turns => turns.journal_eq.trans served.journal_eq.symm,
    served.nested_eq, begun, ended, ?_⟩
  rintro earlier job later rfl
  have outcome := Worker.outcome_of_call live rests
  refine ⟨outcome, fun message panics => ?_⟩
  rw [outcome, Job.outcome, Job.outcomeFrom, panics]

theorem run_as_reference_panics :
    let outer : Job := [.note "a",
      .execute [.spawn [.note "e"], .note "b", .panic (.text "boom")], .note "never"]
    let called : Job := [.execute [.note "c"], .execute [.note "d", .panic .other], .note "never"]
    let earlier : List WorkerMove := [.spawn outer, .step, .step]
    let later : List WorkerMove := List.replicate 20 .step
    let run := (Worker.start "worker").run (earlier ++ .call called :: later)
    (∀ move ∈ earlier ++ .call called :: later, move.keepsOpen = true) ∧
    run.worker.step? = none ∧ run.worker.journal = ["a", "b", "c", "d", "e"] ∧
    Worker.outcomeAmid? "worker" earlier called later =
      some (.panicked "non-string panic payload") := by
  intro outer called earlier later run
  have noClose : ∀ move ∈ earlier ++ .call called :: later, move.keepsOpen = true := by decide
  have rests : run.worker.step? = none := Worker.rest_of_work (by decide)
  obtain ⟨_, _, _, atRest, _⟩ := run_as_reference "worker" _ noClose
  obtain ⟨_, _, _, _, _, calls⟩ := atRest rests
  exact ⟨noClose, rests, by decide +kernel, (calls earlier called later rfl).2 _ rfl⟩

end Gherkin
