import Gherkin.Proofs.Worker.Turns
/-!
What a job does on the way to its end, told from the job alone: the texts that it writes and leaves
and the jobs that it spawns, with those of the jobs done at once in their places, up to the first
panic. Whatever has been done of a job in progress and whatever waits for the rest, its steps bring
about what is still to come of it, and nothing else.
-/
namespace Gherkin

inductive Effect
  | writes (text : String)
  | spawns (job : Job)
  /-- Leaves a text that is written when the whole job has ended. -/
  | leaves (text : String)

namespace Effect

def written (effects : List Effect) : List String :=
  effects.filterMap fun
    | .writes text => some text
    | _ => none

def spawned (effects : List Effect) : List Job :=
  effects.filterMap fun
    | .spawns job => some job
    | _ => none

def left (effects : List Effect) : List String :=
  effects.filterMap fun
    | .leaves text => some text
    | _ => none

theorem written_append (effects more : List Effect) :
    written (effects ++ more) = written effects ++ written more := List.filterMap_append

theorem spawned_append (effects more : List Effect) :
    spawned (effects ++ more) = spawned effects ++ spawned more := List.filterMap_append

theorem left_append (effects more : List Effect) :
    left (effects ++ more) = left effects ++ left more := List.filterMap_append

end Effect

/-- What a job knows when an action is done on a worker that accepts jobs. -/
def Action.tells (told : Told) : Action → Told
  | .execute job => { told with inner := Job.answered .null job }
  | .spawn _ => { told with accepted := true }
  | _ => told

def Job.tells (told : Told) (job : Job) : Told := job.foldl Action.tells told

mutual

/-- What an action does on a worker that accepts jobs. A job done at once writes and spawns in
place, and a job that is spawned does not write before its turn. -/
def Action.effects (name : String) (told : Told) : Action → List Effect
  | .note text => [.writes text]
  | .noteFact label fact => [.writes s!"{label}={fact.text name told}"]
  | .later text => [.leaves text]
  | .execute job => Job.effects name {} job
  | .spawn job => [.spawns job]
  | .answer _ | .panic _ | .close => []

/-- What the actions of a job do, up to the first that panics and with what that one does before. -/
def Job.effects (name : String) (told : Told) : List Action → List Effect
  | [] => []
  | action :: rest =>
    action.effects name told ++
      match action.panic? with
      | some _ => []
      | none => Job.effects name (action.tells told) rest

end

def Job.spawned (name : String) (job : Job) : List Job := Effect.spawned (Job.effects name {} job)

/-- What the journal gets from a job: what is written while it runs and what it leaves. -/
def Job.journal (name : String) (job : Job) : List String :=
  Effect.written (Job.effects name {} job) ++ Effect.left (Job.effects name {} job)

def Frame.effects (name : String) (frame : Frame) : List Frame → List Effect
  | [] => Job.effects name frame.told frame.rest
  | caller :: callers =>
    Job.effects name frame.told frame.rest ++
      match Job.panic? frame.rest with
      | some _ => []
      | none => (caller.hear (Job.answered frame.value frame.rest)).effects name callers

def Task.effects (name : String) (task : Task) : List Effect :=
  task.frame.effects name task.callers

def Stage.spawned (name : String) : Stage → List Job
  | .working task => Effect.spawned (task.effects name)
  | _ => []

/-- What the journal has yet to get from the job in progress. -/
def Stage.journal (name : String) : Stage → List String
  | .idle => []
  | .working task =>
    Effect.written (task.effects name) ++ (task.later ++ Effect.left (task.effects name))
  | .panicked _ _ later => later
  | .ending later => later

variable {name : String}

theorem Frame.effects_cons (value : Value) (told : Told) (action : Action) (rest : Job)
    (callers : List Frame) :
    (Frame.mk (action :: rest) value told).effects name callers =
      action.effects name told ++
        match action.panic? with
        | some _ => []
        | none =>
          (Frame.mk rest (action.answered value) (action.tells told)).effects name callers := by
  cases callers <;> cases panics : action.panic? <;>
    simp [Frame.effects, Job.effects, Job.panic?, Job.answered, panics]

theorem Frame.effects_execute (value : Value) (told : Told) (job rest : Job)
    (callers : List Frame) :
    (Frame.mk (.execute job :: rest) value told).effects name callers =
      (Frame.mk job .null {}).effects name (⟨rest, value, told⟩ :: callers) := by
  rw [Frame.effects_cons, Action.effects]
  rfl

theorem Job.effects_append (name : String) {front : Job} (goes : Job.panic? front = none)
    (told : Told) (rest : Job) :
    Job.effects name told (front ++ rest) =
        Job.effects name told front ++ Job.effects name (Job.tells told front) rest ∧
      Job.panic? (front ++ rest) = Job.panic? rest := by
  induction front generalizing told with
  | nil => exact ⟨rfl, rfl⟩
  | cons first front ih =>
    rw [Job.panic?] at goes
    cases calm : first.panic? with
    | some _ =>
      rw [calm] at goes
      cases goes
    | none =>
      rw [calm] at goes
      obtain ⟨effects, message⟩ := ih goes (first.tells told)
      simp [Job.effects, Job.panic?, Job.tells, calm, effects, message]

theorem Job.effects_of_execute (name : String) {front job : Job} (goes : Job.panic? front = none)
    (returns : Job.panic? job = none) (told : Told) (rest : Job) :
    Job.effects name told (front ++ .execute job :: rest) =
      Job.effects name told front ++ Job.effects name {} job ++
        Job.effects name (Job.tells told (front ++ [.execute job])) rest := by
  have knows : Job.tells told (front ++ [.execute job]) =
      (Action.execute job).tells (Job.tells told front) := List.foldl_append
  rw [(Job.effects_append name goes told _).1, Job.effects, Action.panic?, returns, knows,
    List.append_assoc]
  rfl

-- What comes before a panic stands, and what comes after it does not happen.
theorem Job.effects_of_panic (name : String) {front : Job} {action : Action} {message : String}
    (goes : Job.panic? front = none) (panics : action.panic? = some message) (told : Told)
    (rest : Job) :
    Job.effects name told (front ++ action :: rest) =
        Job.effects name told front ++ action.effects name (Job.tells told front) ∧
      Job.panic? (front ++ action :: rest) = some message := by
  obtain ⟨effects, panic⟩ := Job.effects_append name goes told (action :: rest)
  rw [effects, panic, Job.effects, Job.panic?, panics]
  exact ⟨congrArg _ (List.append_nil _), rfl⟩

structure Submission where
  job : Job
  nested : Bool

namespace Submission

def nestedJobs (order : List Submission) : List Job := (order.filter (·.nested)).map (·.job)

theorem nested_jobs_append (order more : List Submission) :
    nestedJobs (order ++ more) = nestedJobs order ++ nestedJobs more := by
  rw [nestedJobs, List.filter_append, List.map_append]
  rfl

end Submission

namespace Worker

def promised (worker : Worker) : List String := worker.journal ++ worker.stage.journal worker.name

def submission? (worker : Worker) (move : WorkerMove) : Option Submission :=
  ((worker.deed? move).bind Deed.accepted?).map fun envelope => ⟨envelope.job, move.isStep⟩

/-- Whether a worker goes on with what it is at while some jobs are submitted: these are behind
all others, the nested ones are those that the job in progress was about to spawn, and what the
journal will hold stays the same. -/
structure Advances (before : Worker) (submitted : List Submission) (after : Worker) : Prop where
  name : after.name = before.name
  queue : after.queue.map (·.job) = before.queue.map (·.job) ++ submitted.map (·.job)
  spawned : before.stage.spawned before.name =
    Submission.nestedJobs submitted ++ after.stage.spawned before.name
  promised : after.promised = before.promised

structure Begins (before : Worker) (job : Job) (after : Worker) : Prop where
  idle : before.stage = .idle
  name : after.name = before.name
  queue : before.queue.map (·.job) = job :: after.queue.map (·.job)
  spawned : after.stage.spawned before.name = Job.spawned before.name job
  promised : after.promised = before.promised ++ Job.journal before.name job

variable {worker after : Worker}

theorem advances_refl (worker : Worker) : Advances worker [] worker :=
  ⟨rfl, (List.append_nil _).symm, rfl, rfl⟩

-- A step in the middle of a job does the first effects that are to come and leaves the others.
theorem advances_of_effects {submitted : List Submission} {task remaining : Task}
    {effects : List Effect} (working : worker.stage = .working task)
    (goes : after.stage = .working remaining)
    (whole : task.effects worker.name = effects ++ remaining.effects worker.name)
    (named : after.name = worker.name)
    (queue : after.queue.map (·.job) = worker.queue.map (·.job) ++ submitted.map (·.job))
    (spawned : Effect.spawned effects = Submission.nestedJobs submitted)
    (written : after.journal = worker.journal ++ Effect.written effects)
    (left : remaining.later = task.later ++ Effect.left effects) :
    Advances worker submitted after := by
  refine ⟨named, queue, ?_, ?_⟩
  · rw [working, goes, Stage.spawned, Stage.spawned, whole, Effect.spawned_append, spawned]
  · rw [promised, promised, working, goes, named, Stage.journal, Stage.journal, whole, written,
      left, Effect.written_append, Effect.left_append]
    simp only [List.append_assoc]

theorem advances_of_done {task : Task} (working : worker.stage = .working task)
    (done : task.effects worker.name = []) (named : after.name = worker.name)
    (queue : after.queue = worker.queue) (journal : after.journal = worker.journal)
    (spawned : after.stage.spawned worker.name = [])
    (left : after.stage.journal worker.name = task.later) : Advances worker [] after := by
  refine ⟨named, ?_, ?_, ?_⟩
  · rw [queue]
    exact (List.append_nil _).symm
  · rw [working, spawned, Stage.spawned, done]
    rfl
  · rw [promised, promised, named, journal, left, working, Stage.journal, done]
    exact congrArg (worker.journal ++ ·) (List.append_nil task.later).symm

theorem update_call_calls (worker : Worker) (ticket : Option Nat) (change : Call → Call) :
    ∃ calls, worker.updateCall ticket change = { worker with calls } := by
  cases ticket <;> exact ⟨_, rfl⟩

theorem report_told (worker : Worker) (ticket : Option Nat) (message : String) :
    ∃ calls events, worker.report ticket message = { worker with calls, events } := by
  cases ticket <;> exact ⟨_, _, rfl⟩

theorem submission_acts {task : Task} {action : Action} {rest : Job}
    (working : worker.stage = .working task) (acts : task.frame.rest = action :: rest) :
    worker.submission? .step =
      ((worker.actionDeed? action).bind Deed.accepted?).map
        fun envelope => ⟨envelope.job, true⟩ := by
  simp only [submission?, deed?, stepDeed?, working, acts]
  rfl

theorem advances_perform (live : worker.accepting = true) {task : Task} {action : Action}
    {rest : Job} (working : worker.stage = .working task)
    (acts : task.frame.rest = action :: rest) :
    Advances worker (worker.submission? .step).toList
      (worker.perform { task with frame := { task.frame with rest } } action) := by
  have unchanged : worker.queue.map (·.job) = worker.queue.map (·.job) ++ [] :=
    (List.append_nil _).symm
  have whole : task.effects worker.name =
      (Frame.mk (action :: rest) task.frame.value task.frame.told).effects worker.name
        task.callers := by
    rw [Task.effects, ← acts]
  rw [submission_acts working acts]
  cases action with
  | panic payload =>
    have done : task.effects worker.name = [] := by
      rw [whole, Frame.effects_cons]
      rfl
    obtain ⟨calls, same⟩ := update_call_calls worker task.ticket fun call =>
      { call with reply := .dropped }
    rw [perform, same]
    exact advances_of_done working done rfl rfl rfl rfl rfl
  | execute job =>
    rw [Frame.effects_execute, ← List.nil_append (Frame.effects _ _ _)] at whole
    exact advances_of_effects working rfl whole rfl unchanged rfl (List.append_nil _).symm
      (List.append_nil _).symm
  | spawn job =>
    rw [Frame.effects_cons] at whole
    rw [perform, spawn_eq, actionDeed?, acceptance?, live]
    exact advances_of_effects working rfl whole rfl List.map_append rfl (List.append_nil _).symm
      (List.append_nil _).symm
  | later text =>
    rw [Frame.effects_cons] at whole
    exact advances_of_effects working rfl whole rfl unchanged rfl (List.append_nil _).symm rfl
  | answer _ | close =>
    rw [Frame.effects_cons] at whole
    exact advances_of_effects working rfl whole rfl unchanged rfl (List.append_nil _).symm
      (List.append_nil _).symm
  | _ =>
    rw [Frame.effects_cons] at whole
    exact advances_of_effects working rfl whole rfl unchanged rfl rfl (List.append_nil _).symm

-- Only the step that begins a job changes what the journal will hold.
theorem advances_or_begins (live : worker.accepting = true) (steps : worker.Steps after) :
    Advances worker (worker.submission? .step).toList after ∨
      worker.submission? .step = none ∧ ∃ job, Begins worker job after := by
  have unchanged : worker.queue.map (·.job) = worker.queue.map (·.job) ++ [] :=
    (List.append_nil _).symm
  cases steps with
  | @begins envelope queue idle queued =>
    refine Or.inr ⟨?_, envelope.job, idle, rfl, congrArg _ queued, rfl, ?_⟩
    · rw [submission?, deed?, stepDeed?, idle, queued]
      rfl
    · rw [promised, promised, idle, Stage.journal, List.append_nil]
      rfl
  | acts working acts => exact Or.inl (advances_perform live working acts)
  | @resumes task caller callers working left waiting =>
    left
    have none : worker.submission? .step = none := by
      simp only [submission?, deed?, stepDeed?, working, left, waiting]
      rfl
    have whole : task.effects worker.name =
        [] ++ (caller.hear task.frame.value).effects worker.name callers := by
      rw [Task.effects, waiting, Frame.effects, left]
      rfl
    rw [none]
    exact advances_of_effects working rfl whole rfl unchanged rfl (List.append_nil _).symm
      (List.append_nil _).symm
  | @finishes task working left alone =>
    left
    have none : worker.submission? .step = none := by
      simp only [submission?, deed?, stepDeed?, working, left, alone]
      rfl
    have done : task.effects worker.name = [] := by
      rw [Task.effects, alone, Frame.effects, left]
      rfl
    obtain ⟨calls, same⟩ := update_call_calls worker task.ticket fun _ =>
      ⟨.sent task.frame.value, .dropped⟩
    rw [none, finish, same]
    exact advances_of_done working done rfl rfl rfl rfl rfl
  | @tells ticket message later panicked =>
    left
    have none : worker.submission? .step = none := by
      rw [submission?, deed?, stepDeed?, panicked]
      rfl
    obtain ⟨calls, events, same⟩ := report_told worker ticket message
    rw [none, same]
    refine ⟨rfl, unchanged, ?_, ?_⟩
    · rw [panicked]
      rfl
    · rw [promised, promised, panicked]
      rfl
  | @rests later ending =>
    left
    have none : worker.submission? .step = none := by
      rw [submission?, deed?, stepDeed?, ending]
      rfl
    rw [none]
    refine ⟨rfl, unchanged, ?_, ?_⟩
    · rw [ending]
      rfl
    · rw [promised, promised, ending]
      exact List.append_nil _

theorem submission_accepted {move : WorkerMove} {envelope : Envelope}
    (live : worker.accepting = true) (deed : worker.deed? move = worker.acceptance? envelope) :
    worker.submission? move = some ⟨envelope.job, move.isStep⟩ := by
  rw [submission?, deed, acceptance?, live]
  rfl

theorem advances_or_begins_move (live : worker.accepting = true) (move : WorkerMove) :
    Advances worker (worker.submission? move).toList (worker.move move) ∨
      worker.submission? move = none ∧ ∃ job, Begins worker job (worker.move move) := by
  cases move with
  | spawn job =>
    rw [submission_accepted live rfl, Worker.move, spawn_eq, live]
    exact Or.inl ⟨rfl, List.map_append, rfl, rfl⟩
  | call job =>
    rw [submission_accepted live rfl, Worker.move, call_eq, live]
    exact Or.inl ⟨rfl, List.map_append, rfl, rfl⟩
  | step =>
    rw [Worker.move]
    cases stepped : worker.step? with
    | none =>
      rw [submission?, deed?, step_deed_of_rest stepped]
      exact Or.inl (advances_refl worker)
    | some after => exact advances_or_begins live (steps_of_step stepped)
  | close => exact Or.inl ⟨rfl, (List.append_nil _).symm, rfl, rfl⟩

end Worker
end Gherkin
