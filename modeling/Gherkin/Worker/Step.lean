import Gherkin.Worker.Basic
/-!
The steps of a worker. An idle worker begins the next job of its queue; a busy one does the next
action, ends a job done at once, or ends the whole job. Steps are small enough for jobs to be
accepted between any two of them.

Each step uses up some of the work that the accepted jobs amount to, so a worker left alone comes
to rest.
-/
namespace Gherkin

def Envelope.work (envelope : Envelope) : Nat := Job.work envelope.job + 4

def Envelope.totalWork : List Envelope → Nat
  | [] => 0
  | envelope :: queue => envelope.work + totalWork queue

theorem total_work_append (queue : List Envelope) (envelope : Envelope) :
    Envelope.totalWork (queue ++ [envelope]) = Envelope.totalWork queue + envelope.work := by
  induction queue with
  | nil => simp [Envelope.totalWork]
  | cons first rest ih => rw [List.cons_append, Envelope.totalWork, ih, Envelope.totalWork]; omega

def Frame.work (frame : Frame) : Nat := Job.work frame.rest + 1

def Frame.totalWork : List Frame → Nat
  | [] => 0
  | frame :: frames => frame.work + totalWork frames

def Task.work (task : Task) : Nat := task.frame.work + Frame.totalWork task.callers + 2

def Stage.work : Stage → Nat
  | .idle => 0
  | .working task => task.work
  | .panicked _ _ _ => 2
  | .ending _ => 1

namespace Worker

/-- How many steps a worker left alone takes at most. -/
def work (worker : Worker) : Nat := Envelope.totalWork worker.queue + worker.stage.work

def write (worker : Worker) (text : String) : Worker :=
  { worker with journal := worker.journal ++ [text] }

def become (worker : Worker) (stage : Stage) : Worker := { worker with stage }

def updateCall (worker : Worker) (ticket : Option Nat) (change : Call → Call) : Worker :=
  match ticket with
  | some number => { worker with calls := worker.calls.modify number change }
  | none => worker

/-- Ends the whole job with its answer, after which no panic can be reported. -/
def finish (worker : Worker) (task : Task) : Worker :=
  (worker.updateCall task.ticket fun _ => ⟨.sent task.frame.value, .dropped⟩).become
    (.ending task.later)

/-- Tells of a panic: the caller, or the log when nobody waits. -/
def report (worker : Worker) (ticket : Option Nat) (message : String) : Worker :=
  match ticket with
  | some _ => worker.updateCall ticket fun call => { call with failure := .sent message }
  | none => { worker with events := worker.events ++ [.detachedPanic message] }

/-- Does one action of a job; `task` is what is left of the job behind the action. -/
def perform (worker : Worker) (task : Task) : Action → Worker
  | .note text => (worker.write text).become (.working task)
  | .noteFact label fact =>
    (worker.write s!"{label}={fact.text worker.name task.frame.told}").become (.working task)
  | .answer value => worker.become (.working { task with frame := { task.frame with value } })
  | .panic payload =>
    (worker.updateCall task.ticket fun call => { call with reply := .dropped }).become
      (.panicked task.ticket payload.message task.later)
  | .later text => worker.become (.working { task with later := task.later ++ [text] })
  | .execute job =>
    worker.become
      (.working { task with frame := { rest := job }, callers := task.frame :: task.callers })
  | .spawn job =>
    (worker.spawn job).become (.working { task with frame := task.frame.learn worker.accepting })
  | .close => worker.close.become (.working task)

/-- The next step; none when the worker is idle and its queue empty. -/
def step? (worker : Worker) : Option Worker :=
  match worker.stage with
  | .idle =>
    match worker.queue with
    | [] => none
    | envelope :: queue =>
      some { worker with
        queue
        stage := .working { ticket := envelope.ticket, frame := { rest := envelope.job } } }
  | .working task =>
    match task.frame.rest, task.callers with
    | action :: rest, _ =>
      some (worker.perform { task with frame := { task.frame with rest } } action)
    | [], caller :: callers =>
      some (worker.become
        (.working { task with frame := caller.hear task.frame.value, callers }))
    | [], [] => some (worker.finish task)
  | .panicked ticket message later => some ((worker.report ticket message).become (.ending later))
  | .ending later => some { worker with journal := worker.journal ++ later, stage := .idle }

theorem update_call_queue (worker : Worker) (ticket : Option Nat) (change : Call → Call) :
    (worker.updateCall ticket change).queue = worker.queue := by
  cases ticket <;> rfl

theorem report_queue (worker : Worker) (ticket : Option Nat) (message : String) :
    (worker.report ticket message).queue = worker.queue := by
  cases ticket <;> rfl

theorem spawn_work_le (worker : Worker) (job : Job) :
    Envelope.totalWork (worker.spawn job).queue ≤
      Envelope.totalWork worker.queue + (Job.work job + 4) := by
  unfold spawn
  split
  · exact Nat.le_of_eq (total_work_append worker.queue ⟨job, none⟩)
  · exact Nat.le_add_right _ _

theorem perform_work_lt (worker : Worker) (task : Task) (action : Action) :
    (worker.perform task action).work <
      Envelope.totalWork worker.queue + (action.work + task.work) := by
  cases action with
  | spawn job =>
    have accepted := spawn_work_le worker job
    simp only [perform, work, become, Stage.work, Action.work, Task.work, Frame.work, Frame.learn]
    omega
  | panic payload =>
    simp only [perform, work, become, update_call_queue, Stage.work, Action.work, Task.work,
      Frame.work]
    omega
  | execute job =>
    simp only [perform, work, become, Stage.work, Task.work, Frame.work, Action.work,
      Frame.totalWork]
    omega
  | _ =>
    simp [perform, work, become, write, close, Stage.work, Task.work, Frame.work, Action.work]

theorem step_work_lt {worker after : Worker} (stepped : worker.step? = some after) :
    after.work < worker.work := by
  unfold step? at stepped
  split at stepped
  · next idle =>
    split at stepped
    · cases stepped
    · next envelope queue queued =>
      cases stepped
      simp [work, idle, queued, Stage.work, Task.work, Frame.work, Envelope.work,
        Envelope.totalWork, Frame.totalWork]
      omega
  · next task working =>
    split at stepped
    · next action rest left =>
      cases stepped
      have spent := perform_work_lt worker { task with frame := { task.frame with rest } } action
      simp only [work, working, Stage.work, Task.work, Frame.work, left, Job.work] at spent ⊢
      omega
    · next caller callers left waiting =>
      cases stepped
      simp [work, become, working, Stage.work, Task.work, Frame.work, Frame.hear, left, waiting,
        Job.work, Frame.totalWork]
    · next left waiting =>
      cases stepped
      simp [work, become, finish, update_call_queue, working, Stage.work, Task.work, Frame.work]
  · next ticket message later panicked =>
    cases stepped
    simp [work, become, report_queue, panicked, Stage.work]
  · next later ending =>
    cases stepped
    simp [work, ending, Stage.work]

def settle (worker : Worker) : Worker :=
  match _stepped : worker.step? with
  | none => worker
  | some after => after.settle
termination_by worker.work
decreasing_by exact step_work_lt _stepped

end Worker
end Gherkin
