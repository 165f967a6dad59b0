import Gherkin.Worker.Step
/-!
How a job ends, told from the job alone: by the first panic in it, also one in a job that it does at
once, or else by the last answer that it gives itself. A worker in the middle of a job, with
whatever has been done of it and whatever waits for the rest, is on the way to the same end, and no
action of the job changes that.
-/
namespace Gherkin

mutual

def Action.panic? : Action → Option String
  | .panic payload => some payload.message
  | .execute job => Job.panic? job
  | _ => none

/-- The message of the first panic in a job, if there is one. -/
def Job.panic? : List Action → Option String
  | [] => none
  | action :: rest =>
    match action.panic? with
    | some message => some message
    | none => Job.panic? rest

end

def Action.answered (value : Value) : Action → Value
  | .answer given => given
  | _ => value

def Job.answered (value : Value) : List Action → Value
  | [] => value
  | action :: rest => Job.answered (action.answered value) rest

def Job.outcomeFrom (value : Value) (rest : Job) : Outcome :=
  match Job.panic? rest with
  | some message => .panicked message
  | none => .returned (Job.answered value rest)

def Job.outcome (job : Job) : Outcome := Job.outcomeFrom .null job

/-- What comes of a job done at once and of those that wait for it: a panic is one of them all, and
without one the answer of the outermost counts. -/
def Frame.outcome (frame : Frame) : List Frame → Outcome
  | [] => Job.outcomeFrom frame.value frame.rest
  | caller :: callers =>
    match Job.panic? frame.rest with
    | some message => .panicked message
    | none => caller.outcome callers

def Task.outcome (task : Task) : Outcome := task.frame.outcome task.callers

/-- How a job ends, with the number of the call that waits for it, if one does. -/
structure Verdict where
  ticket : Option Nat
  outcome : Outcome

def Envelope.verdict (envelope : Envelope) : Verdict := ⟨envelope.ticket, Job.outcome envelope.job⟩

def Stage.verdict? : Stage → Option Verdict
  | .idle => none
  | .working task => some ⟨task.ticket, task.outcome⟩
  | .panicked ticket message _ => some ⟨ticket, .panicked message⟩
  | .ending _ => none

-- What a job is told makes no difference to its end.

theorem Frame.outcome_hear (frame : Frame) (inner : Value) (callers : List Frame) :
    (frame.hear inner).outcome callers = frame.outcome callers := by
  cases callers <;> rfl

theorem Frame.outcome_learn (frame : Frame) (accepted : Bool) (callers : List Frame) :
    (frame.learn accepted).outcome callers = frame.outcome callers := by
  cases callers <;> rfl

theorem Frame.outcome_cons (value : Value) (told : Told) (action : Action) (rest : Job)
    (callers : List Frame) :
    (Frame.mk (action :: rest) value told).outcome callers =
      match action.panic? with
      | some message => .panicked message
      | none => (Frame.mk rest (action.answered value) told).outcome callers := by
  cases callers <;> cases panics : action.panic? <;>
    simp [Frame.outcome, Job.outcomeFrom, Job.panic?, Job.answered, panics]

theorem Frame.outcome_execute (value : Value) (told : Told) (job rest : Job)
    (callers : List Frame) :
    (Frame.mk (.execute job :: rest) value told).outcome callers =
      (Frame.mk job .null {}).outcome (⟨rest, value, told⟩ :: callers) := by
  rw [Frame.outcome_cons]
  rfl

namespace Worker

-- An action does its part of the job, and what is left ends the same way.
theorem perform_verdict (worker : Worker) (task : Task) (action : Action) :
    (worker.perform task action).stage.verdict? =
      some ⟨task.ticket,
        (Frame.mk (action :: task.frame.rest) task.frame.value task.frame.told).outcome
          task.callers⟩ := by
  cases action with
  | execute job =>
    rw [Frame.outcome_execute]
    rfl
  | spawn job =>
    rw [Frame.outcome_cons]
    exact congrArg (fun outcome => some (Verdict.mk task.ticket outcome))
      (Frame.outcome_learn task.frame worker.accepting task.callers)
  | _ =>
    rw [Frame.outcome_cons]
    rfl

end Worker
end Gherkin
