import Gherkin.Worker.Value
/-!
Jobs for a worker. A job is a list of actions that the worker does in order. It writes to a
journal, gives an answer, does another job at once as a part of itself, hands jobs to the worker or
panics. The last answer given counts, and giving it does not end the job.
-/
namespace Gherkin

inductive Payload
  | text (message : String)
  | other
  deriving DecidableEq

def Payload.message : Payload → String
  | .text message => message
  | .other => "non-string panic payload"

/-- What a job can find out and write down: `inner` is the answer of the job that it last did at
once, and `accepted` whether the worker took the one that it last spawned. -/
inductive Fact
  | current
  | thread
  | inner
  | accepted

inductive Action
  | note (text : String)
  | noteFact (label : String) (fact : Fact)
  | answer (value : Value)
  | panic (payload : Payload)
  /-- Leaves a text to be written when the whole job has ended, also by a panic. -/
  | later (text : String)
  | execute (job : List Action)
  | spawn (job : List Action)
  | close

abbrev Job := List Action

mutual

def Action.work : Action → Nat
  | .execute job => Job.work job + 2
  | .spawn job => Job.work job + 5
  | _ => 1

def Job.work : List Action → Nat
  | [] => 0
  | action :: rest => action.work + Job.work rest

end

end Gherkin
