import Gherkin.Log
import Gherkin.Worker.Job
/-!
The state of a worker. It runs on a thread of its own and takes accepted jobs from a queue, one at
a time. Whoever waits for a job holds a call with two slots, one for the answer and one for the
message of a panic. A job that panics drops the answer's slot; only then is the message sent.
-/
namespace Gherkin

inductive Slot (α : Type)
  | empty
  | sent (content : α)
  /-- Nothing will ever be sent. -/
  | dropped

structure Call where
  reply : Slot Value := .empty
  failure : Slot String := .empty

inductive Outcome
  | returned (value : Value)
  | panicked (message : String)
  /-- The worker accepts no more jobs. -/
  | stopped

def Outcome.message? : Outcome → Option String
  | .returned _ => none
  | .panicked message => some s!"job panicked on the executor thread: {message}"
  | .stopped => some "executor thread has stopped"

-- A caller looks for a message only when it finds the answer's slot dropped.
def Call.outcome? (call : Call) : Option Outcome :=
  match call.reply, call.failure with
  | .sent value, _ => some (.returned value)
  | .empty, _ => none
  | .dropped, .sent message => some (.panicked message)
  | .dropped, .dropped => some .stopped
  | .dropped, .empty => none

structure Envelope where
  job : Job
  ticket : Option Nat

inductive Thread
  | worker
  | other
  deriving DecidableEq

def Thread.isCurrent : Thread → Bool
  | .worker => true
  | .other => false

structure Told where
  inner : Value := .null
  accepted : Bool := false

def Fact.text (name : String) (told : Told) : Fact → String
  | .current => Value.flag Thread.worker.isCurrent
  | .thread => name
  | .inner => (Value.object [("ok", told.inner)]).compact
  | .accepted => Value.flag told.accepted

structure Frame where
  rest : Job
  value : Value := .null
  told : Told := {}

def Frame.hear (frame : Frame) (inner : Value) : Frame :=
  { frame with told := { frame.told with inner } }

def Frame.learn (frame : Frame) (accepted : Bool) : Frame :=
  { frame with told := { frame.told with accepted } }

/-- The job in progress. Jobs done at once are inside one another, and the callers wait for the
innermost. -/
structure Task where
  ticket : Option Nat
  frame : Frame
  callers : List Frame := []
  later : List String := []

inductive Stage
  | idle
  | working (task : Task)
  /-- A panic that nobody has been told yet. -/
  | panicked (ticket : Option Nat) (message : String) (later : List String)
  | ending (later : List String)

inductive WorkerEvent
  | started (name : String)
  | detachedPanic (message : String)
  deriving DecidableEq

def WorkerEvent.record : WorkerEvent → LogRecord
  | .started name => ⟨.debug, s!"started executor thread '{name}'"⟩
  | .detachedPanic message => ⟨.warn, s!"detached job panicked: {message}"⟩

/-- A worker, with the jobs that it has accepted and not begun, the journal that jobs write to, and
all calls so far by number. -/
structure Worker where
  name : String
  accepting : Bool := true
  queue : List Envelope := []
  stage : Stage := .idle
  journal : List String := []
  calls : List Call := []
  events : List WorkerEvent := []

namespace Worker

def defaultName : String := "gherkin-hooks"

def start (name : String) : Worker := { name, events := [.started name] }

def spawn (worker : Worker) (job : Job) : Worker :=
  if worker.accepting then { worker with queue := worker.queue ++ [⟨job, none⟩] } else worker

-- On a closed worker a call has nothing to wait for.
def call (worker : Worker) (job : Job) : Nat × Worker :=
  let ticket := worker.calls.length
  if worker.accepting then
    (ticket,
      { worker with
        queue := worker.queue ++ [⟨job, some ticket⟩]
        calls := worker.calls ++ [{}] })
  else (ticket, { worker with calls := worker.calls ++ [⟨.dropped, .dropped⟩] })

/-- A closed worker goes on with the jobs that it has accepted. -/
def close (worker : Worker) : Worker := { worker with accepting := false }

def outcome? (worker : Worker) (ticket : Nat) : Option Outcome :=
  worker.calls[ticket]?.bind Call.outcome?

end Worker
end Gherkin
