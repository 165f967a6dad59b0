import Gherkin.Proofs.Worker.Turns
/-!
What calls get. A call that the worker has accepted either waits for its one job, which is in the
queue or in progress, or has that job's own outcome in its slots. While it waits it has nothing:
the message of a panic is sent only after the answer's slot was dropped, and until then a caller
who finds that slot dropped goes on waiting. No other job touches the slots, so what other jobs do,
panics included, makes no difference to the call.
-/
namespace Gherkin

/-- The slots of a call whose job has ended. -/
def Outcome.call : Outcome → Call
  | .returned value => ⟨.sent value, .dropped⟩
  | .panicked message => ⟨.dropped, .sent message⟩
  | .stopped => ⟨.dropped, .dropped⟩

/-- The slots of a call whose job has not ended. The answer's slot is dropped as soon as the job
has panicked. -/
def Stage.slots (stage : Stage) (ticket : Nat) : Call :=
  match stage with
  | .panicked panicking _ _ => if panicking = some ticket then { reply := .dropped } else {}
  | _ => {}

theorem Outcome.call_outcome (outcome : Outcome) : outcome.call.outcome? = some outcome := by
  cases outcome <;> rfl

theorem Stage.slots_outcome (stage : Stage) (ticket : Nat) :
    (stage.slots ticket).outcome? = none := by
  cases stage with
  | panicked panicking message later =>
    rw [slots]
    split <;> rfl
  | _ => rfl

theorem Stage.slots_apart {stage : Stage} {ticket : Nat}
    (apart : ∀ verdict, stage.verdict? = some verdict → verdict.ticket ≠ some ticket) :
    stage.slots ticket = {} := by
  cases stage with
  | panicked panicking message later => exact if_neg (apart _ rfl)
  | _ => rfl

namespace Worker
variable {worker after : Worker} {ticket : Nat} {outcome : Outcome}

/-- How the jobs will end that have not ended, in the order of their turns. -/
def pending (worker : Worker) : List Verdict :=
  worker.stage.verdict?.toList ++ worker.queue.map Envelope.verdict

/-- How the jobs will end that a call waits for. -/
def awaited (worker : Worker) (ticket : Nat) : List Verdict :=
  worker.pending.filter (·.ticket = some ticket)

/-- How a call stands whose job has an outcome. -/
inductive Standing (worker : Worker) (ticket : Nat) (outcome : Outcome) : Prop
  | waiting (job : worker.awaited ticket = [⟨some ticket, outcome⟩])
    (slots : worker.calls[ticket]? = some (worker.stage.slots ticket))
  | answered (job : worker.awaited ticket = [])
    (slots : worker.calls[ticket]? = some outcome.call)

theorem Conserves.pending {deeds : List Deed} (conserves : Conserves worker deeds after) :
    worker.pending ++ (deeds.filterMap Deed.accepted?).map Envelope.verdict =
      deeds.filterMap Deed.ended? ++ after.pending := by
  rw [Worker.pending, List.append_assoc, ← List.map_append, conserves.queue, List.map_append,
    ← List.append_assoc, conserves.progress, List.append_assoc]
  rfl

theorem update_call_at (worker : Worker) (updated : Option Nat) (change : Call → Call)
    (ticket : Nat) :
    (worker.updateCall updated change).calls[ticket]? =
      if updated = some ticket then worker.calls[ticket]?.map change
      else worker.calls[ticket]? := by
  cases updated with
  | none => rfl
  | some number =>
    by_cases same : number = ticket
    · simp [updateCall, same]
    · simp [updateCall, same]

theorem report_at (worker : Worker) (reported : Option Nat) (message : String) (ticket : Nat) :
    (worker.report reported message).calls[ticket]? =
      if reported = some ticket then
        worker.calls[ticket]?.map fun call => { call with failure := .sent message }
      else worker.calls[ticket]? := by
  cases reported with
  | none => rfl
  | some number => exact update_call_at worker (some number) _ ticket

theorem mem_acceptance {envelope accepted : Envelope}
    (member : accepted ∈ (worker.acceptance? envelope).toList.filterMap Deed.accepted?) :
    accepted = envelope := by
  rw [acceptance?] at member
  split at member
  · exact List.mem_singleton.mp member
  · cases member

-- Only a call from outside is accepted under a number, and the number is new.
theorem accepted_ticket {move : WorkerMove} {envelope : Envelope}
    (member : envelope ∈ (worker.deed? move).toList.filterMap Deed.accepted?) :
    envelope.ticket = none ∨
      envelope.ticket = some worker.calls.length ∧
        (worker.move move).calls.length = worker.calls.length + 1 := by
  cases move with
  | spawn job =>
    cases mem_acceptance member
    exact Or.inl rfl
  | call job =>
    cases mem_acceptance member
    refine Or.inr ⟨rfl, ?_⟩
    rw [Worker.move, call_eq]
    exact List.length_append
  | step =>
    left
    rw [deed?, stepDeed?] at member
    split at member
    · cases queued : worker.queue <;> rw [queued] at member <;> cases member
    · split at member
      · next action _ _ =>
        cases action with
        | spawn job =>
          cases mem_acceptance member
          rfl
        | _ => cases member
      · cases member
      · cases member
    · cases member
    · cases member
  | close => cases member

theorem awaited_move (known : ticket < worker.calls.length) (move : WorkerMove) :
    worker.awaited ticket =
      ((worker.deed? move).toList.filterMap Deed.ended?).filter (·.ticket = some ticket) ++
        (worker.move move).awaited ticket := by
  have none : (((worker.deed? move).toList.filterMap Deed.accepted?).map Envelope.verdict).filter
      (·.ticket = some ticket) = [] := by
    rw [List.filter_eq_nil_iff]
    intro verdict member same
    obtain ⟨envelope, accepted, rfl⟩ := List.mem_map.mp member
    have here : envelope.ticket = some ticket := of_decide_eq_true same
    rcases accepted_ticket accepted with detached | ⟨new, _⟩
    · cases detached.symm.trans here
    · cases new.symm.trans here
      exact Nat.lt_irrefl _ known
  have whole := congrArg (List.filter (·.ticket = some ticket)) (conserves_move worker move).pending
  rwa [List.filter_append, List.filter_append, none, List.append_nil] at whole

theorem Standing.kept (standing : worker.Standing ticket outcome)
    (job : after.awaited ticket = worker.awaited ticket)
    (slots : after.stage.slots ticket = worker.stage.slots ticket)
    (calls : after.calls[ticket]? = worker.calls[ticket]?) : after.Standing ticket outcome := by
  cases standing with
  | waiting awaits holds => exact .waiting (job.trans awaits) (by rw [calls, slots, holds])
  | answered awaits holds => exact .answered (job.trans awaits) (calls.trans holds)

theorem Standing.known (standing : worker.Standing ticket outcome) :
    ticket < worker.calls.length := by
  cases standing with
  | waiting _ slots => exact (List.getElem?_eq_some_iff.mp slots).1
  | answered _ slots => exact (List.getElem?_eq_some_iff.mp slots).1

theorem Standing.waits (standing : worker.Standing ticket outcome) {verdict : Verdict}
    (progress : worker.stage.verdict? = some verdict) (own : verdict.ticket = some ticket) :
    worker.awaited ticket = [⟨some ticket, outcome⟩] ∧
      worker.calls[ticket]? = some (worker.stage.slots ticket) := by
  cases standing with
  | waiting one slots => exact ⟨one, slots⟩
  | answered none _ =>
    rw [awaited, pending, progress, List.filter_eq_nil_iff] at none
    exact absurd (decide_eq_true own) (none verdict List.mem_cons_self)

-- The job that ends is the one that the call waits for, or another one and no concern of it.
theorem Standing.ended {verdict : Verdict} (standing : worker.Standing ticket outcome)
    (progress : worker.stage.verdict? = some verdict)
    (job : worker.awaited ticket =
      [verdict].filter (·.ticket = some ticket) ++ after.awaited ticket)
    (rests : after.stage.slots ticket = {})
    (own : worker.calls[ticket]? = some (worker.stage.slots ticket) →
      verdict.ticket = some ticket → after.calls[ticket]? = some verdict.outcome.call)
    (other : verdict.ticket ≠ some ticket → after.calls[ticket]? = worker.calls[ticket]?) :
    after.Standing ticket outcome := by
  by_cases mine : verdict.ticket = some ticket
  · obtain ⟨one, slots⟩ := standing.waits progress mine
    simp only [one, List.filter_cons, mine, decide_true, if_true] at job
    obtain ⟨same, rest⟩ := List.cons.inj job
    have given := own slots mine
    rw [← same] at given
    exact .answered rest.symm given
  · have apart : ∀ verdict, worker.stage.verdict? = some verdict →
        verdict.ticket ≠ some ticket := by
      intro inProgress here
      cases progress.symm.trans here
      exact mine
    simp only [List.filter_cons, mine, decide_false, Bool.false_eq_true, if_false] at job
    exact standing.kept job.symm (rests.trans (Stage.slots_apart apart).symm) (other mine)

theorem standing_perform {task : Task} {action : Action} {rest : Job}
    (standing : worker.Standing ticket outcome) (working : worker.stage = .working task)
    (job : (worker.perform { task with frame := { task.frame with rest } } action).awaited ticket =
      worker.awaited ticket) :
    (worker.perform { task with frame := { task.frame with rest } } action).Standing
      ticket outcome := by
  have untouched : worker.stage.slots ticket = {} := by rw [working]; rfl
  cases action with
  | spawn spawned =>
    exact standing.kept job untouched.symm (congrArg (·.calls[ticket]?) (spawn_eq worker spawned))
  | panic payload =>
    have calls := update_call_at worker task.ticket (fun call => { call with reply := .dropped })
      ticket
    by_cases own : task.ticket = some ticket
    · have progress : worker.stage.verdict? = some ⟨task.ticket, task.outcome⟩ := by
        rw [working]; rfl
      obtain ⟨one, slots⟩ := standing.waits progress own
      rw [if_pos own, slots, untouched] at calls
      exact .waiting (job.trans one) (calls.trans (congrArg some (if_pos own).symm))
    · exact standing.kept job ((if_neg own).trans untouched.symm) (calls.trans (if_neg own))
  | _ => exact standing.kept job untouched.symm rfl

theorem acceptance_ends (worker : Worker) (envelope : Envelope) :
    (worker.acceptance? envelope).toList.filterMap Deed.ended? = [] := by
  rw [acceptance?]
  split <;> rfl

theorem action_deed_ends (worker : Worker) (action : Action) :
    (worker.actionDeed? action).toList.filterMap Deed.ended? = [] := by
  cases action with
  | spawn job => exact acceptance_ends worker _
  | _ => rfl

theorem standing_step (standing : worker.Standing ticket outcome)
    (steps : worker.Steps after)
    (job : worker.awaited ticket =
      (worker.stepDeed?.toList.filterMap Deed.ended?).filter (·.ticket = some ticket) ++
        after.awaited ticket) :
    after.Standing ticket outcome := by
  cases steps with
  | begins idle queued =>
    rw [stepDeed?, idle, queued] at job
    exact standing.kept job.symm (by rw [idle]; rfl) rfl
  | acts working left =>
    simp only [stepDeed?, working, left, action_deed_ends] at job
    exact standing_perform standing working job.symm
  | resumes working left waiting =>
    simp only [stepDeed?, working, left, waiting] at job
    exact standing.kept job.symm (by rw [working]; rfl) rfl
  | @finishes task working left alone =>
    simp only [stepDeed?, working, left, alone] at job
    have progress : worker.stage.verdict? =
        some ⟨task.ticket, .returned task.frame.value⟩ := by
      rw [working, Stage.verdict?, Task.outcome, alone, Frame.outcome, left]
      rfl
    have untouched : worker.stage.slots ticket = {} := by rw [working]; rfl
    have calls := update_call_at worker task.ticket
      (fun _ => ⟨.sent task.frame.value, .dropped⟩) ticket
    refine standing.ended progress job rfl (fun slots own => ?_)
      (fun other => calls.trans (if_neg other))
    rw [if_pos own, slots] at calls
    exact calls
  | @tells panicking message later panicked =>
    rw [stepDeed?, panicked] at job
    have progress : worker.stage.verdict? = some ⟨panicking, .panicked message⟩ := by
      rw [panicked]
      rfl
    have calls := report_at worker panicking message ticket
    refine standing.ended progress job rfl (fun slots own => ?_)
      (fun other => calls.trans (if_neg other))
    have dropped : worker.stage.slots ticket = { reply := .dropped } := by
      rw [panicked]
      exact if_pos own
    rw [if_pos own, slots, dropped] at calls
    exact calls
  | rests ending =>
    rw [stepDeed?, ending] at job
    exact standing.kept job.symm (by rw [ending]; rfl) rfl

theorem standing_move (standing : worker.Standing ticket outcome) (move : WorkerMove) :
    (worker.move move).Standing ticket outcome := by
  have job := awaited_move standing.known move
  cases move with
  | spawn spawned =>
    rw [deed?, acceptance_ends] at job
    rw [Worker.move, spawn_eq] at job ⊢
    exact standing.kept job.symm rfl rfl
  | call called =>
    rw [deed?, acceptance_ends] at job
    rw [Worker.move, call_eq] at job ⊢
    exact standing.kept job.symm rfl (List.getElem?_append_left standing.known)
  | step =>
    rw [Worker.move] at job ⊢
    cases stepped : worker.step? with
    | none => exact standing
    | some after =>
      rw [stepped] at job
      exact standing_step standing (steps_of_step stepped) job
  | close => exact standing.kept rfl rfl rfl

theorem standing_run (standing : worker.Standing ticket outcome) (moves : List WorkerMove) :
    (worker.run moves).worker.Standing ticket outcome := by
  induction moves generalizing worker with
  | nil => exact standing
  | cons move rest ih => exact ih (standing_move standing move)

/-- Whether each job that has not ended and has a number is waited for by a call. -/
def Numbered (worker : Worker) : Prop :=
  ∀ verdict ∈ worker.pending, ∀ number, verdict.ticket = some number →
    number < worker.calls.length

theorem update_call_length (worker : Worker) (updated : Option Nat) (change : Call → Call) :
    (worker.updateCall updated change).calls.length = worker.calls.length := by
  cases updated with
  | none => rfl
  | some number => exact List.length_modify _ _ _

theorem perform_calls_length (worker : Worker) (task : Task) (action : Action) :
    (worker.perform task action).calls.length = worker.calls.length := by
  cases action with
  | spawn job => exact congrArg (·.calls.length) (spawn_eq worker job)
  | panic payload => exact update_call_length worker _ _
  | _ => rfl

theorem step_calls_length (steps : worker.Steps after) :
    after.calls.length = worker.calls.length := by
  cases steps with
  | begins => rfl
  | acts => exact perform_calls_length worker _ _
  | resumes => rfl
  | finishes => exact update_call_length worker _ _
  | @tells panicking =>
    cases panicking with
    | none => rfl
    | some number => exact update_call_length worker _ _
  | rests => rfl

theorem calls_length_le (worker : Worker) (move : WorkerMove) :
    worker.calls.length ≤ (worker.move move).calls.length := by
  cases move with
  | spawn job => exact Nat.le_of_eq (congrArg (·.calls.length) (spawn_eq worker job)).symm
  | call job =>
    rw [Worker.move, call_eq]
    simp
  | step =>
    rw [Worker.move]
    cases stepped : worker.step? with
    | none => exact Nat.le_refl _
    | some after => exact Nat.le_of_eq (step_calls_length (steps_of_step stepped)).symm
  | close => exact Nat.le_refl _

theorem numbered_move (numbered : worker.Numbered) (move : WorkerMove) :
    (worker.move move).Numbered := by
  intro verdict member number ticket
  have whole := (conserves_move worker move).pending
  have among := List.mem_append_right
    ((worker.deed? move).toList.filterMap Deed.ended?) member
  rw [← whole] at among
  rcases List.mem_append.mp among with before | new
  · exact Nat.lt_of_lt_of_le (numbered verdict before number ticket) (calls_length_le worker move)
  · obtain ⟨envelope, accepted, rfl⟩ := List.mem_map.mp new
    rcases accepted_ticket accepted with detached | ⟨fresh, longer⟩
    · cases detached.symm.trans ticket
    · cases fresh.symm.trans ticket
      omega

theorem numbered_run (numbered : worker.Numbered) (moves : List WorkerMove) :
    (worker.run moves).worker.Numbered := by
  induction moves generalizing worker with
  | nil => exact numbered
  | cons move rest ih => exact ih (numbered_move numbered move)

-- The number of a new call is no job's so far, so the call waits for its own job alone.
theorem standing_call (numbered : worker.Numbered) (live : worker.accepting = true) (job : Job) :
    (worker.call job).2.Standing worker.calls.length (Job.outcome job) := by
  have apart : ∀ verdict ∈ worker.pending, verdict.ticket ≠ some worker.calls.length :=
    fun verdict member own => Nat.lt_irrefl _ (numbered verdict member _ own)
  have untouched : worker.stage.slots worker.calls.length = {} := by
    apply Stage.slots_apart
    intro verdict progress
    apply apart verdict
    rw [pending, progress]
    exact List.mem_cons_self
  have pends : (worker.call job).2.pending =
      worker.pending ++ [⟨some worker.calls.length, Job.outcome job⟩] := by
    rw [pending, pending, call_eq, live]
    simp [Envelope.verdict]
  apply Standing.waiting
  · have none : worker.pending.filter (·.ticket = some worker.calls.length) = [] := by
      rw [List.filter_eq_nil_iff]
      exact fun verdict member own => apart verdict member (of_decide_eq_true own)
    rw [awaited, pends, List.filter_append, none]
    simp
  · rw [call_eq, live]
    exact List.getElem?_concat_length.trans (congrArg some untouched.symm)

theorem outcome_of_standing (standing : worker.Standing ticket outcome) {given : Outcome}
    (returned : worker.outcome? ticket = some given) : given = outcome := by
  rw [outcome?] at returned
  cases standing with
  | waiting _ slots =>
    rw [slots, Option.bind_some, Stage.slots_outcome] at returned
    cases returned
  | answered _ slots =>
    rw [slots, Option.bind_some, Outcome.call_outcome] at returned
    exact (Option.some.inj returned).symm

-- At rest no job is left to wait for.
theorem outcome_of_rest (standing : worker.Standing ticket outcome)
    (rests : worker.step? = none) : worker.outcome? ticket = some outcome := by
  cases standing with
  | waiting one _ =>
    obtain ⟨idle, queued⟩ := idle_of_rest rests
    rw [awaited, pending, idle, queued] at one
    cases one
  | answered _ slots => rw [outcome?, slots, Option.bind_some, Outcome.call_outcome]

theorem call_ticket (worker : Worker) (job : Job) :
    (worker.call job).1 = worker.calls.length := by
  rw [call_eq]

/-- The outcome of a call, if it has returned, when some moves have come before it and others have
followed. -/
def outcomeAmid? (name : String) (earlier : List WorkerMove) (job : Job)
    (later : List WorkerMove) : Option Outcome :=
  let called := ((start name).run earlier).worker.call job
  (called.2.run later).worker.outcome? called.1

theorem standing_amid (name : String) {earlier : List WorkerMove}
    (live : ((start name).run earlier).worker.accepting = true) (job : Job)
    (later : List WorkerMove) :
    let called := ((start name).run earlier).worker.call job
    (called.2.run later).worker.Standing called.1 (Job.outcome job) := by
  have fresh : (start name).Numbered := fun verdict member => nomatch member
  have standing := standing_call (numbered_run fresh earlier) live job
  rw [← call_ticket _ job] at standing
  exact standing_run standing later

end Worker

theorem call_delivers (name : String) (earlier : List WorkerMove) (job : Job)
    (later : List WorkerMove)
    (live : ((Worker.start name).run earlier).worker.accepting = true) :
    (∀ outcome, Worker.outcomeAmid? name earlier job later = some outcome →
      (∀ value, outcome = .returned value ↔
        Job.panic? job = none ∧ Job.answered .null job = value) ∧
      (∀ message, outcome = .panicked message ↔ Job.panic? job = some message) ∧
      outcome ≠ .stopped) ∧
    (∀ otherName otherEarlier otherLater,
      ((Worker.start otherName).run otherEarlier).worker.accepting = true →
      ∀ outcome other, Worker.outcomeAmid? name earlier job later = some outcome →
        Worker.outcomeAmid? otherName otherEarlier job otherLater = some other →
        outcome = other) ∧
    (((((Worker.start name).run earlier).worker.call job).2.run later).worker.step? = none →
      Worker.outcomeAmid? name earlier job later = some (Job.outcome job)) := by
  have standing := Worker.standing_amid name live job later
  refine ⟨?_, ?_, fun rests => Worker.outcome_of_rest standing rests⟩
  · intro outcome returned
    cases Worker.outcome_of_standing standing returned
    rw [Job.outcome, Job.outcomeFrom]
    cases panics : Job.panic? job with
    | none => simp
    | some message => simp
  · intro otherName otherEarlier otherLater otherLive outcome other returned otherReturned
    have otherStanding := Worker.standing_amid otherName otherLive job otherLater
    exact (Worker.outcome_of_standing standing returned).trans
      (Worker.outcome_of_standing otherStanding otherReturned).symm

theorem call_delivers_nested_panic :
    let earlier : List WorkerMove := [.spawn [.panic .other], .call [.answer (.int 1)], .step]
    let job : Job := [.answer (.int 2), .execute [.note "a", .panic (.text "boom")], .note "b"]
    let later : List WorkerMove := .call [.panic (.text "bang")] :: List.replicate 14 .step
    ((Worker.start "worker").run earlier).worker.accepting = true ∧
    Worker.outcomeAmid? "worker" earlier job (later.take 12) = none ∧
    Worker.outcomeAmid? "worker" earlier job later = some (.panicked "boom") ∧
    Job.panic? job = some "boom" := by
  intro earlier job later
  have returned : Worker.outcomeAmid? "worker" earlier job later = some (.panicked "boom") := by
    rfl
  obtain ⟨delivered, _⟩ := call_delivers "worker" earlier job later rfl
  exact ⟨rfl, rfl, returned, ((delivered _ returned).2.1 "boom").mp rfl⟩

end Gherkin
