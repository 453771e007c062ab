import Chronos.Library.Bookkeeping
import Chronos.LostCancellation

namespace Chronos.SlotAccounting

open Chronos.ApiServer
open Chronos.Domain
open Chronos.Library.Bookkeeping
open Chronos.Library.CallProgram
open Chronos.Library.Interleaving
open Chronos.LostCancellation (cancelJob_calls)
open Chronos.Operations
open Chronos.SchedulerCalls
open Chronos.SchedulerService
open Chronos.SharedState

/-- The service with any number of consumers, over a store, a queue and a network that may
all fail. -/
def consumers (cron : Cron) (cfg : SchedulerConfig) :
    System Call Answer World Draw Task Outcome where
  machine := failing
  body := Task.body cron cfg
  start := fun p task => startTask ⟨p.state, []⟩ task
  finish := finishTask

instance (cron : Cron) (cfg : SchedulerConfig) (w : World) (c : Call) (d : Draw) :
    Decidable ((consumers cron cfg).machine.Allowed w c d) :=
  inferInstanceAs (Decidable (failing.Allowed w c d))

/-- Every step of the service is one of a service with any number of consumers. -/
theorem consumers_step {cron : Cron} {cfg : SchedulerConfig} {p q : TaskPool} {label : TaskLabel}
    (hstep : (service cron cfg).Step p label q) : (consumers cron cfg).Step p label q := by
  cases hstep with
  | @start _ task w hstart =>
      refine .start ?_
      cases task with
      | handleQueuedJob job =>
          simp only [service, startTask, Option.ite_none_left_eq_some] at hstart
          simpa only [consumers, startTask, List.any_nil, Bool.false_eq_true, if_false]
            using hstart.2
      | _ => exact hstart
  | advance hallowed => exact .advance hallowed.1
  | finish d => exact .finish d

/-- What an operation has still to do about the slots of the workers: a handler goes from
reading its job to counting the execution that a worker has accepted, a report or a pass of
the watchdog has outcomes to handle. -/
inductive Duty
  | idle
  | found (jobID : String)
  | picked (jobID : String) (wc : WorkerConn)
  | holding (jobID : String) (wc : WorkerConn) (executionID : String)
  | counting (jobID : String) (wc : WorkerConn) (executionID : String)
  | handling (executionIDs : List String)

def startDuty : Task → Duty
  | .handleResult _ executionID _ _ _ => .handling [executionID]
  | _ => .idle

def Duty.after (duty : Duty) (c : Call) (answer : Answer c) : Duty :=
  match duty with
  | .idle =>
      match c, answer with
      | .getJob jobID, .ok _ => .found jobID
      | .listTimedOutRunning _ _, .ok jobs => .handling (jobs.map Job.executionID)
      | _, _ => .idle
  | .found jobID =>
      match c, answer with
      | .pickWorker, some wc => .picked jobID wc
      | _, _ => .found jobID
  | .picked jobID wc =>
      match c, answer with
      | .newUUID, executionID => .holding jobID wc executionID
      | _, _ => .picked jobID wc
  | .holding jobID wc executionID =>
      match c, answer with
      | .executeJob _ _, reply =>
          if (pushOutcome reply).isOk then .counting jobID wc executionID else .idle
      | _, _ => .holding jobID wc executionID
  | .counting jobID wc executionID =>
      match c, answer with
      -- the handler returns the error, and the execution is never counted
      | .updateJobStateIf _ _ _ _, .error _ => .idle
      | .incActiveJobs _, _ => .idle
      | _, _ => .counting jobID wc executionID
  | .handling executionIDs =>
      match c, answer with
      | .decActiveJobs _, _ => .handling executionIDs.tail
      | _, _ => .handling executionIDs

/-- The executions that the workers have accepted, and those with an outcome that
`HandleResult` was called with, each with its worker. -/
structure Books where
  accepted : Finset (String × String)
  handled : Finset (String × String)

def Books.new : Books := ⟨∅, ∅⟩

def Books.acceptedBy (books : Books) (workerID : String) : Finset (String × String) :=
  books.accepted.filter fun execution => execution.1 = workerID

def Books.handledFor (books : Books) (workerID : String) : Finset (String × String) :=
  books.handled.filter fun execution => execution.1 = workerID

def Duty.record (duty : Duty) (c : Call) (answer : Answer c) (books : Books) : Books :=
  match c, answer with
  | .executeJob workerID request, reply =>
      if (pushOutcome reply).isOk then
        { books with accepted := insert (workerID, request.executionID) books.accepted }
      else books
  | .decActiveJobs workerID, _ =>
      match duty with
      | .handling (executionID :: _) =>
          { books with handled := insert (workerID, executionID) books.handled }
      | _ => books
  | _, _ => books

def ledger : Ledger Call Answer Task Duty Books where
  duty := startDuty
  after := Duty.after
  record := Duty.record

def touchesSlots : Call → Bool
  | .incActiveJobs _ | .decActiveJobs _ | .executeJob _ _ | .deleteWorker _ => true
  | _ => false

def Duty.Admits (duty : Duty) (c : Call) : Prop :=
  match duty, c with
  | .holding _ wc executionID, .executeJob workerID request =>
      workerID = wc.info.id ∧ request.executionID = executionID
  | .counting jobID _ _, .updateJobStateIf id _ _ onlyFrom => id = jobID ∧ onlyFrom = []
  | .counting _ _ _, .emit _ => True
  | .counting _ wc _, .incActiveJobs wc' => wc' = wc
  | .counting _ _ _, _ => False
  | .handling executionIDs, .decActiveJobs _ => executionIDs ≠ []
  | _, c => touchesSlots c = false

/-- The operation has not left an accepted execution uncounted. -/
def Duty.Done : Duty → Prop
  | .counting _ _ _ => False
  | _ => True

abbrev Disciplined {α : Type} (p : Prog α) (duty : Duty) : Prop :=
  p.Follows (ledger.protocol Duty.Admits) (fun reached _ => reached.Done) duty

section Bodies

variable {α : Type} {duty : Duty} {c : Call}

theorem admits_of_untouched (hduty : duty.Done) (hc : touchesSlots c = false) :
    duty.Admits c := by
  cases duty with
  | counting jobID wc executionID => exact hduty.elim
  | holding jobID wc executionID =>
      cases c with
      | executeJob workerID request => cases hc
      | _ => exact hc
  | handling executionIDs =>
      cases c with
      | decActiveJobs workerID => cases hc
      | _ => exact hc
  | _ => exact hc

theorem done_after (hduty : duty.Done) (hc : touchesSlots c = false) (answer : Answer c) :
    (duty.after c answer).Done := by
  cases duty with
  | counting jobID wc executionID => exact hduty.elim
  | idle =>
      simp only [Duty.after]
      split <;> trivial
  | found jobID =>
      simp only [Duty.after]
      split <;> trivial
  | picked jobID wc =>
      simp only [Duty.after]
      split <;> trivial
  | holding jobID wc executionID =>
      cases c with
      | executeJob workerID request => cases hc
      | _ => trivial
  | handling executionIDs =>
      simp only [Duty.after]
      split <;> trivial

def Untouched (p : Prog α) : Prop := p.CallsOnly fun c => touchesSlots c = false

theorem disciplined_of_untouched {p : Prog α} (hp : Untouched p) (hduty : duty.Done) :
    Disciplined p duty := by
  induction p generalizing duty with
  | ret value => exact hduty
  | call c next ih =>
      refine ⟨admits_of_untouched hduty hp.1, fun answer => ?_⟩
      exact ih answer (hp.2 answer) (done_after hduty hp.1 answer)

theorem pushJob_disciplined (job : QueuedJob) (wc : WorkerConn) (executionID : String)
    (now : Time) :
    Disciplined (pushJob job wc executionID now) (.holding job.jobID wc executionID) := by
  refine (follows_perform ..).mpr ⟨⟨rfl, rfl⟩, fun reply => ?_⟩
  simp only [Ledger.protocol, ledger, Duty.after]
  cases hreply : pushOutcome reply with
  | error e => trivial
  | ok _ =>
      refine (follows_perform ..).mpr ⟨⟨rfl, rfl⟩, fun marked => ?_⟩
      cases marked with
      | error e => trivial
      | ok _ => exact ⟨trivial, fun _ => ⟨rfl, fun _ => trivial⟩⟩

theorem handleQueuedJob_disciplined (job : QueuedJob) :
    Disciplined (handleQueuedJob job) .idle := by
  refine (follows_perform ..).mpr ⟨rfl, fun found => ?_⟩
  cases found with
  | error e => trivial
  | ok existing =>
      dsimp only
      split
      · refine (follows_perform ..).mpr ⟨rfl, fun picked => ?_⟩
        cases picked with
        | none => trivial
        | some wc =>
            refine (follows_perform ..).mpr ⟨rfl, fun executionID => ?_⟩
            refine (follows_perform ..).mpr ⟨rfl, fun created => ?_⟩
            cases created with
            | error e => trivial
            | ok _ =>
                refine (follows_perform ..).mpr ⟨rfl, fun now => ?_⟩
                refine (follows_perform ..).mpr ⟨rfl, fun assigned => ?_⟩
                cases assigned with
                | error e => trivial
                | ok _ =>
                    refine (follows_perform ..).mpr ⟨rfl, fun _ => ?_⟩
                    exact pushJob_disciplined
                      { job with attempt := job.attempt + 1, executionID := executionID }
                      wc executionID now
      · trivial

theorem untouched_perform {f : Answer c → Prog α} (hc : touchesSlots c = false)
    (hf : ∀ answer, Untouched (f answer)) : Untouched (ask c >>= f) :=
  (callsOnly_perform ..).mpr ⟨hc, hf⟩

theorem settleResult_untouched (cron : Cron) (job : Job) (jobID executionID workerID : String)
    (attempt : Int) (result : ExecutionResult) (now : Time) :
    Untouched (settleResult cron job jobID executionID workerID attempt result now) := by
  refine callsOnly_mono (settleResult_settles cron job jobID executionID workerID attempt result
    now) fun c hc => ?_
  cases c <;> first | rfl | exact hc.elim

theorem handling_of_untouched {p : Prog α} (hp : Untouched p) (executionIDs : List String) :
    p.Follows (ledger.protocol Duty.Admits) (fun reached _ => reached = .handling executionIDs)
      (.handling executionIDs) := by
  refine follows_of_callsOnly hp (fun c hc => ⟨admits_of_untouched trivial hc, ?_⟩) fun _ => rfl
  intro answer
  cases c with
  | decActiveJobs workerID => cases hc
  | _ => rfl

/-- `HandleResult` touches no slot after its decrement. -/
theorem handleResult_untouched (cron : Cron) (jobID executionID workerID : String) (attempt : Int)
    (result : ExecutionResult) :
    ∃ rest : Prog (Except Err Unit),
      handleResult cron jobID executionID workerID attempt result =
        (ask (.decActiveJobs workerID) >>= fun _ => rest) ∧ Untouched rest := by
  refine ⟨_, rfl, ?_⟩
  refine untouched_perform rfl fun _ => ?_
  refine untouched_perform rfl fun found => ?_
  cases found with
  | error e => trivial
  | ok job =>
      dsimp only
      split
      · trivial
      · refine untouched_perform rfl fun now => ?_
        exact callsOnly_bind (settleResult_untouched cron job jobID executionID workerID attempt
          (withReason result) now) fun _ => trivial

/-- A call of `HandleResult` handles one outcome. -/
theorem handleResult_handles (cron : Cron) (jobID executionID workerID : String) (attempt : Int)
    (result : ExecutionResult) (first : String) (rest : List String) :
    (handleResult cron jobID executionID workerID attempt result).Follows
      (ledger.protocol Duty.Admits) (fun reached _ => reached = .handling rest)
      (.handling (first :: rest)) := by
  obtain ⟨remainder, heq, huntouched⟩ :=
    handleResult_untouched cron jobID executionID workerID attempt result
  rw [heq]
  refine (follows_perform ..).mpr ⟨List.cons_ne_nil first rest, fun _ => ?_⟩
  exact handling_of_untouched huntouched rest

theorem stopExecution_untouched (job : Job) : Untouched (stopExecution job) := by
  refine callsOnly_mono (stopExecution_calls job) fun c hc => ?_
  cases c <;> first | rfl | exact hc.elim

theorem watchdogTimeout_handles (cron : Cron) (job : Job) (first : String) (rest : List String) :
    (watchdogTimeout cron job).Follows (ledger.protocol Duty.Admits)
      (fun reached _ => reached = .handling rest) (.handling (first :: rest)) := by
  refine follows_bind (handling_of_untouched (stopExecution_untouched job) (first :: rest)) ?_
  rintro _ _ rfl
  exact follows_bind (handleResult_handles cron job.id job.executionID job.workerID job.attempt
    (watchdogResult job) first rest) fun _ _ hreached => hreached

theorem watchdogTimeouts_disciplined (cron : Cron) (cfg : SchedulerConfig) :
    Disciplined (watchdogTimeouts cron cfg) .idle := by
  refine (follows_perform ..).mpr ⟨rfl, fun now => ?_⟩
  refine (follows_perform ..).mpr ⟨rfl, fun listed => ?_⟩
  cases listed with
  | error e => trivial
  | ok jobs =>
      refine follows_bind (follows_forEach (I := fun (rest : List Job) duty =>
        duty = .handling (rest.map Job.executionID)) ?_ rfl) ?_
      · rintro job rest _ rfl
        exact watchdogTimeout_handles cron job job.executionID (rest.map Job.executionID)
      · rintro _ _ rfl
        trivial

theorem createJob_untouched (cron : Cron) (body : Option CreateJobRequest) :
    Untouched (createJob cron body) := by
  refine createJob_callsOnly cron body rfl (fun _ _ _ => rfl) fun id c hc => ?_
  cases c <;> first | rfl | exact hc.elim

theorem pushPendingCancels_untouched (cfg : SchedulerConfig) :
    Untouched (pushPendingCancels cfg) := by
  refine callsOnly_mono (pushPendingCancels_calls cfg) fun c hc => ?_
  cases c <;> first | rfl | exact hc.elim

/-- All operations but the recovery from the loss of a worker, which takes the worker off the
registry. -/
def keepsWorkers : TaskLabel → Bool
  | .started .checkWorkers => false
  | _ => true

theorem body_disciplined (cron : Cron) (cfg : SchedulerConfig) {task : Task}
    (htask : keepsWorkers (.started task)) :
    Disciplined (Task.body cron cfg task) (startDuty task) := by
  cases task with
  | createJob body =>
      exact disciplined_of_untouched (callsOnly_bind (createJob_untouched cron body)
        fun _ => trivial) trivial
  | cancelJob id =>
      refine disciplined_of_untouched (callsOnly_mono (cancelJob_calls cron cfg id)
        fun c hc => ?_) trivial
      cases c <;> first | rfl | exact hc.elim
  | promoteDueJobs =>
      refine disciplined_of_untouched (callsOnly_bind (callsOnly_mono (promoteDueJobs_calls cfg)
        fun c hc => ?_) fun _ => trivial) trivial
      cases c <;> first | rfl | exact hc.elim
  | handleQueuedJob job =>
      exact follows_bind (handleQueuedJob_disciplined job) fun _ _ hdone => hdone
  | handleResult jobID executionID workerID attempt result =>
      refine follows_bind (handleResult_handles cron jobID executionID workerID attempt result
        executionID []) ?_
      rintro _ _ rfl
      trivial
  | pushPendingCancels =>
      exact disciplined_of_untouched (callsOnly_bind (pushPendingCancels_untouched cfg)
        fun _ => trivial) trivial
  | watchdogTimeouts =>
      exact follows_bind (watchdogTimeouts_disciplined cron cfg) fun _ _ hdone => hdone
  | checkWorkers => cases htask

end Bodies

end Chronos.SlotAccounting
