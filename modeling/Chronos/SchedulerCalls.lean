import Chronos.SchedulerService

namespace Chronos.SchedulerCalls

open Chronos.Domain
open Chronos.Library.CallProgram
open Chronos.MemoryStore
open Chronos.SchedulerService
open Chronos.SharedState

def resultState : JobState → Bool
  | .completed | .failed | .timeout | .cancelled | .retrying => true
  | _ => false

/-- The calls of `HandleResult`: it writes only the job it is about, without a
guard and without touching the attempt, and creates only the next occurrence of
a recurring job. -/
def resultCall (jobID : String) : Call → Prop
  | .timeNow | .randFloat64 | .emit _ => True
  | .decActiveJobs _ | .clearPendingCancel _ _ => True
  | .finishExecution _ _ _ => True
  | .getJob id => id = jobID
  | .updateJobStateIf id state fields onlyFrom =>
      id = jobID ∧ resultState state ∧ fields.attempt = none ∧ onlyFrom = []
  | .createJob job => job.id = "" ∧ job.idempotencyKey = "" ∧ job.state = .scheduled
  | _ => False

/-- The states a job may be left in when it is settled: a requested cancellation
can only end in CANCELLED. -/
def settledState : JobState → JobState → Bool
  | .cancelRequested, state => state == .cancelled
  | _, state => resultState state

/-- The calls that settle a job found in state `found`; a new job is created only
if `spawns`. -/
def settleCall (found : JobState) (jobID : String) (spawns : Bool) : Call → Prop
  | .updateJobStateIf id state _ _ => id = jobID ∧ settledState found state
  | .createJob job => spawns ∧ job.id = "" ∧ job.idempotencyKey = "" ∧ job.state = .scheduled
  | _ => True

def settleResultCall (found : JobState) (jobID : String) (spawns : Bool) (c : Call) : Prop :=
  resultCall jobID c ∧ settleCall found jobID spawns c

/-- The calls of `HandleResult` once it has read the job. -/
def settlingCall (found : JobState) (jobID : String) (spawns : Bool) : Call → Prop
  | .randFloat64 | .emit _ | .finishExecution _ _ _ => True
  | .updateJobStateIf id state fields onlyFrom =>
      id = jobID ∧ settledState found state ∧ resultState state ∧ fields.attempt = none ∧
        onlyFrom = []
  | .createJob job => spawns ∧ job.id = "" ∧ job.idempotencyKey = "" ∧ job.state = .scheduled
  | _ => False

theorem settleResultCall_of_settlingCall {found : JobState} {jobID : String} {spawns : Bool}
    (c : Call) (hc : settlingCall found jobID spawns c) :
    settleResultCall found jobID spawns c := by
  cases c with
  | updateJobStateIf id state fields onlyFrom =>
      obtain ⟨hid, hsettled, hstate, hattempt, hguard⟩ := hc
      exact ⟨⟨hid, hstate, hattempt, hguard⟩, hid, hsettled⟩
  | createJob job => exact ⟨hc.2, hc⟩
  | randFloat64 => exact ⟨trivial, trivial⟩
  | emit event => exact ⟨trivial, trivial⟩
  | finishExecution id state result => exact ⟨trivial, trivial⟩
  | _ => exact hc.elim

theorem settledState_of_live {found state : JobState} (hfound : found ≠ .cancelRequested)
    (hstate : resultState state) : settledState found state := by
  cases found <;> first | exact hstate | exact absurd rfl hfound

section Settling

variable {found : JobState} {jobID : String} {spawns : Bool}

theorem closeExecution_calls (executionID : String) (state : ExecutionState)
    (result : ExecutionResult) :
    (closeExecution executionID state result).CallsOnly
      (settlingCall found jobID spawns) := by
  unfold closeExecution
  split
  · trivial
  · exact (callsOnly_perform ..).mpr ⟨trivial, fun _ => trivial⟩

theorem updateJob_calls {state : JobState} {fields : Fields}
    {f : Answer (.updateJobStateIf jobID state fields []) → Prog Unit}
    (hfound : settledState found state) (hstate : resultState state)
    (hattempt : fields.attempt = none)
    (hf : ∀ answer, (f answer).CallsOnly (settlingCall found jobID spawns)) :
    (ask (.updateJobStateIf jobID state fields []) >>= f).CallsOnly
      (settlingCall found jobID spawns) :=
  (callsOnly_perform ..).mpr ⟨⟨rfl, hfound, hstate, hattempt, rfl⟩, hf⟩

theorem emit_calls {eventType : EventType} {id executionID workerID : String} {attempt : Int}
    {f : Except Err Unit → Prog Unit}
    (hf : ∀ answer, (f answer).CallsOnly (settlingCall found jobID spawns)) :
    (emit eventType id executionID workerID attempt >>= f).CallsOnly
      (settlingCall found jobID spawns) :=
  (callsOnly_perform ..).mpr ⟨trivial, hf⟩

theorem maybeRescheduleRecurring_calls (cron : Cron) (job : Job) (start : Time) :
    (maybeRescheduleRecurring cron job start).CallsOnly
      (settlingCall found jobID true) := by
  unfold maybeRescheduleRecurring
  split
  · trivial
  split
  · trivial
  · refine (callsOnly_perform ..).mpr ⟨⟨rfl, rfl, rfl, rfl⟩, fun answer => ?_⟩
    cases answer with
    | error e => trivial
    | ok child => exact emit_calls fun _ => trivial

theorem scheduleRetry_calls (hfound : found ≠ .cancelRequested) (job : Job)
    (executionID workerID : String) (attempt : Int) (now : Time) (lastError : String) :
    (scheduleRetry job jobID executionID workerID attempt now lastError).CallsOnly
      (settlingCall found jobID spawns) := by
  have hdelay : (backoffDelay job.retryPolicy attempt).CallsOnly
      (settlingCall found jobID spawns) := by
    unfold backoffDelay
    split
    · exact (callsOnly_perform ..).mpr ⟨trivial, fun _ => trivial⟩
    · trivial
  refine callsOnly_bind hdelay fun delay => ?_
  exact updateJob_calls (settledState_of_live hfound rfl) rfl rfl fun _ =>
    emit_calls fun _ => trivial

/-- A job that is to be cancelled is only ever cancelled, and a new job is created
only after a success. -/
theorem settleResult_settles (cron : Cron) (job : Job) (jobID executionID workerID : String)
    (attempt : Int) (result : ExecutionResult) (now : Time) :
    (settleResult cron job jobID executionID workerID attempt result now).CallsOnly
      (settlingCall job.state jobID result.success) := by
  unfold settleResult
  split
  · refine callsOnly_bind (closeExecution_calls _ _ _) fun _ => ?_
    refine updateJob_calls ?_ rfl rfl fun _ => emit_calls fun _ => trivial
    cases job.state <;> rfl
  · rename_i hcancel
    rw [not_or] at hcancel
    split
    · rename_i hsuccess
      rw [hsuccess]
      refine callsOnly_bind (closeExecution_calls _ _ _) fun _ => ?_
      exact updateJob_calls (settledState_of_live hcancel.2 rfl) rfl rfl fun _ =>
        emit_calls fun _ => maybeRescheduleRecurring_calls cron job now
    split
    · refine callsOnly_bind (closeExecution_calls _ _ _) fun _ => emit_calls fun _ => ?_
      split
      · exact scheduleRetry_calls hcancel.2 job executionID workerID attempt now _
      · exact updateJob_calls (settledState_of_live hcancel.2 rfl) rfl rfl fun _ => trivial
    · refine callsOnly_bind (closeExecution_calls _ _ _) fun _ => emit_calls fun _ => ?_
      split
      · exact scheduleRetry_calls hcancel.2 job executionID workerID attempt now _
      · exact updateJob_calls (settledState_of_live hcancel.2 rfl) rfl rfl fun _ => trivial

theorem settleResult_calls (cron : Cron) (job : Job) (jobID executionID workerID : String)
    (attempt : Int) (result : ExecutionResult) (now : Time) :
    (settleResult cron job jobID executionID workerID attempt result now).CallsOnly
      (settleResultCall job.state jobID result.success) :=
  callsOnly_mono (settleResult_settles cron job jobID executionID workerID attempt result now)
    settleResultCall_of_settlingCall

end Settling

@[simp] theorem withReason_success (result : ExecutionResult) :
    (withReason result).success = result.success := by
  unfold withReason
  split <;> rfl

theorem handleResult_calls (cron : Cron) (jobID executionID workerID : String)
    (attempt : Int) (result : ExecutionResult) :
    (handleResult cron jobID executionID workerID attempt result).CallsOnly
      (resultCall jobID) := by
  refine (callsOnly_perform ..).mpr ⟨trivial, fun _ => ?_⟩
  refine (callsOnly_perform ..).mpr ⟨trivial, fun _ => ?_⟩
  refine (callsOnly_perform ..).mpr ⟨rfl, fun answer => ?_⟩
  cases answer with
  | error e => trivial
  | ok job =>
      dsimp only
      split
      · trivial
      · refine (callsOnly_perform ..).mpr ⟨trivial, fun now => ?_⟩
        have hsettle := callsOnly_mono (settleResult_calls cron job jobID executionID
          workerID attempt (withReason result) now) fun _ hc => hc.1
        exact callsOnly_bind hsettle fun _ => trivial

def dispatchCall (jobID : String) : Call → Prop
  | .timeNow | .newUUID | .pickWorker | .emit _ | .incActiveJobs _ => True
  | .getJob id => id = jobID
  | .createExecution ex => ex.jobID = jobID
  | .updateJobStateIf id state _ onlyFrom =>
      id = jobID ∧ (state = .assigned ∨ state = .running) ∧ onlyFrom = []
  | .executeJob _ request => request.jobID = jobID
  | _ => False

theorem pushJob_calls (job : QueuedJob) (wc : WorkerConn) (executionID : String)
    (now : Time) : (pushJob job wc executionID now).CallsOnly (dispatchCall job.jobID) := by
  refine (callsOnly_perform ..).mpr ⟨rfl, fun reply => ?_⟩
  split
  · trivial
  · refine (callsOnly_perform ..).mpr ⟨⟨rfl, Or.inr rfl, rfl⟩, fun answer => ?_⟩
    cases answer with
    | error e => trivial
    | ok _ =>
        refine (callsOnly_perform ..).mpr ⟨trivial, fun _ => ?_⟩
        exact (callsOnly_perform ..).mpr ⟨trivial, fun _ => trivial⟩

theorem assignJob_calls (job : QueuedJob) (wc : WorkerConn) :
    (assignJob job wc).CallsOnly (dispatchCall job.jobID) := by
  refine (callsOnly_perform ..).mpr ⟨trivial, fun executionID => ?_⟩
  refine (callsOnly_perform ..).mpr ⟨rfl, fun created => ?_⟩
  cases created with
  | error e => trivial
  | ok _ =>
      refine (callsOnly_perform ..).mpr ⟨trivial, fun now => ?_⟩
      refine (callsOnly_perform ..).mpr ⟨⟨rfl, Or.inl rfl, rfl⟩, fun assigned => ?_⟩
      cases assigned with
      | error e => trivial
      | ok _ =>
          exact (callsOnly_perform ..).mpr
            ⟨trivial, fun _ => pushJob_calls _ wc executionID now⟩

theorem handleQueuedJob_calls (job : QueuedJob) :
    (handleQueuedJob job).CallsOnly (dispatchCall job.jobID) := by
  refine (callsOnly_perform ..).mpr ⟨rfl, fun answer => ?_⟩
  cases answer with
  | error e => trivial
  | ok existing =>
      dsimp only
      split
      · refine (callsOnly_perform ..).mpr ⟨trivial, fun picked => ?_⟩
        cases picked with
        | none => trivial
        | some wc => exact assignJob_calls job wc
      · trivial

def promoteCall : Call → Prop
  | .timeNow | .listDueScheduled _ | .enqueue _ | .emit _ => True
  | .updateJobStateIf _ state fields onlyFrom =>
      state = .queued ∧ fields.attempt = none ∧ onlyFrom = [.scheduled, .retrying]
  | _ => False

/-- The calls of a round of `promoteDueJobs`. -/
def promoteJobCall (jobID : String) : Call → Prop
  | .timeNow | .enqueue _ | .emit _ => True
  | .updateJobStateIf id state fields onlyFrom =>
      id = jobID ∧ state = .queued ∧ fields.attempt = none ∧ onlyFrom = [.scheduled, .retrying]
  | _ => False

theorem promoteJob_calls (job : Job) : (promoteJob job).CallsOnly (promoteJobCall job.id) := by
  refine (callsOnly_perform ..).mpr ⟨trivial, fun enqueuedAt => ?_⟩
  refine (callsOnly_perform ..).mpr ⟨trivial, fun enqueued => ?_⟩
  cases enqueued with
  | error e => trivial
  | ok _ =>
      refine (callsOnly_perform ..).mpr ⟨trivial, fun now => ?_⟩
      refine (callsOnly_perform ..).mpr ⟨⟨rfl, rfl, rfl, rfl⟩, fun _ => ?_⟩
      exact (callsOnly_perform ..).mpr ⟨trivial, fun _ => trivial⟩

theorem promoteDueJobs_calls (cfg : SchedulerConfig) :
    (promoteDueJobs cfg).CallsOnly promoteCall := by
  refine (callsOnly_perform ..).mpr ⟨trivial, fun listed => ?_⟩
  cases listed with
  | error e => exact trivial
  | ok jobs =>
      refine callsOnly_bind (callsOnly_forEach fun job _ => ?_) fun _ => trivial
      refine callsOnly_mono (promoteJob_calls job) fun c hc => ?_
      cases c with
      | updateJobStateIf => exact hc.2
      | _ => trivial

/-- The calls that stop the execution of `job` on its worker. -/
def stopCall (job : Job) : Call → Prop
  | .lookupWorker _ => True
  | .cancelJob workerID jobID executionID =>
      workerID = job.workerID ∧ jobID = job.id ∧ executionID = job.executionID
  | _ => False

theorem stopExecution_calls (job : Job) : (stopExecution job).CallsOnly (stopCall job) := by
  unfold stopExecution
  split
  · trivial
  · refine (callsOnly_perform ..).mpr ⟨trivial, fun found => ?_⟩
    cases found with
    | none => trivial
    | some wc => exact (callsOnly_perform ..).mpr ⟨⟨rfl, rfl, rfl⟩, fun _ => trivial⟩

def cancelPushCall : Call → Prop
  | .timeNow | .listCancelRequested _ | .emit _ => True
  | .addPendingCancel _ _ | .cancelJob _ _ _ => True
  | .updateJobStateIf _ state _ _ => state = .cancelled
  | _ => False

/-- The calls of a round of `pushPendingCancels`. -/
def pushCancelCall (jobID : String) : Call → Prop
  | .updateJobStateIf id state _ _ => id = jobID ∧ state = .cancelled
  | .timeNow | .emit _ | .addPendingCancel _ _ | .cancelJob _ _ _ => True
  | _ => False

theorem pushCancel_calls (job : Job) : (pushCancel job).CallsOnly (pushCancelCall job.id) := by
  unfold pushCancel
  split
  · refine (callsOnly_perform ..).mpr ⟨trivial, fun now => ?_⟩
    refine (callsOnly_perform ..).mpr ⟨⟨rfl, rfl⟩, fun _ => ?_⟩
    exact (callsOnly_perform ..).mpr ⟨trivial, fun _ => trivial⟩
  · refine (callsOnly_perform ..).mpr ⟨trivial, fun found => ?_⟩
    cases found with
    | none => trivial
    | some wc => exact (callsOnly_perform ..).mpr ⟨trivial, fun _ => trivial⟩

theorem pushPendingCancels_calls (cfg : SchedulerConfig) :
    (pushPendingCancels cfg).CallsOnly cancelPushCall := by
  refine (callsOnly_perform ..).mpr ⟨trivial, fun listed => ?_⟩
  cases listed with
  | error e => trivial
  | ok jobs =>
      refine callsOnly_bind (callsOnly_forEach fun job _ => ?_) fun _ => trivial
      refine callsOnly_mono (pushCancel_calls job) fun c hc => ?_
      cases c with
      | updateJobStateIf => exact hc.2
      | _ => trivial

def recoverCall : Call → Prop
  | .timeNow | .listJobs _ _ | .finishExecution _ _ _ | .updateJobStateIf _ _ _ _ => True
  | .emit _ | .deleteWorker _ | .deletePendingCancels _ => True
  | _ => False

def recoverJobCall : Call → Prop
  | .finishExecution _ _ _ | .updateJobStateIf _ _ _ _ | .emit _ => True
  | _ => False

theorem recoverCall_of_recoverJobCall (c : Call) (hc : recoverJobCall c) : recoverCall c := by
  cases c <;> trivial

theorem recoverJob_calls (workerID : String) (now : Time) (job : Job) :
    (recoverJob workerID now job).CallsOnly recoverJobCall := by
  have hwrite : ∀ {state fields event},
      (ask (.updateJobStateIf job.id state fields []) >>= fun _ =>
        ask (.emit event) >>= fun _ => (pure () : Prog Unit)).CallsOnly recoverJobCall :=
    (callsOnly_perform ..).mpr
      ⟨trivial, fun _ => (callsOnly_perform ..).mpr ⟨trivial, fun _ => trivial⟩⟩
  refine callsOnly_bind ?_ fun _ => ?_
  · unfold closeExecution
    split
    · trivial
    · exact (callsOnly_perform ..).mpr ⟨trivial, fun _ => trivial⟩
  · split
    · exact hwrite
    · split
      · exact hwrite
      · exact hwrite

/-- `recoverWorkerJobs` makes its three listings and then recovers what they gave. -/
theorem recoverWorkerJobs_callsOnly {allowed : Call → Prop} (workerID : String)
    (hlist : ∀ state limit, allowed (.listJobs state limit))
    (hjobs : ∀ jobs, (recoverJobs workerID jobs).CallsOnly allowed) :
    (recoverWorkerJobs workerID).CallsOnly allowed := by
  refine (callsOnly_perform ..).mpr ⟨hlist _ _, fun running => ?_⟩
  cases running with
  | error e => trivial
  | ok running =>
      refine (callsOnly_perform ..).mpr ⟨hlist _ _, fun assigned => ?_⟩
      cases assigned with
      | error e => trivial
      | ok assigned =>
          refine (callsOnly_perform ..).mpr ⟨hlist _ _, fun cancelReq => ?_⟩
          cases cancelReq with
          | error e => trivial
          | ok cancelReq => exact hjobs _

theorem recoverWorkerJobs_calls (workerID : String) :
    (recoverWorkerJobs workerID).CallsOnly recoverCall := by
  refine recoverWorkerJobs_callsOnly workerID (fun _ _ => trivial) fun jobs => ?_
  refine (callsOnly_perform ..).mpr ⟨trivial, fun now => ?_⟩
  refine callsOnly_bind (callsOnly_forEach fun job _ => ?_) fun _ => ?_
  · split
    · trivial
    · exact callsOnly_mono (recoverJob_calls workerID now job) recoverCall_of_recoverJobCall
  · exact (callsOnly_perform ..).mpr ⟨trivial, fun _ => trivial⟩

end Chronos.SchedulerCalls
