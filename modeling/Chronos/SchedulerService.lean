import Chronos.SharedState

namespace Chronos.SchedulerService

open Chronos.Domain
open Chronos.Library.CallProgram
open Chronos.MemoryStore
open Chronos.SharedState

structure SchedulerConfig where
  assignBatchSize : Int
  heartbeatTimeout : Duration
  suspectGracePeriod : Duration

/-- Conversion of a float to a 64-bit integer: towards zero, and the least
integer when the value is out of range. -/
def floatToInt64 (q : ℚ) : Int :=
  let n := Int.tdiv q.num q.den
  if -2 ^ 63 ≤ n ∧ n < 2 ^ 63 then n else -2 ^ 63

/-- The retry delay, with the float arithmetic taken as exact and `rand` the
random number of the jitter. -/
def computeBackoff (p : RetryPolicy) (attempt : Int) (rand : ℚ) : Duration :=
  let delay := if p.initialDelay ≤ 0 then second else p.initialDelay
  let mult := if p.multiplier < 1 then 2 else p.multiplier
  let delay :=
    if p.backoffStrategy = "exponential" then floatToInt64 (delay * mult ^ (attempt - 1))
    else delay
  let delay := if p.maxDelay > 0 ∧ delay > p.maxDelay then p.maxDelay else delay
  if p.jitter then floatToInt64 (delay * (1 / 2 + rand)) else delay

def backoffDelay (p : RetryPolicy) (attempt : Int) : Prog Duration := do
  if p.jitter then
    let rand ← ask .randFloat64
    return computeBackoff p attempt rand
  else return computeBackoff p attempt 0

def promoteJob (job : Job) : Prog Unit := do
  let enqueuedAt ← ask .timeNow
  match ← ask (.enqueue (queuedJob job enqueuedAt)) with
  | .error _ => return ()
  | .ok _ =>
      let now ← ask .timeNow
      -- the outcome of the guarded update is discarded
      let _ ← ask (.updateJobStateIf job.id .queued { queuedAt := some now }
        [.scheduled, .retrying])
      let _ ← emit .jobQueued job.id "" "" job.attempt
      return ()

def promoteDueJobs (cfg : SchedulerConfig) : Prog (Except Err Unit) := do
  match ← ask (.listDueScheduled cfg.assignBatchSize) with
  | .error e => return .error e
  | .ok jobs =>
      forEach jobs promoteJob
      return .ok ()

def executeJobRequest (job : QueuedJob) (executionID : String) : ExecuteJobRequest where
  jobID := job.jobID
  executionID := executionID
  name := job.name
  type := job.type
  payload := job.payload
  attempt := wrap32 job.attempt
  timeoutMs := Int.tdiv (if job.timeout ≤ 0 then 30 * second else job.timeout) 1000000
  traceID := job.traceID

def pushOutcome : Except Err (Option ExecuteJobResponse) → Except Err Unit
  | .error e => .error e
  | .ok none => .error (.rejected "rejected")
  | .ok (some response) =>
      if response.accepted then .ok () else .error (.rejected response.message)

def markRunning (job : QueuedJob) (wc : WorkerConn) (executionID : String) (now : Time) :
    Prog (Except Err Unit) := do
  -- written without a guard: the result of the push may be in already
  match ← ask (.updateJobStateIf job.jobID .running { startedAt := some now } []) with
  | .error e => return .error e
  | .ok _ =>
      let _ ← emit .jobStarted job.jobID executionID wc.info.id job.attempt
      ask (.incActiveJobs wc)
      return .ok ()

/-- `handleQueuedJob` from the push on; `job` already carries the attempt and
the execution. -/
def pushJob (job : QueuedJob) (wc : WorkerConn) (executionID : String) (now : Time) :
    Prog (Except Err Unit) := do
  let reply ← ask (.executeJob wc.info.id (executeJobRequest job executionID))
  match pushOutcome reply with
  | .error e => return .error e
  | .ok _ => markRunning job wc executionID now

def assignJob (job : QueuedJob) (wc : WorkerConn) : Prog (Except Err Unit) := do
  let executionID ← ask .newUUID
  match ← ask (.createExecution
    ({ id := executionID, jobID := job.jobID, workerID := wc.info.id,
       attempt := job.attempt + 1, state := .pending } : JobExecution)) with
  | .error e => return .error e
  | .ok _ =>
      let now ← ask .timeNow
      match ← ask (.updateJobStateIf job.jobID .assigned
        { workerID := some wc.info.id, executionID := some executionID,
          attempt := some (job.attempt + 1) } []) with
      | .error e => return .error e
      | .ok _ =>
          let _ ← emit .jobAssigned job.jobID executionID wc.info.id (job.attempt + 1)
          pushJob { job with attempt := job.attempt + 1, executionID := executionID }
            wc executionID now

def dispatchJob (job : QueuedJob) : Prog (Except Err Unit) := do
  match ← ask .pickWorker with
  | none => return .error .noWorker
  | some wc => assignJob job wc

def handleQueuedJob (job : QueuedJob) : Prog (Except Err Unit) := do
  match ← ask (.getJob job.jobID) with
  | .error e => return .error e
  | .ok existing =>
      if existing.state.queueable then dispatchJob job else return .ok ()

def withReason (result : ExecutionResult) : ExecutionResult :=
  if result.reason = .unset then
    { result with reason := if result.success then .success else .failed }
  else result

def closeExecution (executionID : String) (state : ExecutionState)
    (result : ExecutionResult) : Prog Unit := do
  if executionID = "" then return ()
  else
    let _ ← ask (.finishExecution executionID state result)
    return ()

def maybeRescheduleRecurring (cron : Cron) (job : Job) (start : Time) : Prog Unit := do
  if job.schedule.type ≠ .recurring then return ()
  else
    match nextRunAt cron job.schedule start with
    | .error _ => return ()
    | .ok next =>
        match ← ask (.createJob
          { id := "", name := job.name, type := job.type, payload := job.payload,
            priority := job.priority, state := .scheduled, schedule := job.schedule,
            retryPolicy := job.retryPolicy, timeout := job.timeout,
            maxAttempts := job.maxAttempts, scheduledAt := some next,
            metadata := job.metadata }) with
        | .error _ => return ()
        | .ok child =>
            let _ ← emit .jobScheduled child.id "" "" 0
            return ()

/-- The retry branch shared by a timeout and a retryable failure. -/
def scheduleRetry (job : Job) (jobID executionID workerID : String) (attempt : Int)
    (now : Time) (lastError : String) : Prog Unit := do
  let delay ← backoffDelay job.retryPolicy attempt
  let _ ← ask (.updateJobStateIf jobID .retrying
    { nextRetryAt := some (now + delay), lastError := some lastError,
      workerID := some "", executionID := some "" } [])
  let _ ← emit .jobRetryScheduled jobID executionID workerID attempt
  return ()

/-- `HandleResult` on a job that is not terminal, by the precedence of its
branches: cancellation, success, timeout, failure. -/
def settleResult (cron : Cron) (job : Job) (jobID executionID workerID : String)
    (attempt : Int) (result : ExecutionResult) (now : Time) : Prog Unit := do
  if result.reason = .cancelled ∨ job.state = .cancelRequested then
    closeExecution executionID .cancelled result
    let _ ← ask (.updateJobStateIf jobID .cancelled
      { completedAt := some now, lastError := some result.error } [])
    let _ ← emit .jobCancelled jobID executionID workerID attempt
    return ()
  else if result.success then
    closeExecution executionID .completed result
    let _ ← ask (.updateJobStateIf jobID .completed { completedAt := some now } [])
    let _ ← emit .jobCompleted jobID executionID workerID attempt
    maybeRescheduleRecurring cron job now
  else if result.reason = .timeout then
    closeExecution executionID .timeout result
    let _ ← emit .jobTimeout jobID executionID workerID attempt
    if attempt < job.maxAttempts then
      scheduleRetry job jobID executionID workerID attempt now "timeout"
    else
      let _ ← ask (.updateJobStateIf jobID .timeout
        { completedAt := some now, lastError := some "timeout" } [])
      return ()
  else
    closeExecution executionID .failed result
    let _ ← emit .jobFailed jobID executionID workerID attempt
    if result.retryable ∧ attempt < job.maxAttempts then
      scheduleRetry job jobID executionID workerID attempt now result.error
    else
      let _ ← ask (.updateJobStateIf jobID .failed
        { completedAt := some now, lastError := some result.error } [])
      return ()

def handleResult (cron : Cron) (jobID executionID workerID : String) (attempt : Int)
    (result : ExecutionResult) : Prog (Except Err Unit) := do
  ask (.decActiveJobs workerID)
  ask (.clearPendingCancel workerID jobID)
  match ← ask (.getJob jobID) with
  | .error e => return .error e
  | .ok job =>
      -- the reported execution is not compared with the one stored in the job
      if job.state.terminal then return .ok ()
      else
        let now ← ask .timeNow
        settleResult cron job jobID executionID workerID attempt (withReason result) now
        return .ok ()

def pushCancel (job : Job) : Prog Unit := do
  if job.workerID = "" then
    let now ← ask .timeNow
    let _ ← ask (.updateJobStateIf job.id .cancelled { completedAt := some now } [])
    let _ ← emit .jobCancelled job.id job.executionID "" job.attempt
    return ()
  else
    match ← ask (.addPendingCancel job.workerID job.id) with
    | none => return ()
    | some _ =>
        let _ ← ask (.cancelJob job.workerID job.id job.executionID)
        return ()

def pushPendingCancels (cfg : SchedulerConfig) : Prog (Except Err Unit) := do
  match ← ask (.listCancelRequested cfg.assignBatchSize) with
  | .error e => return .error e
  | .ok jobs =>
      forEach jobs pushCancel
      return .ok ()

def watchdogResult (job : Job) : ExecutionResult where
  success := false
  error := "timeout"
  retryable := true
  duration := job.timeout
  reason := .timeout

def stopExecution (job : Job) : Prog Unit := do
  if job.workerID = "" then return ()
  else
    match ← ask (.lookupWorker job.workerID) with
    | none => return ()
    | some _ =>
        let _ ← ask (.cancelJob job.workerID job.id job.executionID)
        return ()

def watchdogTimeout (cron : Cron) (job : Job) : Prog Unit := do
  stopExecution job
  let _ ← handleResult cron job.id job.executionID job.workerID job.attempt
    (watchdogResult job)
  return ()

def watchdogTimeouts (cron : Cron) (cfg : SchedulerConfig) : Prog (Except Err Unit) := do
  let now ← ask .timeNow
  match ← ask (.listTimedOutRunning now cfg.assignBatchSize) with
  | .error e => return .error e
  | .ok jobs =>
      forEach jobs (watchdogTimeout cron)
      return .ok ()

def recoverJob (workerID : String) (now : Time) (job : Job) : Prog Unit := do
  closeExecution job.executionID .failed
    { success := false, error := "worker lost", reason := .failed }
  if job.state = .cancelRequested then
    let _ ← ask (.updateJobStateIf job.id .cancelled
      { completedAt := some now, lastError := some "worker lost during cancel" } [])
    let _ ← emit .jobCancelled job.id job.executionID workerID job.attempt
    return ()
  else if job.attempt < job.maxAttempts then
    let _ ← ask (.updateJobStateIf job.id .retrying
      { nextRetryAt := some now, lastError := some "worker lost",
        workerID := some "", executionID := some "" } [])
    let _ ← emit .jobRetryScheduled job.id job.executionID workerID job.attempt
    return ()
  else
    let _ ← ask (.updateJobStateIf job.id .failed
      { completedAt := some now,
        lastError := some "worker lost, max attempts exceeded" } [])
    let _ ← emit .jobFailed job.id job.executionID workerID job.attempt
    return ()

/-- The part of `recoverWorkerJobs` after its three listings. -/
def recoverJobs (workerID : String) (jobs : List Job) : Prog (Except Err Unit) := do
  let now ← ask .timeNow
  forEach jobs fun job =>
    if job.workerID ≠ workerID then return () else recoverJob workerID now job
  ask (.deletePendingCancels workerID)
  return .ok ()

def recoverWorkerJobs (workerID : String) : Prog (Except Err Unit) := do
  match ← ask (.listJobs (some .running) 1000) with
  | .error e => return .error e
  | .ok running =>
      match ← ask (.listJobs (some .assigned) 1000) with
      | .error e => return .error e
      | .ok assigned =>
          match ← ask (.listJobs (some .cancelRequested) 1000) with
          | .error e => return .error e
          | .ok cancelReq => recoverJobs workerID (running ++ assigned ++ cancelReq)

def dropWorker (workerID : String) : Prog Unit := do
  ask (.deleteWorker workerID)
  let _ ← emit .workerUnavailable "" "" workerID 0
  let _ ← recoverWorkerJobs workerID
  return ()

def checkWorkers (cfg : SchedulerConfig) : Prog (Except Err Unit) := do
  match ← ask (.markStaleWorkers cfg.heartbeatTimeout cfg.suspectGracePeriod) with
  | .error e => return .error e
  | .ok (_, unavailable) =>
      forEach unavailable dropWorker
      return .ok ()

/-- One round of the polling loop of `Run`, where errors are only logged. -/
def poll (cron : Cron) (cfg : SchedulerConfig) : Prog Unit := do
  let _ ← promoteDueJobs cfg
  let _ ← pushPendingCancels cfg
  let _ ← watchdogTimeouts cron cfg
  let _ ← checkWorkers cfg
  return ()

end Chronos.SchedulerService
