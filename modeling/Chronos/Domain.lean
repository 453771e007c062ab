import Mathlib.Data.Finmap
import Mathlib.Data.Rat.Defs

namespace Chronos.Domain

/-- An instant, in nanoseconds since the Unix epoch. -/
abbrev Time := Int

abbrev Duration := Int

def zeroTime : Time := -62135596800000000000

def second : Duration := 1000000000

def wrap64 (n : Int) : Int := n.bmod (2 ^ 64)

def wrap32 (n : Int) : Int := n.bmod (2 ^ 32)

/-- Raw JSON bytes; a nil slice is `none` where the code tests for it. -/
abbrev RawMessage := List UInt8

abbrev StringMap := Finmap (fun _ : String => String)

inductive JobState
  | created
  | scheduled
  | queued
  | assigned
  | running
  | completed
  | failed
  | timeout
  | retrying
  | cancelRequested
  | cancelled
  | expired
  deriving DecidableEq, Repr

/-- The states `HandleResult` returns on at once, as already terminal. -/
def JobState.terminal : JobState → Bool
  | .completed | .failed | .cancelled | .timeout | .expired => true
  | _ => false

/-- The states in which `handleQueuedJob` goes on to assign the job. -/
def JobState.queueable : JobState → Bool
  | .queued | .scheduled | .retrying => true
  | _ => false

theorem queueable_iff {state : JobState} :
    state.queueable ↔ state = .queued ∨ state = .scheduled ∨ state = .retrying := by
  cases state <;> simp [JobState.queueable]

inductive ScheduleType
  | unset
  | immediate
  | delayed
  | oneTime
  | recurring
  | other (name : String)
  deriving DecidableEq, Repr

inductive JobType
  | unset
  | builtin
  | webhook
  | other (name : String)
  deriving DecidableEq, Repr

structure RetryPolicy where
  maxAttempts : Int
  backoffStrategy : String
  initialDelay : Duration
  maxDelay : Duration
  multiplier : ℚ
  jitter : Bool
  deriving DecidableEq

def defaultRetryPolicy : RetryPolicy where
  maxAttempts := 3
  backoffStrategy := "exponential"
  initialDelay := second
  maxDelay := 5 * 60 * second
  multiplier := 2
  jitter := true

structure Schedule where
  type : ScheduleType
  runAt : Option Time := none
  delay : Duration := 0
  cronExpr : String := ""
  timezone : String := ""
  deriving DecidableEq, Repr

structure Job where
  id : String
  name : String
  type : JobType
  payload : Option RawMessage
  priority : Int
  state : JobState
  schedule : Schedule
  retryPolicy : RetryPolicy
  timeout : Duration
  idempotencyKey : String := ""
  attempt : Int := 0
  maxAttempts : Int
  workerID : String := ""
  executionID : String := ""
  lastError : String := ""
  scheduledAt : Option Time := none
  queuedAt : Option Time := none
  startedAt : Option Time := none
  completedAt : Option Time := none
  nextRetryAt : Option Time := none
  createdAt : Time := zeroTime
  updatedAt : Time := zeroTime
  metadata : StringMap := ∅
  deriving DecidableEq

structure CreateJobRequest where
  name : String
  type : JobType := .unset
  payload : Option RawMessage := none
  priority : Int := 0
  schedule : Schedule := { type := .unset }
  retryPolicy : Option RetryPolicy := none
  timeoutSeconds : Int := 0
  idempotencyKey : String := ""
  metadata : StringMap := ∅
  deriving DecidableEq

inductive ResultReason
  | unset
  | success
  | failed
  | timeout
  | cancelled
  | other (name : String)
  deriving DecidableEq, Repr

structure ExecutionResult where
  success : Bool
  output : Option RawMessage := none
  error : String := ""
  retryable : Bool := false
  duration : Duration := 0
  reason : ResultReason := .unset
  deriving DecidableEq, Repr

inductive ExecutionState
  | pending
  | running
  | completed
  | failed
  | timeout
  | cancelled
  deriving DecidableEq, Repr

structure JobExecution where
  id : String
  jobID : String
  workerID : String
  attempt : Int
  state : ExecutionState
  startedAt : Option Time := none
  finishedAt : Option Time := none
  durationMs : Int := 0
  error : String := ""
  output : Option RawMessage := none
  retryable : Bool := false
  createdAt : Time := zeroTime
  deriving DecidableEq, Repr

structure QueuedJob where
  jobID : String
  executionID : String := ""
  name : String
  type : JobType
  payload : Option RawMessage
  priority : Int
  attempt : Int
  timeout : Duration
  enqueuedAt : Time
  traceID : String := ""
  deriving DecidableEq, Repr

def queuedJob (job : Job) (now : Time) : QueuedJob where
  jobID := job.id
  name := job.name
  type := job.type
  payload := job.payload
  priority := job.priority
  attempt := job.attempt
  timeout := job.timeout
  enqueuedAt := now

inductive WorkerStatus
  | healthy
  | suspected
  | unavailable
  | draining
  deriving DecidableEq, Repr

structure Worker where
  id : String
  address : String := ""
  status : WorkerStatus := .healthy
  capacity : Int
  activeJobs : Int := 0
  lastHeartbeat : Time := zeroTime
  registeredAt : Time := zeroTime
  deriving DecidableEq, Repr

def Worker.availableSlots (w : Worker) : Int :=
  if w.capacity - w.activeJobs < 0 then 0 else w.capacity - w.activeJobs

def Worker.isAssignable (w : Worker) : Bool :=
  w.status == .healthy && decide (w.availableSlots > 0)

inductive EventType
  | jobCreated
  | jobScheduled
  | jobQueued
  | jobAssigned
  | jobStarted
  | jobCompleted
  | jobFailed
  | jobRetryScheduled
  | jobCancelRequested
  | jobCancelled
  | jobTimeout
  | jobExpired
  | workerRegistered
  | workerHeartbeat
  | workerCapacityChanged
  | workerUnavailable
  | workerRecovered
  | workerDeregistered
  | schedulerStarted
  | schedulerStopped
  | schedulerLeaderAcquired
  | schedulerLeaderLost
  | schedulerRebalanced
  deriving DecidableEq, Repr

def EventType.text : EventType → String
  | .jobCreated => "JOB_CREATED"
  | .jobScheduled => "JOB_SCHEDULED"
  | .jobQueued => "JOB_QUEUED"
  | .jobAssigned => "JOB_ASSIGNED"
  | .jobStarted => "JOB_STARTED"
  | .jobCompleted => "JOB_COMPLETED"
  | .jobFailed => "JOB_FAILED"
  | .jobRetryScheduled => "JOB_RETRY_SCHEDULED"
  | .jobCancelRequested => "JOB_CANCEL_REQUESTED"
  | .jobCancelled => "JOB_CANCELLED"
  | .jobTimeout => "JOB_TIMEOUT"
  | .jobExpired => "JOB_EXPIRED"
  | .workerRegistered => "WORKER_REGISTERED"
  | .workerHeartbeat => "WORKER_HEARTBEAT"
  | .workerCapacityChanged => "WORKER_CAPACITY_CHANGED"
  | .workerUnavailable => "WORKER_UNAVAILABLE"
  | .workerRecovered => "WORKER_RECOVERED"
  | .workerDeregistered => "WORKER_DEREGISTERED"
  | .schedulerStarted => "SCHEDULER_STARTED"
  | .schedulerStopped => "SCHEDULER_STOPPED"
  | .schedulerLeaderAcquired => "SCHEDULER_LEADER_ACQUIRED"
  | .schedulerLeaderLost => "SCHEDULER_LEADER_LOST"
  | .schedulerRebalanced => "SCHEDULER_REBALANCED"

structure Event where
  eventType : EventType
  jobID : String := ""
  executionID : String := ""
  workerID : String := ""
  attempt : Int := 0
  deriving DecidableEq, Repr

/-- An event as it is stored in the outbox and sent over Kafka.  The type is the
text on the wire, which a consumer does not check. -/
structure EventRecord where
  eventID : String
  eventType : String
  eventVersion : Int := 1
  eventTime : Time
  ingestedAt : Option Time := none
  jobID : String := ""
  executionID : String := ""
  workerID : String := ""
  schedulerID : String := ""
  attempt : Int := 0
  traceID : String := ""
  payload : Option RawMessage := none
  deriving DecidableEq, Repr

inductive Err
  | notFound
  | noWorker
  | canceled
  | rejected (message : String)
  | external (message : String)
  deriving DecidableEq, Repr

/-- The cron parser and the time zone database.  A parsed expression yields the
next matching instant after a given one, in a given zone. -/
structure Cron where
  Location : Type
  utc : Location
  loadLocation : String → Except String Location
  parse : String → Except String (Location → Time → Time)

def nextRunAt (cron : Cron) (s : Schedule) (start : Time) : Except String Time :=
  match s.type with
  | .immediate => .ok start
  | .delayed => .ok (start + if s.delay ≤ 0 then 0 else s.delay)
  | .oneTime =>
      match s.runAt with
      | none => .error "run_at required"
      | some runAt => .ok runAt
  | .recurring =>
      if s.cronExpr = "" then .error "cron_expr required for recurring"
      else
        match if s.timezone = "" then .ok cron.utc else cron.loadLocation s.timezone with
        | .error e => .error ("timezone: " ++ e)
        | .ok location =>
            match cron.parse s.cronExpr with
            | .error e => .error ("cron_expr: " ++ e)
            | .ok next => .ok (next location start)
  | .unset => .error "unknown schedule type \"\""
  | .other name => .error ("unknown schedule type \"" ++ name ++ "\"")

def validateSchedule (cron : Cron) (s : Schedule) (now : Time) : Except String Unit :=
  match s.type with
  | .unset | .immediate => .ok ()
  | .delayed => .ok ()
  | .oneTime =>
      match s.runAt with
      | none => .error "run_at required for one_time"
      | some _ => .ok ()
  | .recurring =>
      if s.cronExpr = "" then .error "cron_expr required for recurring"
      else
        match nextRunAt cron s now with
        | .error e => .error e
        | .ok _ => .ok ()
  | .other name => .error ("unknown schedule type \"" ++ name ++ "\"")

end Chronos.Domain
