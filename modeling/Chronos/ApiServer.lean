import Chronos.SharedState

namespace Chronos.ApiServer

open Chronos.Domain
open Chronos.Library.CallProgram
open Chronos.MemoryStore
open Chronos.SharedState

inductive Body
  | job (job : Job)
  | status (status : String)
  | error (message : String)
  deriving DecidableEq

structure Response where
  code : Nat
  body : Body
  deriving DecidableEq

def errorText : Err → String
  | .notFound => "not found"
  | .noWorker => "no healthy worker with capacity"
  | .canceled => "context canceled"
  | .rejected message => "worker rejected job: " ++ message
  | .external message => message

/-- The checks and defaults `createJob` applies to a decoded request.
`checkedAt` is the clock reading of `ValidateSchedule`. -/
def checkRequest (cron : Cron) (checkedAt : Time) (req : CreateJobRequest) :
    Except String CreateJobRequest :=
  if req.name = "" then .error "name required"
  else
    let type : JobType := if req.type = .unset then .builtin else req.type
    let req : CreateJobRequest := { req with type := type }
    if req.type ≠ .builtin ∧ req.type ≠ .webhook then
      .error "type must be builtin or webhook"
    else
      let priority : Int := if req.priority = 0 then 5 else req.priority
      let req : CreateJobRequest := { req with priority := priority }
      if req.priority < 1 ∨ req.priority > 10 then .error "priority must be 1-10"
      else
        let scheduleType : ScheduleType :=
          if req.schedule.type = .unset then .immediate else req.schedule.type
        let schedule := { req.schedule with type := scheduleType }
        let req : CreateJobRequest := { req with schedule := schedule }
        match validateSchedule cron req.schedule checkedAt with
        | .error message => .error message
        | .ok _ => .ok req

theorem checkRequest_key {cron : Cron} {now : Time} {req checked : CreateJobRequest}
    (hvalid : checkRequest cron now req = .ok checked) :
    checked.idempotencyKey = req.idempotencyKey := by
  grind [checkRequest]

def firstRunAt (cron : Cron) (schedule : Schedule) (now : Time) : Except String Time :=
  match schedule.type with
  | .immediate => .ok now
  | .delayed => .ok (now + schedule.delay)
  | .oneTime =>
      match schedule.runAt with
      | none => .error "run_at required for one_time"
      | some runAt => .ok runAt
  | .recurring =>
      match nextRunAt cron schedule (now - 1) with
      | .error message => .error message
      | .ok next => if next ≤ now then nextRunAt cron schedule now else .ok next
  | _ => .error "unknown schedule type"

def newJob (req : CreateJobRequest) (id : String) (scheduledAt : Time) : Job where
  id := id
  name := req.name
  type := req.type
  payload := some (req.payload.getD [0x7b, 0x7d])
  priority := req.priority
  state := .scheduled
  schedule := req.schedule
  retryPolicy := req.retryPolicy.getD defaultRetryPolicy
  timeout :=
    if req.timeoutSeconds > 0 then wrap64 (req.timeoutSeconds * second) else 30 * second
  idempotencyKey := req.idempotencyKey
  maxAttempts := (req.retryPolicy.getD defaultRetryPolicy).maxAttempts
  scheduledAt := some scheduledAt
  metadata := req.metadata

def enqueueJob (job : Job) : Prog (Except Err Job) := do
  let now ← ask .timeNow
  match ← ask (.enqueue (queuedJob job now)) with
  | .error e => return .error e
  | .ok _ =>
      let _ ← emit .jobQueued job.id "" "" job.attempt
      -- no guard here, unlike in the promotion loop
      match ← ask (.updateJobStateIf job.id .queued { queuedAt := some now } []) with
      | .error e => return .error e
      | .ok _ => return .ok { job with state := .queued, queuedAt := some now }

def jobDue (job : Job) (now : Time) : Bool :=
  match job.scheduledAt with
  | none => false
  | some t => decide (t ≤ now)

/-- `createJob` once the store has answered.  The job struct the decision to
enqueue looks at is the one the store may have overwritten. -/
def announceJob (job : Job) (now : Time) : Prog Response := do
  let _ ← emit .jobCreated job.id "" "" 0
  let _ ← emit .jobScheduled job.id "" "" 0
  if jobDue job now then
    match ← enqueueJob job with
    | .error e => return ⟨500, .error ("enqueue failed: " ++ errorText e)⟩
    | .ok job => return ⟨201, .job job⟩
  else return ⟨201, .job job⟩

def submitJob (job : Job) (now : Time) : Prog Response := do
  match ← ask (.createJob job) with
  | .error e => return ⟨500, .error (errorText e)⟩
  | .ok job => announceJob job now

/-- `none` stands for a body that does not decode. -/
def createJob (cron : Cron) (body : Option CreateJobRequest) : Prog Response :=
  match body with
  | none => return ⟨400, .error "invalid json"⟩
  | some req => do
      let checkedAt ← ask .timeNow
      match checkRequest cron checkedAt req with
      | .error message => return ⟨400, .error message⟩
      | .ok req =>
          let now ← ask .timeNow
          let id ← ask .newUUID
          match firstRunAt cron req.schedule now with
          | .error message => return ⟨400, .error message⟩
          | .ok scheduledAt => submitJob (newJob req id scheduledAt) now

def cancelRefused : JobState → Bool
  | .completed | .cancelled | .expired => true
  | _ => false

def cancelJob (id : String) : Prog Response := do
  match ← ask (.getJob id) with
  | .error .notFound => return ⟨404, .error "job not found"⟩
  | .error e => return ⟨500, .error (errorText e)⟩
  | .ok job =>
      if cancelRefused job.state then return ⟨409, .error "job already terminal"⟩
      else if job.state = .running ∨ job.state = .assigned then
        let _ ← ask (.updateJobStateIf id .cancelRequested {} [])
        let _ ← emit .jobCancelRequested id job.executionID job.workerID job.attempt
        return ⟨202, .status "CANCEL_REQUESTED"⟩
      else
        let now ← ask .timeNow
        let _ ← ask (.updateJobStateIf id .cancelled { completedAt := some now } [])
        let _ ← emit .jobCancelled id "" "" job.attempt
        return ⟨200, .status "CANCELLED"⟩

/-- The calls for a job once it is stored. -/
def announceCall (jobID : String) : Call → Prop
  | .timeNow | .emit _ | .enqueue _ => True
  | .updateJobStateIf id state _ onlyFrom => id = jobID ∧ state = .queued ∧ onlyFrom = []
  | _ => False

theorem enqueueJob_calls (job : Job) : (enqueueJob job).CallsOnly (announceCall job.id) := by
  refine (callsOnly_perform ..).mpr ⟨trivial, fun now => ?_⟩
  refine (callsOnly_perform ..).mpr ⟨trivial, fun enqueued => ?_⟩
  cases enqueued with
  | error e => trivial
  | ok _ =>
      refine (callsOnly_perform ..).mpr ⟨trivial, fun _ => ?_⟩
      refine (callsOnly_perform ..).mpr ⟨⟨rfl, rfl, rfl⟩, fun updated => ?_⟩
      cases updated <;> trivial

theorem announceJob_calls (job : Job) (now : Time) :
    (announceJob job now).CallsOnly (announceCall job.id) := by
  refine (callsOnly_perform ..).mpr ⟨trivial, fun _ => ?_⟩
  refine (callsOnly_perform ..).mpr ⟨trivial, fun _ => ?_⟩
  split
  · refine callsOnly_bind (enqueueJob_calls job) fun answer => ?_
    cases answer <;> trivial
  · trivial

theorem createJob_callsOnly {allowed : Call → Prop} (cron : Cron)
    (body : Option CreateJobRequest) (huuid : allowed .newUUID)
    (hcreate : ∀ {checkedAt req checked} id scheduledAt,
      checkRequest cron checkedAt req = .ok checked →
        allowed (.createJob (newJob checked id scheduledAt)))
    (hannounce : ∀ id c, announceCall id c → allowed c) :
    (createJob cron body).CallsOnly allowed := by
  have hnow : allowed .timeNow := hannounce "" .timeNow trivial
  cases body with
  | none => trivial
  | some req =>
      refine (callsOnly_perform ..).mpr ⟨hnow, fun checkedAt => ?_⟩
      split
      · trivial
      · rename_i checked hchecked
        refine (callsOnly_perform ..).mpr ⟨hnow, fun now => ?_⟩
        refine (callsOnly_perform ..).mpr ⟨huuid, fun id => ?_⟩
        split
        · trivial
        · refine (callsOnly_perform ..).mpr ⟨hcreate id _ hchecked, fun created => ?_⟩
          cases created with
          | error e => trivial
          | ok job => exact callsOnly_mono (announceJob_calls job now) (hannounce job.id)

end Chronos.ApiServer
