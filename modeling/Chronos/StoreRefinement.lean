import Chronos.Library.Observations
import Chronos.PostgresTables

namespace Chronos.StoreRefinement

open Chronos.Domain
open Chronos.Library.CallMachine
open Chronos.Library.Observations
open Chronos.MemoryStore (Fields Store applyUpdate stampExecution)
open Chronos.OneJobPerKey.Postgres
open Chronos.PostgresStore
open Chronos.PostgresTables

/-- The calls of the `JobStore` interface on jobs and executions. -/
inductive Query
  | createJob (job : Job)
  | getJob (id : String)
  | getJobByIdempotencyKey (key : String)
  | updateJobStateIf (id : String) (state : JobState) (fields : Fields)
      (onlyFrom : List JobState)
  | listJobs (state : Option JobState) (limit : Int)
  | listDueScheduled (limit : Int)
  | listCancelRequested (limit : Int)
  | listTimedOutRunning (now : Time) (limit : Int)
  | createExecution (ex : JobExecution)
  | finishExecution (id : String) (state : ExecutionState) (result : ExecutionResult)

inductive Result
  | nothing
  | job (job : Job)
  | jobs (jobs : List Job)
  deriving DecidableEq

abbrev Reply : Query → Type := fun _ => Except Err Result

/-- The clock, a generated identifier and the order of a scan. -/
structure StoreDraw (κ : Type) where
  now : Time := 0
  uuid : String := ""
  order : List κ := []

def onMemory : Machine Query Reply Store (StoreDraw String) where
  step
    | .createJob job, s, d =>
        let r := s.createJob job d.uuid d.now
        (.ok (.job r.1), r.2)
    | .getJob id, s, _ => ((s.getJob id).map .job, s)
    | .getJobByIdempotencyKey key, s, _ => ((s.getJobByIdempotencyKey key).map .job, s)
    | .updateJobStateIf id state fields onlyFrom, s, d =>
        let r := s.updateJobStateIf id state fields onlyFrom d.now
        (r.1.map fun _ => .nothing, r.2)
    | .listJobs state limit, s, d => (.ok (.jobs (s.listJobs d.order state limit)), s)
    | .listDueScheduled limit, s, d =>
        (.ok (.jobs (s.listDueScheduled d.order d.now limit)), s)
    | .listCancelRequested limit, s, d => (.ok (.jobs (s.listCancelRequested d.order limit)), s)
    | .listTimedOutRunning now limit, s, d =>
        (.ok (.jobs (s.listTimedOutRunning d.order now limit)), s)
    | .createExecution ex, s, d => (.ok .nothing, s.createExecution ex d.uuid d.now)
    | .finishExecution id state result, s, d =>
        let r := s.finishExecution id state result d.now
        (r.1.map fun _ => .nothing, r.2)
  Allowed := fun s c d =>
    match c with
    | .listJobs _ _ | .listDueScheduled _ | .listCancelRequested _ | .listTimedOutRunning _ _ =>
        s.jobs.Enumerates d.order
    | _ => True

def fieldMap (fields : Fields) : FieldMap where
  workerID := fields.workerID
  executionID := fields.executionID
  lastError := fields.lastError
  attempt := fields.attempt
  queuedAt := fields.queuedAt.map some
  startedAt := fields.startedAt.map some
  completedAt := fields.completedAt.map some
  nextRetryAt := fields.nextRetryAt.map some
  scheduledAt := fields.scheduledAt.map some

variable {F : Format}

def postgresStep : (c : Query) → Database F → StoreDraw F.UUID → Reply c × Database F
  | .createJob job, db, d =>
      let r := db.run d.order (createJob job d.uuid d.now)
      (r.1.1.map fun _ => .job r.1.2, r.2)
  | .getJob id, db, d =>
      let r := db.run d.order (getJob id)
      (r.1.map .job, r.2)
  | .getJobByIdempotencyKey key, db, d =>
      let r := db.run d.order (getJobByIdempotencyKey key)
      (r.1.map .job, r.2)
  | .updateJobStateIf id state fields onlyFrom, db, d =>
      let r := db.run d.order
        (updateJobStateIf id { state, fields := fieldMap fields, onlyFrom, now := d.now })
      (r.1.map fun _ => .nothing, r.2)
  | .listJobs state limit, db, d => (.ok (.jobs (listJobs db.jobs d.order state limit)), db)
  | .listDueScheduled limit, db, d =>
      ((listDueScheduled db.jobs d.order (microsecond d.now) limit).map .jobs, db)
  | .listCancelRequested limit, db, d =>
      (.ok (.jobs (listCancelRequested db.jobs d.order limit)), db)
  | .listTimedOutRunning now limit, db, d =>
      (.ok (.jobs (listTimedOutRunning db.jobs d.order (microsecond now) limit)), db)
  | .createExecution ex, db, d =>
      let r := createExecution db ex d.uuid d.now
      (r.1.map fun _ => .nothing, r.2)
  | .finishExecution id state result, db, d =>
      let r := finishExecution db id state result d.now
      (r.1.map fun _ => .nothing, r.2)

/-- The identifier under which a call stores something is not in use. -/
def Unused (db : Database F) (id : String) : Prop :=
  ∀ u, F.uuid.encode id = some u → db.jobs.get? u = none ∧ db.executions.get? u = none

/-- The store on a database that does not fail.  A scan finds every row of the table as the
call leaves it.  New records get unused identifiers, jobs get a timeout of a millisecond or
more, and a listing of due jobs has a positive limit. -/
def onPostgres (F : Format) : Machine Query Reply (Database F) (StoreDraw F.UUID) where
  step := postgresStep
  Allowed := fun db c d =>
    (postgresStep c db d).2.jobs.Enumerates d.order ∧
      match c with
      | .createJob job =>
          Unused db (stampJob job d.uuid d.now).id ∧ 0 < milliseconds job.timeout
      | .createExecution ex => Unused db (stampExecution ex d.uuid d.now).id
      | .listDueScheduled limit => 0 < limit
      | _ => True

def executionOf (row : ExecutionRow F) : JobExecution where
  id := F.uuid.decode row.id
  jobID := F.uuid.decode row.jobID
  workerID := text.decode row.workerID
  attempt := int4.decode row.attempt
  state := row.state
  finishedAt := nullTime.decode row.finishedAt
  durationMs := row.durationMs.getD 0
  error := nullText.decode row.error
  output := row.output
  retryable := row.retryable
  createdAt := timestamptz.decode row.createdAt

/-- The memory store that a database stands for. -/
structure Mirrors (db : Database F) (s : Store) : Prop where
  jobs : db.jobs.Copies F.uuid.decode scanJob s.jobs
  keys : ∀ key id, s.byIdem.lookup key = some id ↔ key ≠ "" ∧ HeldBy db.jobs key id
  executions : db.executions.Copies F.uuid.decode executionOf s.executions
  unique : UniqueKeys db.jobs
  timeouts : ∀ row : Row F, db.jobs.get? row.id = some row → 0 < row.timeoutMs

/-- A field map as the columns keep it. -/
def keptFields (f : ColumnFields F) : Fields where
  workerID := f.workerID.map nullText.decode
  executionID := f.executionID.map (nullUUID F).decode
  lastError := f.lastError.map nullText.decode
  attempt := f.attempt.map int4.decode
  queuedAt := f.queuedAt.bind nullTime.decode
  startedAt := f.startedAt.bind nullTime.decode
  completedAt := f.completedAt.bind nullTime.decode
  nextRetryAt := f.nextRetryAt.bind nullTime.decode
  scheduledAt := f.scheduledAt.bind nullTime.decode

/-- The same call, with its values as the columns keep them: times to the microsecond,
timeouts to the millisecond, identifiers and JSON in the form the database writes them. -/
inductive Kept (F : Format) : Query → Query → Prop
  | createJob {job : Job} {row : Row F} (uuid : String) (now : Time)
      (hrow : encodeRow F (stampJob job uuid now) = some row) :
      Kept F (.createJob job) (.createJob (scanJob row))
  | getJob {id : String} {u : F.UUID} (hid : F.uuid.encode id = some u) :
      Kept F (.getJob id) (.getJob (F.uuid.decode u))
  | getJobByIdempotencyKey (key : String) :
      Kept F (.getJobByIdempotencyKey key) (.getJobByIdempotencyKey key)
  | updateJobStateIf {id : String} {u : F.UUID} {fields kept : Fields} (state : JobState)
      (onlyFrom : List JobState) (hid : F.uuid.encode id = some u)
      (hfields : ∀ f, encodeFields F (fieldMap fields) = some f → kept = keptFields f) :
      Kept F (.updateJobStateIf id state fields onlyFrom)
        (.updateJobStateIf (F.uuid.decode u) state kept onlyFrom)
  | listJobs (state : Option JobState) (limit : Int) :
      Kept F (.listJobs state limit) (.listJobs state limit)
  | listDueScheduled (limit : Int) : Kept F (.listDueScheduled limit) (.listDueScheduled limit)
  | listCancelRequested (limit : Int) :
      Kept F (.listCancelRequested limit) (.listCancelRequested limit)
  | listTimedOutRunning (now : Time) (limit : Int) :
      Kept F (.listTimedOutRunning now limit) (.listTimedOutRunning (storedTime now) limit)
  | createExecution {ex : JobExecution} {row : ExecutionRow F} (uuid : String) (now : Time)
      (hrow : encodeExecution F (stampExecution ex uuid now) = some row) :
      Kept F (.createExecution ex) (.createExecution (executionOf row))
  | finishExecution {id : String} {u : F.UUID} {result : ExecutionResult}
      {output : Option RawMessage} (state : ExecutionState) (hid : F.uuid.encode id = some u)
      (houtput : encodeOutput F result.output = some output) :
      Kept F (.finishExecution id state result)
        (.finishExecution (F.uuid.decode u) state { result with output := output })

/-- What the two stores may answer differently: the caller of `CreateJob` keeps its own struct
where the memory store would have it as stored, and a `FinishExecution` that finds nothing is
an error of the memory store only. -/
def SameReply (F : Format) (c : Query) (reply reply' : Except Err Result) : Prop :=
  reply' = reply ∨
    match c with
    | .createJob _ => ∃ left row, reply = .ok (.job left) ∧ encodeRow F left = some row ∧
        reply' = .ok (.job (scanJob row))
    | .finishExecution _ _ _ => reply = .ok .nothing ∧ reply' = .error .notFound
    | _ => False

/-- A call on Postgres is one call on the memory store, or it was turned down: a value does not
fit its column or the job of an execution does not exist. -/
def Like (F : Format) : Observed Query Reply → List (Observed Query Reply) → Prop
  | ⟨_, reply⟩, [] => reply = .error invalidValue ∨ reply = .error foreignKey
  | ⟨c, reply⟩, [⟨c', reply'⟩] => Kept F c c' ∧ SameReply F c reply reply'
  | _, _ => False

variable {db : Database F} {s : Store} {d : StoreDraw F.UUID}

/-- A call that is matched by one call. -/
theorem matched_by {c c' : Query} (e : StoreDraw String) {db' : Database F}
    {reply : Except Err Result} (hkept : Kept F c c') (hallowed : onMemory.Allowed s c' e)
    (hreply : SameReply F c reply (onMemory.step c' s e).1)
    (hmirrors : Mirrors db' (onMemory.step c' s e).2) :
    ∃ matching s', Observes onMemory s matching s' ∧ Like F ⟨c, reply⟩ matching ∧
      Mirrors db' s' :=
  ⟨_, _, .call hallowed (.start _), ⟨hkept, hreply⟩, hmirrors⟩

theorem turned_down {c : Query} {db' : Database F} {reply : Except Err Result}
    (hreply : reply = .error invalidValue ∨ reply = .error foreignKey) (hmirrors : Mirrors db' s) :
    ∃ matching s', Observes onMemory s matching s' ∧ Like F ⟨c, reply⟩ matching ∧
      Mirrors db' s' :=
  ⟨[], s, .start s, hreply, hmirrors⟩

end Chronos.StoreRefinement
