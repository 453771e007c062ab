import Chronos.Domain
import Chronos.Library.CallMachine
import Chronos.Library.KeyedTable

namespace Chronos.PostgresStore

open Chronos.Domain
open Chronos.Library.CallProgram
open Chronos.Library.CallMachine
open Chronos.Library.KeyedTable

/-- How the values of a Go type are stored in a column.  A value that the column
does not take fails the statement; what is read from a column can be written
back to it. -/
structure ColumnType (α κ : Type) where
  encode : α → Option κ
  decode : κ → α
  encode_decode : ∀ v, encode (decode v) = some v

abbrev Int4 := { n : Int // -2 ^ 31 ≤ n ∧ n < 2 ^ 31 }

/-- Text holds no zero character. -/
abbrev Text := { s : String // Char.ofNat 0 ∉ s.toList }

abbrev NonemptyText := { s : String // s ≠ "" ∧ Char.ofNat 0 ∉ s.toList }

/-- Microseconds since the Unix epoch. -/
abbrev Timestamp := Int

def guardedColumn (P : α → Prop) [DecidablePred P] : ColumnType α { a // P a } where
  encode := fun a => if h : P a then some ⟨a, h⟩ else none
  decode := Subtype.val
  encode_decode := fun v => dif_pos v.2

def int4 : ColumnType Int Int4 := guardedColumn fun n => -2 ^ 31 ≤ n ∧ n < 2 ^ 31

def text : ColumnType String Text := guardedColumn fun s : String => Char.ofNat 0 ∉ s.toList

/-- The microsecond in which an instant lies. -/
def microsecond (t : Time) : Timestamp := t / 1000

def timestamptz : ColumnType Time Timestamp where
  encode := fun t => some (microsecond t)
  decode := fun v => v * 1000
  encode_decode := fun v => by rw [microsecond, Int.mul_ediv_cancel v (by decide)]

/-- What is read back of an instant. -/
def storedTime (t : Time) : Time := timestamptz.decode (microsecond t)

/-- `nullStr` on the way in and `COALESCE` on the way out. -/
def nullStr {κ : Type} (column : ColumnType String κ) (hne : ∀ v, column.decode v ≠ "") :
    ColumnType String (Option κ) where
  encode := fun s => if s = "" then some none else (column.encode s).map some
  decode := fun v => (v.map column.decode).getD ""
  encode_decode := by
    intro v
    cases v with
    | none => rfl
    | some v =>
        rw [Option.map_some, Option.getD_some, if_neg (hne v), column.encode_decode v,
          Option.map_some]

def nullText : ColumnType String (Option NonemptyText) :=
  nullStr (guardedColumn fun s => s ≠ "" ∧ Char.ofNat 0 ∉ s.toList) fun v => v.2.1

def nullTime : ColumnType (Option Time) (Option Timestamp) where
  encode := fun t => some (t.map microsecond)
  decode := fun v => v.map fun v => v * 1000
  encode_decode := by
    intro v
    cases v with
    | none => rfl
    | some v => exact congrArg some (timestamptz.encode_decode v)

/-- The text form of `UUID` values, and what a `JSONB` column makes of a payload. -/
structure Format where
  UUID : Type
  [decidableEq : DecidableEq UUID]
  uuid : ColumnType String UUID
  uuid_ne_empty : ∀ v, uuid.decode v ≠ ""
  jsonb : RawMessage → Option RawMessage

instance (F : Format) : DecidableEq F.UUID := F.decidableEq

def nullUUID (F : Format) : ColumnType String (Option F.UUID) :=
  nullStr F.uuid F.uuid_ne_empty

/-- The columns that an update sets. -/
@[ext] structure JobColumns (F : Format) where
  state : JobState
  workerID : Option NonemptyText := none
  executionID : Option F.UUID := none
  lastError : Option NonemptyText := none
  attempt : Int4
  queuedAt : Option Timestamp := none
  startedAt : Option Timestamp := none
  completedAt : Option Timestamp := none
  nextRetryAt : Option Timestamp := none
  scheduledAt : Option Timestamp := none
  updatedAt : Timestamp
  deriving DecidableEq

/-- A row of the jobs table.  The schedule, the retry policy and the metadata stand
for the JSON they are stored as. -/
structure Row (F : Format) extends JobColumns F where
  id : F.UUID
  name : Text
  type : { type : JobType // type = .builtin ∨ type = .webhook }
  payload : RawMessage
  priority : Int4
  schedule : Schedule
  retryPolicy : RetryPolicy
  timeoutMs : Int
  idempotencyKey : Option NonemptyText
  maxAttempts : Int4
  metadata : StringMap
  createdAt : Timestamp
  deriving DecidableEq

def Row.withColumns {F : Format} (row : Row F) (columns : JobColumns F) : Row F :=
  { row with toJobColumns := columns }

abbrev JobRows (F : Format) := Table (Row.id (F := F))

variable {F : Format}

def scanJob (row : Row F) : Job where
  id := F.uuid.decode row.id
  name := text.decode row.name
  type := row.type
  payload := some row.payload
  priority := int4.decode row.priority
  state := row.state
  schedule := row.schedule
  retryPolicy := row.retryPolicy
  timeout := row.timeoutMs * 1000000
  idempotencyKey := nullText.decode row.idempotencyKey
  attempt := int4.decode row.attempt
  maxAttempts := int4.decode row.maxAttempts
  workerID := nullText.decode row.workerID
  executionID := (nullUUID F).decode row.executionID
  lastError := nullText.decode row.lastError
  scheduledAt := nullTime.decode row.scheduledAt
  queuedAt := nullTime.decode row.queuedAt
  startedAt := nullTime.decode row.startedAt
  completedAt := nullTime.decode row.completedAt
  nextRetryAt := nullTime.decode row.nextRetryAt
  createdAt := timestamptz.decode row.createdAt
  updatedAt := timestamptz.decode row.updatedAt
  metadata := row.metadata

/-- The field map of an update; a timestamp can be set to nil. -/
structure FieldMap where
  workerID : Option String := none
  executionID : Option String := none
  lastError : Option String := none
  attempt : Option Int := none
  queuedAt : Option (Option Time) := none
  startedAt : Option (Option Time) := none
  completedAt : Option (Option Time) := none
  nextRetryAt : Option (Option Time) := none
  scheduledAt : Option (Option Time) := none
  deriving DecidableEq, Repr

/-- The arguments of one `UpdateJobStateIf` call besides the job, with the clock
reading it takes. -/
structure Update where
  state : JobState
  fields : FieldMap := {}
  onlyFrom : List JobState := []
  now : Time := 0
  deriving DecidableEq, Repr

def Update.admits (u : Update) (state : JobState) : Prop :=
  u.onlyFrom = [] ∨ state ∈ u.onlyFrom

instance (u : Update) (state : JobState) : Decidable (u.admits state) :=
  inferInstanceAs (Decidable (_ ∨ _))

def applyFields (job : Job) (u : Update) : Job :=
  { job with
    state := u.state
    updatedAt := u.now
    workerID := u.fields.workerID.getD job.workerID
    executionID := u.fields.executionID.getD job.executionID
    lastError := u.fields.lastError.getD job.lastError
    attempt := u.fields.attempt.getD job.attempt
    queuedAt := u.fields.queuedAt.getD job.queuedAt
    startedAt := u.fields.startedAt.getD job.startedAt
    completedAt := u.fields.completedAt.getD job.completedAt
    nextRetryAt := u.fields.nextRetryAt.getD job.nextRetryAt
    scheduledAt := u.fields.scheduledAt.getD job.scheduledAt }

def encodeColumns (F : Format) (job : Job) : Option (JobColumns F) := do
  let workerID ← nullText.encode job.workerID
  let executionID ← (nullUUID F).encode job.executionID
  let lastError ← nullText.encode job.lastError
  let attempt ← int4.encode job.attempt
  let queuedAt ← nullTime.encode job.queuedAt
  let startedAt ← nullTime.encode job.startedAt
  let completedAt ← nullTime.encode job.completedAt
  let nextRetryAt ← nullTime.encode job.nextRetryAt
  let scheduledAt ← nullTime.encode job.scheduledAt
  let updatedAt ← timestamptz.encode job.updatedAt
  return { state := job.state, workerID, executionID, lastError, attempt, queuedAt,
           startedAt, completedAt, nextRetryAt, scheduledAt, updatedAt }

/-- A Go duration in whole milliseconds. -/
def milliseconds (d : Duration) : Int := Int.tdiv d 1000000

def encodeRow (F : Format) (job : Job) : Option (Row F) := do
  let id ← F.uuid.encode job.id
  let name ← text.encode job.name
  let type ← (guardedColumn fun type => type = .builtin ∨ type = .webhook).encode job.type
  let payload ← F.jsonb (job.payload.getD [123, 125])
  let priority ← int4.encode job.priority
  let idempotencyKey ← nullText.encode job.idempotencyKey
  let attempt ← int4.encode job.attempt
  let maxAttempts ← int4.encode job.maxAttempts
  let createdAt ← timestamptz.encode job.createdAt
  let updatedAt ← timestamptz.encode job.updatedAt
  let scheduledAt ← nullTime.encode job.scheduledAt
  return { id, name, type, payload, priority, idempotencyKey, maxAttempts, createdAt
           schedule := job.schedule
           retryPolicy := job.retryPolicy
           timeoutMs := milliseconds job.timeout
           metadata := job.metadata
           state := job.state
           attempt, updatedAt, scheduledAt }

inductive Statement
  | selectJob (id : String)
  | selectJobByKey (key : String)
  | insertJob (job : Job)
  | updateJob (job : Job)

abbrev StatementAnswer : Statement → Type
  | .selectJob _ => Except Err Job
  | .selectJobByKey _ => Except Err Job
  | .insertJob _ => Except Err Unit
  | .updateJob _ => Except Err Unit

abbrev Sql := Program Statement StatementAnswer

abbrev ask (q : Statement) : Sql (StatementAnswer q) := perform q

def invalidValue : Err := .external "invalid input value"

def duplicateKey : Err := .external "duplicate key value violates unique constraint"

def selectJob (t : JobRows F) (id : String) : Except Err Job :=
  match F.uuid.encode id with
  | none => .error invalidValue
  | some id =>
      match t.get? id with
      | none => .error .notFound
      | some row => .ok (scanJob row)

def Row.hasKey (row : Row F) (key : NonemptyText) : Bool :=
  row.idempotencyKey == some key

/-- The first matching row in the order of the scan. -/
def selectJobByKey (t : JobRows F) (order : List F.UUID) (key : String) : Except Err Job :=
  match nullText.encode key with
  | none => .error invalidValue
  | some none => .error .notFound
  | some (some key) =>
      match (t.inOrder order).find? fun row => row.hasKey key with
      | none => .error .notFound
      | some row => .ok (scanJob row)

/-- The unique index holds the keys that are not NULL. -/
def keyTaken (t : JobRows F) : Option NonemptyText → Prop
  | none => False
  | some key => ∃ id ∈ t.keys, (t.get? id).any (·.hasKey key)

instance (t : JobRows F) (key : Option NonemptyText) : Decidable (keyTaken t key) :=
  match key with
  | none => inferInstanceAs (Decidable False)
  | some key => inferInstanceAs (Decidable (∃ id ∈ t.keys, (t.get? id).any (·.hasKey key)))

/-- The unique index on the key decides first: a row with the key makes the insert
do nothing.  Then the primary key is checked. -/
def insertJob (t : JobRows F) (job : Job) : Except Err Unit × JobRows F :=
  match encodeRow F job with
  | none => (.error invalidValue, t)
  | some row =>
      if keyTaken t row.idempotencyKey then (.ok (), t)
      else if (t.get? row.id).isSome then (.error duplicateKey, t)
      else (.ok (), t.put row)

def updateJob (t : JobRows F) (job : Job) : Except Err Unit × JobRows F :=
  match F.uuid.encode job.id, encodeColumns F job with
  | some id, some columns =>
      match t.get? id with
      | none => (.ok (), t)
      | some row => (.ok (), t.put (row.withColumns columns))
  | _, _ => (.error invalidValue, t)

/-- `order` is the order of a scan.  A statement that fails from outside has had its
effect or has not. -/
structure StatementDraw (F : Format) where
  order : List F.UUID := []
  fault : Option Err := none
  applied : Bool := false

def attempted {α σ : Type} (d : StatementDraw F) (s : σ) (r : Except Err α × σ) :
    Except Err α × σ :=
  match d.fault with
  | none => r
  | some e => (.error e, if d.applied then r.2 else s)

def execute : (q : Statement) → JobRows F → StatementDraw F → StatementAnswer q × JobRows F
  | .selectJob id, t, d => attempted d t (selectJob t id, t)
  | .selectJobByKey key, t, d => attempted d t (selectJobByKey t d.order key, t)
  | .insertJob job, t, d => attempted d t (insertJob t job)
  | .updateJob job, t, d => attempted d t (updateJob t job)

def getJob (id : String) : Sql (Except Err Job) :=
  ask (.selectJob id)

def getJobByIdempotencyKey (key : String) : Sql (Except Err Job) :=
  ask (.selectJobByKey key)

def updateJobStateIf (id : String) (u : Update) : Sql (Except Err Unit) := do
  match ← getJob id with
  | .error e => .ret (.error e)
  | .ok job =>
      if u.onlyFrom ≠ [] ∧ job.state ∉ u.onlyFrom then .ret (.ok ())
      else ask (.updateJob (applyFields job u))

/-- The caller's struct as the call fills it in. -/
def stampJob (job : Job) (uuid : String) (now : Time) : Job :=
  { job with
    id := if job.id = "" then uuid else job.id
    createdAt := now
    updatedAt := now
    priority := if job.priority = 0 then 5 else job.priority }

/-- Returns the error, if any, with the caller's struct as the call leaves it. -/
def createJob (job : Job) (uuid : String) (now : Time) : Sql (Except Err Unit × Job) := do
  let job := stampJob job uuid now
  match ← ask (.insertJob job) with
  | .error e => .ret (.error e, job)
  | .ok _ =>
      if job.idempotencyKey = "" then .ret (.ok (), job)
      else
        match ← getJobByIdempotencyKey job.idempotencyKey with
        | .error _ => .ret (.ok (), job)
        | .ok existing => .ret (.ok (), if existing.id = job.id then job else existing)

/-- The columns that a field map sets, as they are stored. -/
structure ColumnFields (F : Format) where
  workerID : Option (Option NonemptyText)
  executionID : Option (Option F.UUID)
  lastError : Option (Option NonemptyText)
  attempt : Option Int4
  queuedAt : Option (Option Timestamp)
  startedAt : Option (Option Timestamp)
  completedAt : Option (Option Timestamp)
  nextRetryAt : Option (Option Timestamp)
  scheduledAt : Option (Option Timestamp)

def ColumnType.field {α κ : Type} (column : ColumnType α κ) : Option α → Option (Option κ)
  | none => some none
  | some a => (column.encode a).map some

theorem encode_getD {α κ : Type} (column : ColumnType α κ) (value : Option α) (old : κ) :
    column.encode (value.getD (column.decode old)) =
      (column.field value).map fun new => new.getD old := by
  cases value with
  | none => exact column.encode_decode old
  | some a =>
      rw [Option.getD_some, ColumnType.field, Option.map_map]
      exact Option.map_id'.symm

/-- `none` if the database does not take one of the values. -/
def encodeFields (F : Format) (fields : FieldMap) : Option (ColumnFields F) := do
  let workerID ← nullText.field fields.workerID
  let executionID ← (nullUUID F).field fields.executionID
  let lastError ← nullText.field fields.lastError
  let attempt ← int4.field fields.attempt
  let queuedAt ← nullTime.field fields.queuedAt
  let startedAt ← nullTime.field fields.startedAt
  let completedAt ← nullTime.field fields.completedAt
  let nextRetryAt ← nullTime.field fields.nextRetryAt
  let scheduledAt ← nullTime.field fields.scheduledAt
  return { workerID, executionID, lastError, attempt, queuedAt, startedAt, completedAt,
           nextRetryAt, scheduledAt }

def ColumnFields.apply (f : ColumnFields F) (u : Update) (old : JobColumns F) :
    JobColumns F where
  state := u.state
  workerID := f.workerID.getD old.workerID
  executionID := f.executionID.getD old.executionID
  lastError := f.lastError.getD old.lastError
  attempt := f.attempt.getD old.attempt
  queuedAt := f.queuedAt.getD old.queuedAt
  startedAt := f.startedAt.getD old.startedAt
  completedAt := f.completedAt.getD old.completedAt
  nextRetryAt := f.nextRetryAt.getD old.nextRetryAt
  scheduledAt := f.scheduledAt.getD old.scheduledAt
  updatedAt := microsecond u.now

/-- One column of an update: what is written after it may be read off the field map too. -/
theorem encode_bind {α κ β ζ : Type} (column : ColumnType α κ) (value : Option α) (old : κ)
    {f : κ → Option β} {g : Option κ → Option ζ} {h : ζ → β}
    (hrest : ∀ new, f (new.getD old) = (g new).map h) :
    (column.encode (value.getD (column.decode old))).bind f =
      ((column.field value).bind g).map h := by
  rw [encode_getD]
  cases column.field value with
  | none => rfl
  | some new => exact hrest new

/-- What the row is written as depends on the row read only in the columns that
the field map leaves alone. -/
theorem encodeColumns_applyFields (row : Row F) (u : Update) :
    encodeColumns F (applyFields (scanJob row) u) =
      (encodeFields F u.fields).map fun f => f.apply u row.toJobColumns := by
  refine encode_bind nullText u.fields.workerID row.workerID fun workerID => ?_
  refine encode_bind (nullUUID F) u.fields.executionID row.executionID fun executionID => ?_
  refine encode_bind nullText u.fields.lastError row.lastError fun lastError => ?_
  refine encode_bind int4 u.fields.attempt row.attempt fun attempt => ?_
  refine encode_bind nullTime u.fields.queuedAt row.queuedAt fun queuedAt => ?_
  refine encode_bind nullTime u.fields.startedAt row.startedAt fun startedAt => ?_
  refine encode_bind nullTime u.fields.completedAt row.completedAt fun completedAt => ?_
  refine encode_bind nullTime u.fields.nextRetryAt row.nextRetryAt fun nextRetryAt => ?_
  exact encode_bind nullTime u.fields.scheduledAt row.scheduledAt fun scheduledAt => rfl

/-- Identifiers as they are, and any payload. -/
def plainFormat : Format where
  UUID := { s : String // s ≠ "" }
  uuid := guardedColumn fun s => s ≠ ""
  uuid_ne_empty := fun v => v.2
  jsonb := some

end Chronos.PostgresStore
