import Chronos.MemoryStore
import Chronos.OneJobPerKey

namespace Chronos.PostgresTables

open Chronos.Domain
open Chronos.Library.CallProgram
open Chronos.Library.KeyedTable
open Chronos.MemoryStore (defaultLimit stampExecution)
open Chronos.OneJobPerKey.Postgres
open Chronos.PostgresStore

/-- A row of the table of executions.  Nothing writes its `started_at`. -/
structure ExecutionRow (F : Format) where
  id : F.UUID
  jobID : F.UUID
  workerID : Text
  attempt : Int4
  state : ExecutionState
  finishedAt : Option Timestamp := none
  durationMs : Option Int := none
  error : Option NonemptyText := none
  output : Option RawMessage := none
  retryable : Bool := false
  createdAt : Timestamp
  deriving DecidableEq

abbrev ExecutionRows (F : Format) := Table (ExecutionRow.id (F := F))

/-- The two tables that hold jobs.  An execution always refers to a stored job. -/
structure Database (F : Format) where
  jobs : JobRows F
  executions : ExecutionRows F
  references : ∀ {id : F.UUID} {ex : ExecutionRow F}, executions.get? id = some ex →
    ∃ row, jobs.get? ex.jobID = some row

variable {F : Format}

def Database.empty : Database F where
  jobs := .empty
  executions := .empty
  references := by
    intro id ex hex
    rw [get?_empty] at hex
    exact absurd hex.symm (Option.some_ne_none ex)

/-- The statements of one call, of which none fails, with the order in which they scan the
table. -/
def runSql {α : Type} (order : List F.UUID) : Sql α → JobRows F → α × JobRows F
  | .ret value, t => (value, t)
  | .call q next, t =>
      runSql order (next (execute q t { order := order }).1) (execute q t { order := order }).2

theorem keepsKeys_trans {t t' t'' : JobRows F} (h : KeepsKeys t t') (h' : KeepsKeys t' t'') :
    KeepsKeys t t'' := by
  intro row hrow
  obtain ⟨row', hrow', hkey⟩ := h row hrow
  have hid := key_of_get? hrow'
  obtain ⟨row'', hrow'', hkey'⟩ := h' row' (hid ▸ hrow')
  exact ⟨row'', hid ▸ hrow'', hkey'.trans hkey⟩

theorem runSql_keepsKeys {α : Type} (order : List F.UUID) (p : Sql α) (t : JobRows F) :
    KeepsKeys t (runSql order p t).2 := by
  induction p generalizing t with
  | ret value => exact keepsKeys_refl t
  | call q next ih => exact keepsKeys_trans (effect_keepsKeys (execute_effect q t _)) (ih _ _)

def Database.run {α : Type} (db : Database F) (order : List F.UUID) (p : Sql α) :
    α × Database F :=
  let r := runSql order p db.jobs
  (r.1, { db with
    jobs := r.2
    references := by
      intro id ex hex
      obtain ⟨row, hrow⟩ := db.references hex
      have hid := key_of_get? hrow
      rw [← hid] at hrow ⊢
      obtain ⟨row', hrow', -⟩ := runSql_keepsKeys order p db.jobs row hrow
      exact ⟨row', hrow'⟩ })

section Listings

/-- `WHERE select ORDER BY le LIMIT limit`; rows that tie stay in the order of the scan. -/
def selectJobs (t : JobRows F) (order : List F.UUID) (select : Row F → Bool)
    (le : Row F → Row F → Bool) (limit : Int) : List Job :=
  ((((t.inOrder order).filter select).mergeSort le).take limit.toNat).map scanJob

def listJobs (t : JobRows F) (order : List F.UUID) (state : Option JobState) (limit : Int) :
    List Job :=
  selectJobs t order (fun row => match state with
    | none => true
    | some state => row.state == state) (fun a b => decide (b.createdAt ≤ a.createdAt))
    (defaultLimit limit)

def nullsFirst : Option Timestamp → Option Timestamp → Bool
  | none, _ => true
  | some _, none => false
  | some a, some b => decide (a ≤ b)

def dueRow (now : Timestamp) (row : Row F) : Bool :=
  (row.state == .scheduled && row.scheduledAt.any fun t => decide (t ≤ now)) ||
    (row.state == .retrying && row.nextRetryAt.any fun t => decide (t ≤ now))

def duePrecedes (a b : Row F) : Bool :=
  decide (b.priority.val < a.priority.val) ||
    (a.priority == b.priority && nullsFirst a.scheduledAt b.scheduledAt)

/-- No default for the limit here: a negative one fails the statement. -/
def listDueScheduled (t : JobRows F) (order : List F.UUID) (now : Timestamp) (limit : Int) :
    Except Err (List Job) :=
  if limit < 0 then .error (.external "LIMIT must not be negative")
  else .ok (selectJobs t order (dueRow now) duePrecedes limit)

def listCancelRequested (t : JobRows F) (order : List F.UUID) (limit : Int) : List Job :=
  selectJobs t order (fun row => row.state == .cancelRequested)
    (fun a b => decide (a.updatedAt ≤ b.updatedAt)) (defaultLimit limit)

/-- `started_at + (timeout_ms || ' milliseconds')::interval < $1`, in microseconds.  The
milliseconds of the row are taken as they are, also if they are not positive. -/
def timedOutRow (now : Timestamp) (row : Row F) : Bool :=
  (row.state == .running || row.state == .assigned) &&
    row.startedAt.any fun startedAt => decide (startedAt + row.timeoutMs * 1000 < now)

def listTimedOutRunning (t : JobRows F) (order : List F.UUID) (now : Timestamp) (limit : Int) :
    List Job :=
  selectJobs t order (timedOutRow now) (fun a b => nullsFirst a.startedAt b.startedAt)
    (defaultLimit limit)

end Listings

section Executions

def foreignKey : Err := .external "insert or update violates foreign key constraint"

def encodeExecution (F : Format) (ex : JobExecution) : Option (ExecutionRow F) := do
  let id ← F.uuid.encode ex.id
  let jobID ← F.uuid.encode ex.jobID
  let workerID ← text.encode ex.workerID
  let attempt ← int4.encode ex.attempt
  let createdAt ← timestamptz.encode ex.createdAt
  return { id, jobID, workerID, attempt, state := ex.state, createdAt }

def createExecution (db : Database F) (ex : JobExecution) (uuid : String) (now : Time) :
    Except Err Unit × Database F :=
  match encodeExecution F (stampExecution ex uuid now) with
  | none => (.error invalidValue, db)
  | some row =>
      if (db.executions.get? row.id).isSome then (.error duplicateKey, db)
      else
        match hjob : db.jobs.get? row.jobID with
        | none => (.error foreignKey, db)
        | some job =>
            (.ok (), { db with
              executions := db.executions.put row
              references := by
                intro id ex hex
                rw [get?_put] at hex
                split at hex
                · obtain rfl := Option.some.inj hex
                  exact ⟨job, hjob⟩
                · exact db.references hex })

def encodeOutput (F : Format) : Option RawMessage → Option (Option RawMessage)
  | none => some none
  | some output => (F.jsonb output).map some

def ExecutionRow.finish (row : ExecutionRow F) (state : ExecutionState)
    (result : ExecutionResult) (error : Option NonemptyText) (output : Option RawMessage)
    (now : Time) : ExecutionRow F :=
  { row with
    state := state
    finishedAt := some (microsecond now)
    durationMs := some (milliseconds result.duration)
    error := error
    output := output
    retryable := result.retryable }

/-- An update of no row is no error. -/
def finishExecution (db : Database F) (id : String) (state : ExecutionState)
    (result : ExecutionResult) (now : Time) : Except Err Unit × Database F :=
  match F.uuid.encode id, nullText.encode result.error, encodeOutput F result.output with
  | some id, some error, some output =>
      match hex : db.executions.get? id with
      | none => (.ok (), db)
      | some row =>
          (.ok (), { db with
            executions := db.executions.put (row.finish state result error output now)
            references := by
              intro id ex hput
              rw [get?_put] at hput
              split at hput
              · obtain rfl := Option.some.inj hput
                have hjob : ∃ job, db.jobs.get? row.jobID = some job := db.references hex
                exact hjob
              · exact db.references hput })
  | _, _, _ => (.error invalidValue, db)

end Executions

end Chronos.PostgresTables
