import Chronos.PostgresStore

namespace Chronos.PostgresWorkers

open Chronos.Domain
open Chronos.Library.KeyedTable
open Chronos.PostgresStore

/-- A row of the table of workers, whose times are kept to the microsecond. -/
structure WorkerRow where
  id : Text
  address : Text
  status : WorkerStatus
  capacity : Int4
  activeJobs : Int4
  lastHeartbeat : Timestamp
  registeredAt : Timestamp
  deriving DecidableEq

def WorkerRow.name (row : WorkerRow) : String := text.decode row.id

abbrev WorkerRows := Table WorkerRow.name

def encodeWorker (w : Worker) : Option WorkerRow := do
  let id ← text.encode w.id
  let address ← text.encode w.address
  let capacity ← int4.encode w.capacity
  let activeJobs ← int4.encode w.activeJobs
  let lastHeartbeat ← timestamptz.encode w.lastHeartbeat
  let registeredAt ← timestamptz.encode w.registeredAt
  return { id, address, status := w.status, capacity, activeJobs, lastHeartbeat, registeredAt }

/-- A worker that is known keeps the time of its first registration. -/
def upsertWorker (t : WorkerRows) (w : Worker) : Except Err Unit × WorkerRows :=
  match encodeWorker w with
  | none => (.error invalidValue, t)
  | some row =>
      match t.get? row.name with
      | none => (.ok (), t.put row)
      | some old => (.ok (), t.put { row with registeredAt := old.registeredAt })

/-- How an `UPDATE … RETURNING` ends: with all its rows, refused without an effect, with a
row that does not scan, or with its rows cut off. -/
inductive Outcome
  | done
  | refused (e : Err)
  | unscanned (e : Err)
  | cut (read : Nat) (e : Err)
  deriving DecidableEq, Repr

/-- What `MarkStaleWorkers` takes from outside: its two readings of the clock, and for each
of its statements the order of the rows and how it ends. -/
structure MarkDraw where
  suspectAt : Time := 0
  deadAt : Time := 0
  rows : List String := []
  first : Outcome := .done
  rows2 : List String := []
  second : Outcome := .done

def WorkerRow.setStatus (row : WorkerRow) (status : WorkerStatus) : WorkerRow :=
  { row with status := status }

/-- `UPDATE workers SET status = … WHERE … RETURNING id`. -/
def updateWorkers (t : WorkerRows) (rows : List String) (status : WorkerStatus)
    (select : WorkerRow → Bool) : List String × WorkerRows :=
  let matched := (t.inOrder rows).filter select
  (matched.map WorkerRow.name, (matched.map fun row => row.setStatus status).foldl Table.put t)

def dead (deadBefore : Timestamp) (row : WorkerRow) : Bool :=
  (row.status == .healthy || row.status == .suspected) &&
    decide (row.lastHeartbeat < deadBefore)

def stale (suspectBefore deadBefore : Timestamp) (row : WorkerRow) : Bool :=
  row.status == .healthy &&
    decide (row.lastHeartbeat < suspectBefore ∧ deadBefore ≤ row.lastHeartbeat)

/-- The cut-off as the parameter of a statement carries it. -/
def cutoff (now : Time) (age : Duration) : Timestamp := microsecond (now - age)

/-- `MarkStaleWorkers` of the Postgres store.  Each statement is committed on its own; the
results are the suspected ids, the unavailable ids and the error. -/
def markStaleWorkers (heartbeatTimeout grace : Duration) (t : WorkerRows) (d : MarkDraw) :
    (List String × List String × Option Err) × WorkerRows :=
  let suspectBefore := cutoff d.suspectAt heartbeatTimeout
  let deadBefore := cutoff d.deadAt (heartbeatTimeout + grace)
  let update := updateWorkers t d.rows .unavailable (dead deadBefore)
  match d.first with
  | .refused e => (([], [], some e), t)
  | .unscanned e => (([], [], some e), update.2)
  | .cut _ e => (([], [], some e), update.2)
  | .done =>
      let update2 := updateWorkers update.2 d.rows2 .suspected (stale suspectBefore deadBefore)
      match d.second with
      | .refused e => (([], update.1, some e), update.2)
      | .unscanned e => (([], update.1, some e), update2.2)
      | .cut read e => ((update2.1.take read, update.1, some e), update2.2)
      | .done => ((update2.1, update.1, none), update2.2)

end Chronos.PostgresWorkers
