import Chronos.AnalyticsConsumer
import Chronos.Library.MergeTree
import Mathlib.Logic.Function.Basic

namespace Chronos.AnalyticsIngestion

open Chronos.Domain
open Chronos.AnalyticsConsumer
open Chronos.Library.MergeTree

/-- A row of `chronos_events`.  The times are in milliseconds. -/
structure EventRow (U : Type) where
  eventID : U
  eventType : String
  eventVersion : UInt16
  eventTime : Int
  ingestedAt : Int
  jobID : String
  executionID : String
  workerID : String
  schedulerID : String
  attempt : UInt32
  traceID : String
  payload : RawMessage
  deriving DecidableEq

/-- How the driver and the server read ids and times: `uuid.Parse`, `DateTime64(3)` and
`toYYYYMM`. -/
structure Columns (U : Type) where
  uuidParse : String → Option U
  millis : Time → Int
  month : Int → Nat

abbrev Parts (U : Type) := List (List (EventRow U))

/-- What becomes of a batch.  It is refused before anything is sent, or the server has stored the
parts of some months only when `Send` fails, which can be all of them. -/
inductive Delivery
  | refused (e : Err)
  | lost (e : Err) (kept : Nat → Bool)
  | stored

/-- What a call of `InsertEvents` draws: the time, the new ids and the answer of the server. -/
structure Insert (U : Type) where
  now : Time
  fresh : Nat → U
  delivery : Delivery

def Insert.result {U : Type} (draw : Insert U) : Except Err Unit :=
  match draw.delivery with
  | .refused e => .error e
  | .lost e _ => .error e
  | .stored => .ok ()

section Table

variable {U : Type}

/-- The `ORDER BY` of the table. -/
def EventRow.key (row : EventRow U) : String × Int × U :=
  (row.eventType, row.eventTime, row.eventID)

/-- All that a query reads but the time of the insertion. -/
def EventRow.content (row : EventRow U) : EventRow U := { row with ingestedAt := 0 }

def eventRow (c : Columns U) (now : Time) (fresh : U) (e : EventRecord) : EventRow U where
  eventID := (c.uuidParse e.eventID).getD fresh
  eventType := e.eventType
  eventVersion := UInt16.ofInt e.eventVersion
  eventTime := c.millis (if e.eventTime = zeroTime then now else e.eventTime)
  ingestedAt := c.millis now
  jobID := e.jobID
  executionID := e.executionID
  workerID := e.workerID
  schedulerID := e.schedulerID
  attempt := UInt32.ofInt e.attempt
  traceID := e.traceID
  payload :=
    match e.payload with
    | some (byte :: bytes) => byte :: bytes
    | _ => [123, 125]

def eventRows (c : Columns U) (draw : Insert U) (events : List EventRecord) :
    List (EventRow U) :=
  events.mapIdx fun i e => eventRow c draw.now (draw.fresh i) e

/-- The server makes one part for every month of an insert. -/
def partsOf (c : Columns U) (kept : Nat → Bool) (rows : List (EventRow U)) : Parts U :=
  ((rows.map fun row => c.month row.eventTime).dedup.filter kept).map fun month =>
    rows.filter fun row => c.month row.eventTime = month

def insertEvents (c : Columns U) (draw : Insert U) (events : List EventRecord)
    (parts : Parts U) : Parts U × Except Err Unit :=
  if events = [] then (parts, .ok ())
  else
    match draw.delivery with
    | .refused e => (parts, .error e)
    | .lost e kept => (parts ++ partsOf c kept (eventRows c draw events), .error e)
    | .stored => (parts ++ partsOf c (fun _ => true) (eventRows c draw events), .ok ())

variable [DecidableEq U]

/-- The table as a query with FINAL reads it. -/
def final (parts : Parts U) : List (EventRow U) :=
  collapse EventRow.key EventRow.ingestedAt parts.flatten

def countEvents (parts : Parts U) : Nat := (final parts).length

def countByType (parts : Parts U) (eventType : String) : Nat :=
  ((final parts).filter fun row => row.eventType = eventType).length

end Table

/-- An iteration of the loop of a consumer, with what its calls draw. -/
inductive Turn (U : Type)
  | tick (draw : Insert U) (commit : Except Err Unit)
  | fetch (skip : Except Err Unit) (draw : Insert U) (commit : Except Err Unit)
  | restart

def Turn.action {U : Type} : Turn U → Action
  | .tick draw commit => .tick { insert := draw.result, commit := commit }
  | .fetch skip draw commit => .fetch skip { insert := draw.result, commit := commit }
  | .restart => .restart

inductive ReplayStatus
  | running
  | ended
  | failed (e : Err)
  deriving DecidableEq

/-- A run of event-replay into ClickHouse.  Its reader has no group, so it reads one partition
and commits nothing. -/
structure Replay (π : Type) where
  source : π
  max : Int
  position : Nat := 0
  count : Int := 0
  batch : List Nat := []
  status : ReplayStatus := .running

def Replay.full {π : Type} (r : Replay π) : Prop := 0 < r.max ∧ r.max ≤ r.count

/-- The table with the consumers of all partitions and the replays.  Rows from before the horizon
may have been removed by the TTL of the table. -/
structure Warehouse (U π ρ : Type) where
  parts : Parts U := []
  horizon : Int
  consumers : π → Consumer := fun _ => {}
  replays : ρ → Option (Replay π) := fun _ => none

section System

variable {U π ρ : Type}
variable (c : Columns U) (decode : RawMessage → Option EventRecord) (batch : Nat)
variable (logs : π → Nat → RawMessage)

def eventsAt (log : Nat → RawMessage) (offsets : List Nat) : List EventRecord :=
  offsets.filterMap fun offset => decode (log offset)

/-- The buffer that an iteration hands to `InsertEvents`, if it comes to a flush. -/
def flushOf (log : Nat → RawMessage) (s : Consumer) : Turn U → Option (Insert U × List Nat)
  | .tick draw _ => some (draw, s.pending)
  | .fetch _ draw _ =>
      if validEvent decode log s.position ∧ (s.pending ++ [s.position]).length ≥ batch then
        some (draw, s.pending ++ [s.position])
      else none
  | .restart => none

def ingest (log : Nat → RawMessage) (s : Consumer) (turn : Turn U) (parts : Parts U) : Parts U :=
  match flushOf decode batch log s turn with
  | none => parts
  | some (draw, offsets) => (insertEvents c draw (eventsAt decode log offsets) parts).1

def Replay.read (draw : Insert U) (r : Replay π) (parts : Parts U) : Replay π × Parts U :=
  match decode (logs r.source r.position) with
  | none => ({ r with position := r.position + 1 }, parts)
  | some _ =>
      let buffered := r.batch ++ [r.position]
      let next := { r with position := r.position + 1, count := r.count + 1, batch := buffered }
      if buffered.length ≥ 100 then
        match insertEvents c draw (eventsAt decode (logs r.source) buffered) parts with
        | (stored, .ok _) => ({ next with batch := [] }, stored)
        | (stored, .error e) => ({ next with status := .failed e }, stored)
      else (next, parts)

/-- The end of the loop of a replay and what follows it. -/
def Replay.leave (draw : Insert U) (r : Replay π) (parts : Parts U) : Replay π × Parts U :=
  match insertEvents c draw (eventsAt decode (logs r.source) r.batch) parts with
  | (stored, .ok _) => ({ r with batch := [], status := .ended }, stored)
  | (stored, .error e) => ({ r with status := .failed e }, stored)

variable [DecidableEq π] [DecidableEq ρ]

inductive Consumes : Warehouse U π ρ → Warehouse U π ρ → Prop
  | turn {w : Warehouse U π ρ} (p : π) (turn : Turn U) :
      Consumes w
        { w with
          parts := ingest c decode batch (logs p) (w.consumers p) turn w.parts
          consumers := Function.update w.consumers p
            (consumeTopic decode batch (logs p) (w.consumers p) turn.action) }

/-- A replay can be started at any time, and it leaves its loop when it is full, has seen no
message for long enough or is interrupted. -/
inductive Replays : Warehouse U π ρ → Warehouse U π ρ → Prop
  | start {w : Warehouse U π ρ} (r : ρ) (source : π) (max : Int) :
      Replays w
        { w with replays := Function.update w.replays r (some { source := source, max := max }) }
  | read {w : Warehouse U π ρ} (r : ρ) {replay : Replay π} (draw : Insert U)
      (hreplay : w.replays r = some replay) (hrunning : replay.status = .running)
      (hfull : ¬ replay.full) :
      Replays w
        { w with
          parts := (replay.read c decode logs draw w.parts).2
          replays := Function.update w.replays r
            (some (replay.read c decode logs draw w.parts).1) }
  | leave {w : Warehouse U π ρ} (r : ρ) {replay : Replay π} (draw : Insert U)
      (hreplay : w.replays r = some replay) (hrunning : replay.status = .running) :
      Replays w
        { w with
          parts := (replay.leave c decode logs draw w.parts).2
          replays := Function.update w.replays r
            (some (replay.leave c decode logs draw w.parts).1) }

/-- The server merges two parts of one month. -/
inductive Merges [DecidableEq U] : Warehouse U π ρ → Warehouse U π ρ → Prop
  | merge {w : Warehouse U π ρ} {left middle right : Parts U} {part part' : List (EventRow U)}
      (month : Nat) (hparts : w.parts = left ++ part :: (middle ++ part' :: right))
      (hmonth : ∀ row ∈ part ++ part', c.month row.eventTime = month) :
      Merges w
        { w with
          parts := left ++ collapse EventRow.key EventRow.ingestedAt (part ++ part') ::
            (middle ++ right) }

/-- The horizon moves on, and the server removes some of the rows from before it. -/
inductive Expires : Warehouse U π ρ → Warehouse U π ρ → Prop
  | expire {w : Warehouse U π ρ} (horizon : Int) (kept : EventRow U → Bool)
      (hhorizon : w.horizon ≤ horizon) :
      Expires w
        { w with
          horizon := horizon
          parts := w.parts.map fun part =>
            part.filter fun row => horizon ≤ row.eventTime ∨ kept row }

inductive Step [DecidableEq U] (w w' : Warehouse U π ρ) : Prop
  | consumes (h : Consumes c decode batch logs w w')
  | replays (h : Replays c decode logs w w')
  | merges (h : Merges c w w')
  | expires (h : Expires w w')

/-- The row is the one of the event. -/
structure Shows (e : EventRecord) (row : EventRow U) : Prop where
  eventID : c.uuidParse e.eventID = some row.eventID
  eventType : row.eventType = e.eventType
  eventVersion : row.eventVersion = UInt16.ofInt e.eventVersion
  eventTime : row.eventTime = c.millis e.eventTime
  jobID : row.jobID = e.jobID
  executionID : row.executionID = e.executionID
  workerID : row.workerID = e.workerID
  schedulerID : row.schedulerID = e.schedulerID
  attempt : row.attempt = UInt32.ofInt e.attempt
  traceID : row.traceID = e.traceID
  payload : row.payload = if e.payload.getD [] = [] then [123, 125] else e.payload.getD []

/-- The events on the topics have an id and a time, and copies of an event are equal. -/
structure Stamped : Prop where
  parses : ∀ {p n e}, decode (logs p n) = some e → (c.uuidParse e.eventID).isSome
  timed : ∀ {p n e}, decode (logs p n) = some e → e.eventTime ≠ zeroTime
  copies : ∀ {p n e q m e'}, decode (logs p n) = some e → decode (logs q m) = some e' →
    c.uuidParse e.eventID = c.uuidParse e'.eventID → e = e'

end System

end Chronos.AnalyticsIngestion
