import Chronos.Domain
import Chronos.Library.KeyedTable
import Chronos.Library.RelyGuarantee
import Chronos.PostgresStore
import Mathlib.Data.List.Sort

namespace Chronos.Outbox

open Chronos.Domain
open Chronos.Library.CallProgram
open Chronos.Library.CallMachine
open Chronos.Library.Interleaving
open Chronos.Library.KeyedTable
open Chronos.Library.RelyGuarantee
open Chronos.PostgresStore (Timestamp microsecond storedTime)

structure OutboxRow where
  id : String
  eventType : String
  aggregateID : String
  payload : RawMessage
  createdAt : Time
  deriving DecidableEq, Repr

structure KafkaMessage where
  topic : String
  key : String
  value : RawMessage
  time : Time
  deriving DecidableEq, Repr

structure EventTopics where
  jobEventsTopic : String
  workerEventsTopic : String
  schedulerEventsTopic : String

def topicFor (cfg : EventTopics) (eventType : String) : String :=
  if "JOB_".toList.isPrefixOf eventType.toList then cfg.jobEventsTopic
  else if "WORKER_".toList.isPrefixOf eventType.toList then cfg.workerEventsTopic
  else if "SCHEDULER_".toList.isPrefixOf eventType.toList then cfg.schedulerEventsTopic
  else cfg.jobEventsTopic

def messageFor (cfg : EventTopics) (row : OutboxRow) : KafkaMessage where
  topic := topicFor cfg row.eventType
  key := if row.aggregateID = "" then row.id else row.aggregateID
  value := row.payload
  time := row.createdAt

/-- The outbox calls of a store.  A message is written together with the id of
its row, which the publisher keeps beside it. -/
inductive OutboxCall
  | insertOutbox (event : EventRecord)
  | fetchOutboxBatch (limit : Nat)
  | writeMessages (batch : List (String × KafkaMessage))
  | markPublished (ids : List String)

abbrev OutboxAnswer : OutboxCall → Type
  | .insertOutbox _ => Except Err Unit
  | .fetchOutboxBatch _ => Except Err (List OutboxRow)
  | .writeMessages _ => Except Err Unit
  | .markPublished _ => Except Err Unit

abbrev OutboxProg := Program OutboxCall OutboxAnswer

abbrev ask (c : OutboxCall) : OutboxProg (OutboxAnswer c) := perform c

def batchFor (cfg : EventTopics) (rows : List OutboxRow) : List (String × KafkaMessage) :=
  rows.map fun row => (row.id, messageFor cfg row)

def flush (cfg : EventTopics)
    (markOutboxPublished : List String → OutboxProg (Except Err Unit)) :
    OutboxProg (Except Err Unit) := do
  match ← ask (.fetchOutboxBatch 100) with
  | .error e => .ret (.error e)
  | .ok rows =>
      if rows = [] then .ret (.ok ())
      else
        match ← ask (.writeMessages (batchFor cfg rows)) with
        | .error e => .ret (.error e)
        | .ok _ => markOutboxPublished (rows.map (·.id))

namespace Postgres

/-- One statement for each row; the first error ends the loop. -/
def markOutboxPublished : List String → OutboxProg (Except Err Unit)
  | [] => .ret (.ok ())
  | id :: ids => do
      match ← ask (.markPublished [id]) with
      | .error e => .ret (.error e)
      | .ok _ => markOutboxPublished ids

end Postgres

namespace Memory

/-- The whole removal is one critical section. -/
def markOutboxPublished (ids : List String) : OutboxProg (Except Err Unit) :=
  ask (.markPublished ids)

end Memory

/-- What a store does for each outbox call, with the rows it counts as
unpublished.  An insert can be refused. -/
structure OutboxStore (σ : Type) where
  row : EventRecord → OutboxRow
  insert : EventRecord → σ → Option σ
  fetch : Nat → List String → σ → List OutboxRow
  mark : Time → List String → σ → σ
  Unpublished : σ → OutboxRow → Prop
  row_id : ∀ event, (row event).id = event.eventID
  unpublished_insert : ∀ {event s s'}, insert event s = some s' →
    ∀ r, Unpublished s' r ↔ Unpublished s r ∨ r = row event
  unpublished_fetch : ∀ {limit order s r}, r ∈ fetch limit order s → Unpublished s r
  unpublished_mark : ∀ {now ids s r}, Unpublished (mark now ids s) r ↔
    Unpublished s r ∧ r.id ∉ ids

namespace Memory

def row (event : EventRecord) : OutboxRow where
  id := event.eventID
  eventType := event.eventType
  aggregateID := event.jobID
  payload := []
  createdAt := event.eventTime

/-- One round of the removal loop, which appends to the front of the slice that
it reads: the slice and how much of it is kept so far. -/
def keepRow (ids : List String) (state : List OutboxRow × Nat) (i : Nat) :
    List OutboxRow × Nat :=
  match state.1[i]? with
  | none => state
  | some r => if r.id ∈ ids then state else (state.1.set state.2 r, state.2 + 1)

def markPublished (ids : List String) (outbox : List OutboxRow) : List OutboxRow :=
  let (slice, remaining) := (List.range outbox.length).foldl (keepRow ids) (outbox, 0)
  slice.take remaining

/-- The loop has written only where it has already read. -/
structure Compacted (ids : List String) (outbox : List OutboxRow) (n : Nat)
    (state : List OutboxRow × Nat) : Prop where
  behind : state.2 ≤ n
  kept : state.1.take state.2 = (outbox.take n).filter fun r => r.id ∉ ids
  unread : state.1.drop n = outbox.drop n
  length : state.1.length = outbox.length

theorem compacted_step {ids : List String} {outbox : List OutboxRow} {n : Nat}
    {state : List OutboxRow × Nat} (hn : n < outbox.length)
    (hstate : Compacted ids outbox n state) :
    Compacted ids outbox (n + 1) (keepRow ids state n) := by
  obtain ⟨slice, remaining⟩ := state
  obtain ⟨hbehind, hkept, hunread, hlength⟩ := hstate
  have hread : slice[n]? = some outbox[n] := by
    have hhead := congrArg (·[0]?) hunread
    simpa [hn] using hhead
  have hunread' : slice.drop (n + 1) = outbox.drop (n + 1) := by
    rw [← List.drop_drop, hunread, List.drop_drop]
  have htake : outbox.take (n + 1) = outbox.take n ++ [outbox[n]] :=
    (List.take_concat_get' outbox n hn).symm
  simp only [keepRow, hread]
  split
  · rename_i hmarked
    refine ⟨hbehind.trans n.le_succ, ?_, hunread', hlength⟩
    rw [htake, List.filter_append, ← hkept]
    simp [hmarked]
  · rename_i hmarked
    have hroom : remaining < slice.length := hlength ▸ hbehind.trans_lt hn
    refine ⟨Nat.succ_le_succ hbehind, ?_, ?_, ?_⟩
    · rw [htake, List.filter_append, ← hkept, List.take_add_one, List.take_set_of_le le_rfl]
      simp [hmarked, hroom]
    · rw [List.drop_set_of_lt (Nat.lt_succ_of_le hbehind)]
      exact hunread'
    · rw [List.length_set]
      exact hlength

theorem markPublished_eq_filter (ids : List String) (outbox : List OutboxRow) :
    markPublished ids outbox = outbox.filter fun r => r.id ∉ ids := by
  have hloop : ∀ n, n ≤ outbox.length →
      Compacted ids outbox n ((List.range n).foldl (keepRow ids) (outbox, 0)) := by
    intro n hn
    induction n with
    | zero => exact ⟨le_rfl, by simp, rfl, rfl⟩
    | succ n ih =>
        rw [List.range_succ, List.foldl_append]
        exact compacted_step hn (ih (Nat.le_of_succ_le hn))
  have hkept := (hloop outbox.length le_rfl).kept
  rwa [List.take_length] at hkept

theorem markPublished_sublist (ids : List String) (outbox : List OutboxRow) :
    (markPublished ids outbox).Sublist outbox := by
  rw [markPublished_eq_filter]
  exact List.filter_sublist

def store : OutboxStore (List OutboxRow) where
  row := row
  insert := fun event outbox => some (outbox ++ [row event])
  fetch := fun limit _ outbox => outbox.take (min limit outbox.length)
  mark := fun _ => markPublished
  Unpublished := fun outbox r => r ∈ outbox
  row_id := fun _ => rfl
  unpublished_insert := by
    rintro event s _ ⟨⟩ r
    rw [List.mem_append, List.mem_singleton]
  unpublished_fetch := fun hr => List.mem_of_mem_take hr
  unpublished_mark := by
    intro now ids s r
    rw [markPublished_eq_filter, List.mem_filter, decide_eq_true_iff]

end Memory

namespace Postgres

/-- A row as it is scanned, and the column that only the statements read. -/
structure OutboxRecord where
  row : OutboxRow
  publishedAt : Option Timestamp := none
  deriving DecidableEq, Repr

abbrev OutboxTable := Table fun record : OutboxRecord => record.row.id

/-- `encode` is the text of the event in its `JSONB` column. -/
def row (encode : EventRecord → RawMessage) (event : EventRecord) : OutboxRow where
  id := event.eventID
  eventType := event.eventType
  aggregateID := event.jobID
  payload := encode event
  createdAt := storedTime event.eventTime

def insertOutbox (r : OutboxRow) (t : OutboxTable) : Option OutboxTable :=
  if (t.get? r.id).isSome then none else some (t.put { row := r })

/-- `order` is the order of the scan, without the rows that are locked. -/
def fetchOutboxBatch (limit : Nat) (order : List String) (t : OutboxTable) : List OutboxRow :=
  let unpublished := (t.inOrder order).filter fun record => record.publishedAt.isNone
  ((unpublished.map OutboxRecord.row).mergeSort fun r r' => r.createdAt ≤ r'.createdAt).take limit

def markPublished (now : Time) (t : OutboxTable) (id : String) : OutboxTable :=
  match t.get? id with
  | none => t
  | some record => t.put { record with publishedAt := some (microsecond now) }

def Unpublished (t : OutboxTable) (r : OutboxRow) : Prop :=
  t.get? r.id = some { row := r }

theorem unpublished_insertOutbox {r : OutboxRow} {t t' : OutboxTable}
    (hinsert : insertOutbox r t = some t') (r' : OutboxRow) :
    Unpublished t' r' ↔ Unpublished t r' ∨ r' = r := by
  unfold insertOutbox at hinsert
  split at hinsert
  · exact absurd hinsert.symm (Option.some_ne_none t')
  · rename_i hnone
    obtain rfl := Option.some.inj hinsert
    rw [Option.not_isSome_iff_eq_none] at hnone
    unfold Unpublished
    rw [get?_put]
    split
    · rename_i hid
      rw [hid, hnone, Option.some.injEq, OutboxRecord.mk.injEq, and_iff_left rfl, eq_comm]
      simp
    · rename_i hid
      constructor
      · exact Or.inl
      · rintro (hold | rfl)
        · exact hold
        · exact absurd rfl hid

theorem unpublished_fetchOutboxBatch {limit : Nat} {order : List String} {t : OutboxTable}
    {r : OutboxRow} (hr : r ∈ fetchOutboxBatch limit order t) : Unpublished t r := by
  have hsorted := List.mem_of_mem_take hr
  rw [List.mem_mergeSort, List.mem_map] at hsorted
  obtain ⟨⟨row, publishedAt⟩, hrecord, rfl⟩ := hsorted
  obtain ⟨hscanned, hunpublished⟩ := List.mem_filter.mp hrecord
  obtain rfl := Option.isNone_iff_eq_none.mp hunpublished
  exact (mem_inOrder.mp hscanned).2

theorem unpublished_markPublished {now : Time} {t : OutboxTable} {id : String}
    {r : OutboxRow} :
    Unpublished (markPublished now t id) r ↔ Unpublished t r ∧ r.id ≠ id := by
  unfold markPublished Unpublished
  split
  · rename_i hnone
    rw [iff_self_and]
    rintro hget rfl
    rw [hnone] at hget
    exact absurd hget.symm (Option.some_ne_none _)
  · rename_i record hrecord
    obtain rfl := key_of_get? hrecord
    rw [get?_put]
    split
    · rename_i hid
      simp [hid]
    · rename_i hid
      exact (and_iff_left hid).symm

theorem unpublished_foldl_markPublished {now : Time} {ids : List String} {t : OutboxTable}
    {r : OutboxRow} :
    Unpublished (ids.foldl (markPublished now) t) r ↔ Unpublished t r ∧ r.id ∉ ids := by
  induction ids generalizing t with
  | nil => simp
  | cons id ids ih =>
      rw [List.foldl_cons, ih, unpublished_markPublished, List.mem_cons, not_or, and_assoc]

def store (encode : EventRecord → RawMessage) : OutboxStore OutboxTable where
  row := row encode
  insert := fun event => insertOutbox (row encode event)
  fetch := fetchOutboxBatch
  mark := fun now ids t => ids.foldl (markPublished now) t
  Unpublished := Unpublished
  row_id := fun _ => rfl
  unpublished_insert := unpublished_insertOutbox
  unpublished_fetch := unpublished_fetchOutboxBatch
  unpublished_mark := unpublished_foldl_markPublished

end Postgres

/-- The outbox and the topics, with every row ever inserted. -/
structure Relay (σ : Type) where
  outbox : σ
  inserted : List OutboxRow := []
  written : List (String × KafkaMessage) := []

/-- What a call takes from outside.  `kept` are the messages that a failing write
still delivers, and `reached` counts the rows that a failing update still marks. -/
structure OutboxDraw where
  now : Time := 0
  order : List String := []
  fault : Option Err := none
  kept : List String := []
  reached : Nat := 0

section System

variable {σ : Type}

def relayStep (B : OutboxStore σ) :
    (c : OutboxCall) → Relay σ → OutboxDraw → OutboxAnswer c × Relay σ
  | .insertOutbox event, s, d =>
      match d.fault, B.insert event s.outbox with
      | none, some outbox =>
          (.ok (), { s with outbox := outbox, inserted := s.inserted ++ [B.row event] })
      | none, none => (.error (.external "duplicate key"), s)
      | some e, _ => (.error e, s)
  | .fetchOutboxBatch limit, s, d =>
      match d.fault with
      | none => (.ok (B.fetch limit d.order s.outbox), s)
      | some e => (.error e, s)
  | .writeMessages batch, s, d =>
      match d.fault with
      | none => (.ok (), { s with written := s.written ++ batch })
      | some e =>
          (.error e, { s with written := s.written ++ batch.filter fun m => m.1 ∈ d.kept })
  | .markPublished ids, s, d =>
      match d.fault with
      | none => (.ok (), { s with outbox := B.mark d.now ids s.outbox })
      | some e => (.error e, { s with outbox := B.mark d.now (ids.take d.reached) s.outbox })

/-- Event ids are distinct: an insert carries one that no inserted row has. -/
def relayMachine (B : OutboxStore σ) : Machine OutboxCall OutboxAnswer (Relay σ) OutboxDraw where
  step := relayStep B
  Allowed := fun s c _ =>
    match c with
    | .insertOutbox event => ∀ r ∈ s.inserted, r.id ≠ event.eventID
    | _ => True

instance (B : OutboxStore σ) (s : Relay σ) (c : OutboxCall) (d : OutboxDraw) :
    Decidable ((relayMachine B).Allowed s c d) :=
  match c with
  | .insertOutbox event =>
      inferInstanceAs (Decidable (∀ r ∈ s.inserted, r.id ≠ event.eventID))
  | .fetchOutboxBatch _ => inferInstanceAs (Decidable True)
  | .writeMessages _ => inferInstanceAs (Decidable True)
  | .markPublished _ => inferInstanceAs (Decidable True)

inductive OutboxTask
  | insertOutbox (event : EventRecord)
  | flush

/-- Any number of inserts and flushes, step by step in any order.  A flush that
stops for good is one that makes no further step. -/
def relay (B : OutboxStore σ) (cfg : EventTopics)
    (markOutboxPublished : List String → OutboxProg (Except Err Unit)) :
    System OutboxCall OutboxAnswer (Relay σ) OutboxDraw OutboxTask (Except Err Unit) where
  machine := relayMachine B
  body
    | .insertOutbox event => ask (.insertOutbox event)
    | .flush => flush cfg markOutboxPublished
  start := fun p _ => some p.state
  finish := fun _ _ _ s => s

end System

/-- A publisher marks only rows that a write of its own has delivered, and writes
the messages of the rows it fetched.  The phase holds both. -/
def publishing (cfg : EventTopics) :
    Protocol OutboxCall OutboxAnswer (List OutboxRow × List OutboxRow) where
  Admits
    | (fetched, _), .writeMessages batch => batch = batchFor cfg fetched
    | (_, sent), .markPublished ids => ∀ id ∈ ids, ∃ r ∈ sent, r.id = id
    | _, _ => True
  after
    | (_, sent), .fetchOutboxBatch _, .ok rows => (rows, sent)
    | (fetched, _), .writeMessages _, .ok _ => (fetched, fetched)
    | phase, _, _ => phase

/-- A way to mark rows that marks no others. -/
def MarksSent (cfg : EventTopics)
    (markOutboxPublished : List String → OutboxProg (Except Err Unit)) : Prop :=
  ∀ (fetched sent : List OutboxRow) (ids : List String), (∀ id ∈ ids, ∃ r ∈ sent, r.id = id) →
    (markOutboxPublished ids).Follows (publishing cfg) (fun _ _ => True) (fetched, sent)

theorem Memory.marksSent (cfg : EventTopics) :
    MarksSent cfg Memory.markOutboxPublished := by
  intro fetched sent ids hids
  exact ⟨hids, fun _ => trivial⟩

theorem Postgres.marksSent (cfg : EventTopics) :
    MarksSent cfg Postgres.markOutboxPublished := by
  intro fetched sent ids hids
  induction ids with
  | nil => trivial
  | cons id ids ih =>
      refine (follows_perform ..).mpr ⟨?_, fun marked => ?_⟩
      · intro id' hid'
        rw [List.mem_singleton.mp hid']
        exact hids id List.mem_cons_self
      · cases marked with
        | error e => trivial
        | ok _ => exact ih fun id' hid' => hids id' (List.mem_cons_of_mem _ hid')

theorem flush_follows {cfg : EventTopics}
    {markOutboxPublished : List String → OutboxProg (Except Err Unit)}
    (hmark : MarksSent cfg markOutboxPublished) :
    (flush cfg markOutboxPublished).Follows (publishing cfg) (fun _ _ => True) ([], []) := by
  refine (follows_perform ..).mpr ⟨trivial, fun listed => ?_⟩
  cases listed with
  | error e => trivial
  | ok rows =>
      dsimp only
      split
      · trivial
      · refine (follows_perform ..).mpr ⟨rfl, fun written => ?_⟩
        cases written with
        | error e => trivial
        | ok _ =>
            apply hmark rows rows
            intro id hid
            obtain ⟨r, hr, rfl⟩ := List.mem_map.mp hid
            exact ⟨r, hr, rfl⟩

instance {σ : Type} (B : OutboxStore σ) (cfg : EventTopics)
    (markOutboxPublished : List String → OutboxProg (Except Err Unit)) (s : Relay σ)
    (c : OutboxCall) (d : OutboxDraw) :
    Decidable ((relay B cfg markOutboxPublished).machine.Allowed s c d) :=
  inferInstanceAs (Decidable ((relayMachine B).Allowed s c d))

section Invariant

variable {σ : Type} {B : OutboxStore σ} {cfg : EventTopics}

/-- Every inserted row is unpublished or on its topic. -/
structure Kept (B : OutboxStore σ) (cfg : EventTopics) (s : Relay σ) : Prop where
  distinct : ∀ r ∈ s.inserted, ∀ r' ∈ s.inserted, r.id = r'.id → r = r'
  inserted : ∀ r, B.Unpublished s.outbox r → r ∈ s.inserted
  kept : ∀ r ∈ s.inserted, B.Unpublished s.outbox r ∨ (r.id, messageFor cfg r) ∈ s.written

structure Grows (s s' : Relay σ) : Prop where
  inserted : ∀ r ∈ s.inserted, r ∈ s'.inserted
  written : ∀ m ∈ s.written, m ∈ s'.written

/-- What a publisher knows of the rows it has fetched and of those it has sent. -/
structure Published (cfg : EventTopics) (phase : List OutboxRow × List OutboxRow)
    (s : Relay σ) : Prop where
  fetched : ∀ r ∈ phase.1, r ∈ s.inserted
  sent : ∀ r ∈ phase.2, r ∈ s.inserted ∧ (r.id, messageFor cfg r) ∈ s.written

theorem grows_refl (s : Relay σ) : Grows s s :=
  ⟨fun _ hr => hr, fun _ hm => hm⟩

theorem published_grows {s s' : Relay σ} {phase : List OutboxRow × List OutboxRow}
    (hgrows : Grows s s') (hphase : Published cfg phase s) : Published cfg phase s' where
  fetched := fun r hr => hgrows.inserted r (hphase.fetched r hr)
  sent := fun r hr =>
    ⟨hgrows.inserted r (hphase.sent r hr).1, hgrows.written _ (hphase.sent r hr).2⟩

theorem kept_insert {s : Relay σ} {event : EventRecord} {outbox : σ} (hs : Kept B cfg s)
    (hfresh : ∀ r ∈ s.inserted, r.id ≠ event.eventID)
    (hinsert : B.insert event s.outbox = some outbox) :
    Kept B cfg { s with outbox := outbox, inserted := s.inserted ++ [B.row event] } where
  distinct := by
    intro r hr r' hr' hid
    rw [List.mem_append, List.mem_singleton] at hr hr'
    rcases hr with hr | rfl <;> rcases hr' with hr' | rfl
    · exact hs.distinct r hr r' hr' hid
    · exact absurd (hid.trans (B.row_id event)) (hfresh r hr)
    · exact absurd (hid.symm.trans (B.row_id event)) (hfresh r' hr')
    · rfl
  inserted := by
    intro r hr
    rw [List.mem_append, List.mem_singleton]
    exact ((B.unpublished_insert hinsert r).mp hr).imp_left (hs.inserted r)
  kept := by
    intro r hr
    rw [List.mem_append, List.mem_singleton] at hr
    rcases hr with hr | rfl
    · rcases hs.kept r hr with hunpublished | hwritten
      · exact Or.inl ((B.unpublished_insert hinsert r).mpr (Or.inl hunpublished))
      · exact Or.inr hwritten
    · exact Or.inl ((B.unpublished_insert hinsert _).mpr (Or.inr rfl))

theorem kept_write {s : Relay σ} (hs : Kept B cfg s) (batch : List (String × KafkaMessage)) :
    Kept B cfg { s with written := s.written ++ batch } where
  distinct := hs.distinct
  inserted := hs.inserted
  kept := fun r hr => (hs.kept r hr).imp_right (List.mem_append_left _)

theorem kept_mark {s : Relay σ} {sent : List OutboxRow} {ids : List String}
    (hs : Kept B cfg s)
    (hsent : ∀ r ∈ sent, r ∈ s.inserted ∧ (r.id, messageFor cfg r) ∈ s.written)
    (hids : ∀ id ∈ ids, ∃ r ∈ sent, r.id = id) (now : Time) :
    Kept B cfg { s with outbox := B.mark now ids s.outbox } where
  distinct := hs.distinct
  inserted := fun r hr => hs.inserted r (B.unpublished_mark.mp hr).1
  kept := by
    intro r hr
    by_cases hid : r.id ∈ ids
    · obtain ⟨r', hr', hrr'⟩ := hids r.id hid
      obtain ⟨hinserted, hwritten⟩ := hsent r' hr'
      obtain rfl := hs.distinct r' hinserted r hr hrr'
      exact Or.inr hwritten
    · exact (hs.kept r hr).imp_left fun hunpublished =>
        B.unpublished_mark.mpr ⟨hunpublished, hid⟩

theorem grows_write (s : Relay σ) (batch : List (String × KafkaMessage)) :
    Grows s { s with written := s.written ++ batch } :=
  ⟨fun _ hr => hr, fun _ hm => List.mem_append_left _ hm⟩

theorem published_write {s : Relay σ} {fetched sent : List OutboxRow}
    (hphase : Published cfg (fetched, sent) s) :
    Published cfg (fetched, fetched) { s with written := s.written ++ batchFor cfg fetched } where
  fetched := hphase.fetched
  sent := by
    intro r hr
    refine ⟨hphase.fetched r hr, List.mem_append_right _ ?_⟩
    exact List.mem_map_of_mem hr

theorem relay_call {s : Relay σ} {phase : List OutboxRow × List OutboxRow} {c : OutboxCall}
    {d : OutboxDraw} (hs : Kept B cfg s) (hphase : Published cfg phase s)
    (hadmits : (publishing cfg).Admits phase c) (hallowed : (relayMachine B).Allowed s c d) :
    Kept B cfg (relayStep B c s d).2 ∧ Grows s (relayStep B c s d).2 ∧
      Published cfg ((publishing cfg).after phase c (relayStep B c s d).1)
        (relayStep B c s d).2 := by
  obtain ⟨fetched, sent⟩ := phase
  cases c with
  | insertOutbox event =>
      simp only [relayStep]
      split
      · rename_i outbox _ hinsert
        have hgrows : Grows s
            { s with outbox := outbox, inserted := s.inserted ++ [B.row event] } :=
          ⟨fun _ hr => List.mem_append_left _ hr, fun _ hm => hm⟩
        exact ⟨kept_insert hs hallowed hinsert, hgrows, published_grows hgrows hphase⟩
      · exact ⟨hs, grows_refl s, hphase⟩
      · exact ⟨hs, grows_refl s, hphase⟩
  | fetchOutboxBatch limit =>
      simp only [relayStep]
      split
      · refine ⟨hs, grows_refl s, ?_, hphase.sent⟩
        intro r hr
        exact hs.inserted r (B.unpublished_fetch hr)
      · exact ⟨hs, grows_refl s, hphase⟩
  | writeMessages batch =>
      obtain rfl : batch = batchFor cfg fetched := hadmits
      simp only [relayStep]
      split
      · exact ⟨kept_write hs _, grows_write s _, published_write hphase⟩
      · exact ⟨kept_write hs _, grows_write s _, published_grows (grows_write s _) hphase⟩
  | markPublished ids =>
      simp only [relayStep]
      split
      · exact ⟨kept_mark hs hphase.sent hadmits d.now,
          ⟨fun _ hr => hr, fun _ hm => hm⟩, hphase.fetched, hphase.sent⟩
      · have hreached : ∀ id ∈ ids.take d.reached, ∃ r ∈ sent, r.id = id :=
          fun id hid => hadmits id (List.mem_of_mem_take hid)
        exact ⟨kept_mark hs hphase.sent hreached d.now,
          ⟨fun _ hr => hr, fun _ hm => hm⟩, hphase.fetched, hphase.sent⟩

def relayOutline (B : OutboxStore σ) (cfg : EventTopics)
    {markOutboxPublished : List String → OutboxProg (Except Err Unit)}
    (hmark : MarksSent cfg markOutboxPublished) :
    Outline (relay B cfg markOutboxPublished) (publishing cfg) where
  Inv := Kept B cfg
  Holds := Published cfg
  Rely := Grows
  Final := fun _ _ _ => True
  stable := published_grows
  start := by
    rintro p task _ hinv ⟨⟩
    refine ⟨hinv, grows_refl _, ([], []), ⟨by simp, by simp⟩, ?_⟩
    cases task with
    | insertOutbox event => exact ⟨trivial, fun _ => trivial⟩
    | flush => exact flush_follows hmark
  call := relay_call
  finish := fun _ hinv _ _ => ⟨hinv, grows_refl _⟩

/-- What holds of every state that inserts and flushes can reach, for any store
that keeps the laws and any way of marking that marks only what was sent. -/
theorem kept_of_reaches {markOutboxPublished : List String → OutboxProg (Except Err Unit)}
    (hmark : MarksSent cfg markOutboxPublished) {outbox : σ}
    (hempty : ∀ r, ¬ B.Unpublished outbox r)
    {p : Pool OutboxCall OutboxAnswer (Relay σ) OutboxTask (Except Err Unit)}
    (hreach : (relay B cfg markOutboxPublished).Reaches (fun _ _ => True)
      ⟨{ outbox := outbox }, []⟩ p) : Kept B cfg p.state := by
  refine (valid_reaches (relayOutline B cfg hmark) hreach ⟨?_, by simp⟩).1
  exact ⟨by simp, fun r hr => absurd hr (hempty r), by simp⟩

end Invariant

abbrev RelayPool (σ : Type) := Pool OutboxCall OutboxAnswer (Relay σ) OutboxTask (Except Err Unit)

abbrev Postgres.relay (cfg : EventTopics) (encode : EventRecord → RawMessage) :=
  Outbox.relay (Postgres.store encode) cfg Postgres.markOutboxPublished

abbrev Memory.relay (cfg : EventTopics) :=
  Outbox.relay Memory.store cfg Memory.markOutboxPublished

theorem Memory.ordered_call (c : OutboxCall) {s : Relay (List OutboxRow)}
    (hs : s.outbox.Sublist s.inserted) (d : OutboxDraw) :
    (relayStep Memory.store c s d).2.outbox.Sublist
      (relayStep Memory.store c s d).2.inserted := by
  cases c with
  | insertOutbox event =>
      simp only [relayStep]
      split
      · rename_i outbox _ hinsert
        obtain rfl : s.outbox ++ [Memory.row event] = outbox := Option.some.inj hinsert
        exact hs.append_right _
      · exact hs
      · exact hs
  | fetchOutboxBatch limit =>
      simp only [relayStep]
      split <;> exact hs
  | writeMessages batch =>
      simp only [relayStep]
      split <;> exact hs
  | markPublished ids =>
      simp only [relayStep]
      split <;> exact (markPublished_sublist _ _).trans hs

theorem Memory.ordered_of_reaches {cfg : EventTopics} {p : RelayPool (List OutboxRow)}
    (hreach : (Memory.relay cfg).Reaches (fun _ _ => True) ⟨{ outbox := [] }, []⟩ p) :
    p.state.outbox.Sublist p.state.inserted := by
  refine reaches_invariant (I := fun p => p.state.outbox.Sublist p.state.inserted)
    (fun p label q hp _ hstep => ?_) hreach (List.Sublist.refl _)
  cases hstep with
  | start hstart =>
      obtain rfl := Option.some.inj hstart
      exact hp
  | advance hallowed => exact Memory.ordered_call _ hp _
  | finish d => exact hp

/-- No event is lost in either outbox, and the memory outbox keeps the order of
the inserts. -/
theorem outbox_loses_no_event (cfg : EventTopics) (encode : EventRecord → RawMessage)
    {p : RelayPool Postgres.OutboxTable} {q : RelayPool (List OutboxRow)}
    (hp : (Postgres.relay cfg encode).Reaches (fun _ _ => True)
      ⟨{ outbox := Table.empty }, []⟩ p)
    (hq : (Memory.relay cfg).Reaches (fun _ _ => True) ⟨{ outbox := [] }, []⟩ q) :
    (∀ r ∈ p.state.inserted,
      p.state.outbox.get? r.id = some { row := r, publishedAt := none } ∨
        (r.id, messageFor cfg r) ∈ p.state.written) ∧
    (∀ r ∈ q.state.inserted,
      r ∈ q.state.outbox ∨ (r.id, messageFor cfg r) ∈ q.state.written) ∧
    q.state.outbox.Sublist q.state.inserted := by
  have hpostgres : Kept (Postgres.store encode) cfg p.state := by
    refine kept_of_reaches (Postgres.marksSent cfg) (fun r hr => ?_) hp
    exact absurd (hr.symm.trans (get?_empty r.id)) (Option.some_ne_none _)
  have hmemory : Kept Memory.store cfg q.state :=
    kept_of_reaches (Memory.marksSent cfg) (fun _ => List.not_mem_nil) hq
  exact ⟨hpostgres.kept, hmemory.kept, Memory.ordered_of_reaches hq⟩

def createdEvent (id : String) : EventRecord where
  eventID := id
  eventType := "JOB_CREATED"
  eventTime := 1000

def topics : EventTopics :=
  ⟨"chronos.job-events", "chronos.worker-events", "chronos.scheduler-events"⟩

/-- One event goes through a whole flush, and another one arrives before the mark. -/
def flushMoves : List (Move OutboxTask OutboxDraw) :=
  [.start (.insertOutbox (createdEvent "event-1")), .advance 0 {}, .finish 0 {},
    .start .flush, .advance 0 { order := ["event-1"] }, .advance 0 {},
    .start (.insertOutbox (createdEvent "event-2")), .advance 1 {}, .advance 0 {}]

theorem flushed_event_written_late_event_kept :
    ∃ (p : RelayPool Postgres.OutboxTable) (q : RelayPool (List OutboxRow)),
      p.state.inserted.map (·.id) = ["event-1", "event-2"] ∧
      q.state.outbox.map (·.id) = ["event-2"] ∧
      (∀ r ∈ p.state.inserted,
        p.state.outbox.get? r.id = some { row := r, publishedAt := none } ∨
          (r.id, messageFor topics r) ∈ p.state.written) ∧
      (∀ r ∈ q.state.inserted,
        r ∈ q.state.outbox ∨ (r.id, messageFor topics r) ∈ q.state.written) ∧
      q.state.outbox.Sublist q.state.inserted := by
  let p := ((Postgres.relay topics fun _ => []).follow (fun _ _ => true)
    ⟨{ outbox := Table.empty }, []⟩ flushMoves).get (by decide +kernel)
  let q := ((Memory.relay topics).follow (fun _ _ => true)
    ⟨{ outbox := [] }, []⟩ flushMoves).get (by decide +kernel)
  refine ⟨p, q, by decide +kernel, by decide +kernel,
    outbox_loses_no_event topics (fun _ => []) ?_ ?_⟩
  · exact reaches_of_follow (fun _ _ _ => trivial) (Option.some_get _).symm
  · exact reaches_of_follow (fun _ _ _ => trivial) (Option.some_get _).symm

end Chronos.Outbox
