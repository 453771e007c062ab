import Chronos.Outbox

namespace Chronos.EventKeys

open Chronos.Domain
open Chronos.Library.Interleaving
open Chronos.Library.KeyedTable
open Chronos.Library.RelyGuarantee
open Chronos.Outbox

structure EventPublisher where
  schedulerID : String

/-- The event that `Emit` builds, with the id and the time it draws. -/
def EventPublisher.event (p : EventPublisher) (eventID : String) (now : Time) (event : Event)
    (payload : Option RawMessage) : EventRecord where
  eventID := eventID
  eventType := event.eventType.text
  eventVersion := 1
  eventTime := now
  jobID := event.jobID
  executionID := event.executionID
  workerID := event.workerID
  schedulerID := p.schedulerID
  attempt := event.attempt
  payload := payload

/-- `none` is a publisher without a store.  `payload` is what `json.Marshal` makes
of the payload, if there is one. -/
def emit (p : Option EventPublisher) (eventID : String) (now : Time) (event : Event)
    (payload : Option (Except Err RawMessage)) : OutboxProg (Except Err Unit) :=
  match p, payload with
  | none, _ => .ret (.ok ())
  | some _, some (.error e) => .ret (.error e)
  | some p, some (.ok raw) => ask (.insertOutbox (p.event eventID now event (some raw)))
  | some p, none => ask (.insertOutbox (p.event eventID now event none))

/-- What an event is about. -/
inductive Entity
  | job (jobID : String)
  | worker (workerID : String)
  | scheduler (schedulerID : String)
  deriving DecidableEq

def EventPublisher.entity (p : EventPublisher) (event : Event) : Entity :=
  match event.eventType with
  | .jobCreated | .jobScheduled | .jobQueued | .jobAssigned | .jobStarted | .jobCompleted
  | .jobFailed | .jobRetryScheduled | .jobCancelRequested | .jobCancelled | .jobTimeout
  | .jobExpired => .job event.jobID
  | .workerRegistered | .workerHeartbeat | .workerCapacityChanged | .workerUnavailable
  | .workerRecovered | .workerDeregistered => .worker event.workerID
  | .schedulerStarted | .schedulerStopped | .schedulerLeaderAcquired | .schedulerLeaderLost
  | .schedulerRebalanced => .scheduler p.schedulerID

def Entity.topic (cfg : EventTopics) : Entity → String
  | .job _ => cfg.jobEventsTopic
  | .worker _ => cfg.workerEventsTopic
  | .scheduler _ => cfg.schedulerEventsTopic

theorem topicFor_text (cfg : EventTopics) (p : EventPublisher) (event : Event) :
    topicFor cfg event.eventType.text = (p.entity event).topic cfg := by
  obtain ⟨eventType, jobID, executionID, workerID, attempt⟩ := event
  cases eventType <;> simp [topicFor, EventType.text, EventPublisher.entity, Entity.topic]

/-- Unless it is refused, an emit is a task of the relay. -/
theorem emit_eq_body (cfg : EventTopics) (encode : EventRecord → RawMessage)
    (p : EventPublisher) (eventID : String) (now : Time) (event : Event)
    (payload : Option RawMessage) :
    emit (some p) eventID now event (payload.map .ok) =
      (Postgres.relay cfg encode).body (.insertOutbox (p.event eventID now event payload)) := by
  cases payload <;> rfl

section Written

variable {σ : Type} {B : OutboxStore σ} {cfg : EventTopics}

/-- What is on the topics is the messages of inserted rows. -/
def Sent (cfg : EventTopics) (s : Relay σ) : Prop :=
  ∀ entry ∈ s.written, ∃ r ∈ s.inserted, entry = (r.id, messageFor cfg r)

theorem sent_write {s : Relay σ} {fetched : List OutboxRow} (hs : Sent cfg s)
    (hfetched : ∀ r ∈ fetched, r ∈ s.inserted) {batch : List (String × KafkaMessage)}
    (hbatch : ∀ entry ∈ batch, entry ∈ batchFor cfg fetched) :
    Sent cfg { s with written := s.written ++ batch } := by
  intro entry hentry
  rcases List.mem_append.mp hentry with hold | hnew
  · exact hs entry hold
  · obtain ⟨r, hr, rfl⟩ := List.mem_map.mp (hbatch entry hnew)
    exact ⟨r, hfetched r hr, rfl⟩

theorem sent_call {s : Relay σ} {phase : List OutboxRow × List OutboxRow} {c : OutboxCall}
    {d : OutboxDraw} (hs : Sent cfg s) (hphase : Published cfg phase s)
    (hadmits : (publishing cfg).Admits phase c) : Sent cfg (relayStep B c s d).2 := by
  obtain ⟨fetched, sent⟩ := phase
  cases c with
  | insertOutbox event =>
      simp only [relayStep]
      split
      · intro entry hentry
        obtain ⟨r, hr, rfl⟩ := hs entry hentry
        exact ⟨r, List.mem_append_left _ hr, rfl⟩
      · exact hs
      · exact hs
  | fetchOutboxBatch limit =>
      simp only [relayStep]
      split <;> exact hs
  | writeMessages batch =>
      obtain rfl : batch = batchFor cfg fetched := hadmits
      simp only [relayStep]
      split
      · exact sent_write hs hphase.fetched fun _ hentry => hentry
      · exact sent_write hs hphase.fetched fun _ hentry => List.mem_of_mem_filter hentry
  | markPublished ids =>
      simp only [relayStep]
      split <;> exact hs

def sentOutline (B : OutboxStore σ) (cfg : EventTopics)
    {markOutboxPublished : List String → OutboxProg (Except Err Unit)}
    (hmark : MarksSent cfg markOutboxPublished) :
    Outline (relay B cfg markOutboxPublished) (publishing cfg) where
  Inv := fun s => Kept B cfg s ∧ Sent cfg s
  Holds := Published cfg
  Rely := Grows
  Final := fun _ _ _ => True
  stable := published_grows
  start := by
    rintro p task s ⟨hkept, hsent⟩ hstart
    obtain ⟨hkept', hgrows, hphase⟩ := (relayOutline B cfg hmark).start hkept hstart
    obtain rfl := Option.some.inj hstart
    exact ⟨⟨hkept', hsent⟩, hgrows, hphase⟩
  call := by
    rintro s phase c d ⟨hkept, hsent⟩ hphase hadmits hallowed
    obtain ⟨hkept', hgrows, hphase'⟩ := relay_call hkept hphase hadmits hallowed
    exact ⟨⟨hkept', sent_call hsent hphase hadmits⟩, hgrows, hphase'⟩
  finish := fun _ hinv _ _ => ⟨hinv, grows_refl _⟩

end Written

/-- A message of a row is that row's message, however often it was sent. -/
theorem message_of_written {cfg : EventTopics} {encode : EventRecord → RawMessage}
    {p : RelayPool Postgres.OutboxTable}
    (hp : (Postgres.relay cfg encode).Reaches (fun _ _ => True)
      ⟨{ outbox := Table.empty }, []⟩ p)
    {event : EventRecord} (hevent : Postgres.row encode event ∈ p.state.inserted)
    {m : KafkaMessage} (hm : (event.eventID, m) ∈ p.state.written) :
    m = messageFor cfg (Postgres.row encode event) := by
  have hempty : Kept (Postgres.store encode) cfg { outbox := Table.empty } := by
    refine ⟨by simp, fun r hr => ?_, by simp⟩
    exact absurd (hr.symm.trans (get?_empty r.id)) (Option.some_ne_none _)
  obtain ⟨hkept, hsent⟩ :=
    (valid_reaches (sentOutline (Postgres.store encode) cfg (Postgres.marksSent cfg)) hp
      ⟨⟨hempty, fun entry hentry => absurd hentry List.not_mem_nil⟩, by simp⟩).1
  obtain ⟨r, hr, hentry⟩ := hsent _ hm
  obtain ⟨hid, hmessage⟩ := Prod.mk.inj hentry
  rw [hkept.distinct _ hevent r hr hid]
  exact hmessage

theorem messageFor_topic (cfg : EventTopics) (encode : EventRecord → RawMessage)
    (p : EventPublisher) (eventID : String) (now : Time) (event : Event)
    (payload : Option RawMessage) :
    (messageFor cfg (Postgres.row encode (p.event eventID now event payload))).topic =
      (p.entity event).topic cfg :=
  topicFor_text cfg p event

theorem messageFor_key (cfg : EventTopics) (encode : EventRecord → RawMessage)
    (event : EventRecord) :
    (messageFor cfg (Postgres.row encode event)).key =
      if event.jobID = "" then event.eventID else event.jobID :=
  rfl

/-- The events of one entity share a topic.  They share a key exactly if they carry
the same job, which the events of a worker or of a scheduler do not. -/
theorem same_key_iff_same_job (cfg : EventTopics) (encode : EventRecord → RawMessage)
    {p : RelayPool Postgres.OutboxTable}
    (hp : (Postgres.relay cfg encode).Reaches (fun _ _ => True)
      ⟨{ outbox := Table.empty }, []⟩ p)
    {publisher publisher' : EventPublisher} {eventID eventID' : String} {now now' : Time}
    {event event' : Event} {payload payload' : Option RawMessage}
    (hinserted : Postgres.row encode (publisher.event eventID now event payload) ∈
      p.state.inserted)
    (hinserted' : Postgres.row encode (publisher'.event eventID' now' event' payload') ∈
      p.state.inserted)
    (hentity : publisher.entity event = publisher'.entity event')
    (hdistinct : eventID ≠ eventID')
    (hforeign : event.jobID ≠ eventID' ∧ event'.jobID ≠ eventID)
    {m m' : KafkaMessage} (hm : (eventID, m) ∈ p.state.written)
    (hm' : (eventID', m') ∈ p.state.written) :
    m.topic = m'.topic ∧
      (m.key = m'.key ↔ event.jobID = event'.jobID ∧ event.jobID ≠ "") := by
  obtain rfl := message_of_written hp hinserted hm
  obtain rfl := message_of_written hp hinserted' hm'
  constructor
  · rw [messageFor_topic, messageFor_topic, hentity]
  · rw [messageFor_key, messageFor_key]
    change (if event.jobID = "" then eventID else event.jobID) =
      (if event'.jobID = "" then eventID' else event'.jobID) ↔ _
    split
    · rename_i hjob
      refine ⟨fun hkey => ?_, fun hsame => absurd hjob hsame.2⟩
      split at hkey
      · exact absurd hkey hdistinct
      · exact absurd hkey.symm hforeign.2
    · rename_i hjob
      refine ⟨fun hkey => ?_, fun hsame => ?_⟩
      · split at hkey
        · exact absurd hkey hforeign.1
        · exact ⟨hkey, hjob⟩
      · rw [← hsame.1, if_neg hjob]

def leader : EventPublisher := ⟨"scheduler-1"⟩

/-- An event is emitted, and a flush sends it and marks it. -/
def publishMoves (eventID : String) (event : Event) : List (Move OutboxTask OutboxDraw) :=
  [.start (.insertOutbox (leader.event eventID 1000 event none)), .advance 0 {}, .finish 0 {},
    .start .flush, .advance 0 { order := ["event-1", "event-2"] }, .advance 0 {}, .advance 0 {},
    .finish 0 {}]

def bothPublished (first second : Event) : Option (RelayPool Postgres.OutboxTable) :=
  (Postgres.relay topics fun _ => []).follow (fun _ _ => true)
    ⟨{ outbox := Table.empty }, []⟩
    (publishMoves "event-1" first ++ publishMoves "event-2" second)

theorem reaches_of_bothPublished {first second : Event} {p : RelayPool Postgres.OutboxTable}
    (hp : bothPublished first second = some p) :
    (Postgres.relay topics fun _ => []).Reaches (fun _ _ => True)
      ⟨{ outbox := Table.empty }, []⟩ p :=
  reaches_of_follow (fun _ _ _ => trivial) hp

theorem created_and_queued_share_key :
    ∃ (p : RelayPool Postgres.OutboxTable) (m m' : KafkaMessage),
      bothPublished { eventType := .jobCreated, jobID := "job-1" }
        { eventType := .jobQueued, jobID := "job-1" } = some p ∧
      ("event-1", m) ∈ p.state.written ∧ ("event-2", m') ∈ p.state.written ∧
      m.topic = m'.topic ∧ m.key = m'.key := by
  let created : Event := { eventType := .jobCreated, jobID := "job-1" }
  let queued : Event := { eventType := .jobQueued, jobID := "job-1" }
  let p := (bothPublished created queued).get (by decide +kernel)
  have hp : bothPublished created queued = some p := (Option.some_get _).symm
  have hcreated : Postgres.row (fun _ => []) (leader.event "event-1" 1000 created none) ∈
      p.state.inserted := by
    decide +kernel
  have hqueued : Postgres.row (fun _ => []) (leader.event "event-2" 1000 queued none) ∈
      p.state.inserted := by
    decide +kernel
  let message : KafkaMessage := ⟨"chronos.job-events", "job-1", [], 1000⟩
  have hwritten : ("event-1", message) ∈ p.state.written := by decide +kernel
  have hwritten' : ("event-2", message) ∈ p.state.written := by decide +kernel
  obtain ⟨htopic, hkey⟩ := same_key_iff_same_job topics (fun _ => [])
    (reaches_of_bothPublished hp) hcreated hqueued rfl (by decide) (by decide) hwritten hwritten'
  exact ⟨p, message, message, hp, hwritten, hwritten', htopic, hkey.mpr ⟨rfl, by decide⟩⟩

/-- A worker registers and then deregisters, and neither event names a job. -/
theorem registered_and_deregistered_differ_in_key :
    ∃ (event event' : Event) (p : RelayPool Postgres.OutboxTable) (m m' : KafkaMessage),
      event = { eventType := .workerRegistered, workerID := "worker-1" } ∧
      event' = { eventType := .workerDeregistered, workerID := "worker-1" } ∧
      leader.entity event = leader.entity event' ∧
      (Postgres.relay topics fun _ => []).Reaches (fun _ _ => True)
        ⟨{ outbox := Table.empty }, []⟩ p ∧
      Postgres.row (fun _ => []) (leader.event "event-1" 1000 event none) ∈ p.state.inserted ∧
      Postgres.row (fun _ => []) (leader.event "event-2" 1000 event' none) ∈ p.state.inserted ∧
      ("event-1", m) ∈ p.state.written ∧ ("event-2", m') ∈ p.state.written ∧
      m.key = "event-1" ∧ m'.key = "event-2" := by
  let registered : Event := { eventType := .workerRegistered, workerID := "worker-1" }
  let deregistered : Event := { eventType := .workerDeregistered, workerID := "worker-1" }
  let p := (bothPublished registered deregistered).get (by decide +kernel)
  have hp : bothPublished registered deregistered = some p := (Option.some_get _).symm
  refine ⟨registered, deregistered, p, ⟨"chronos.worker-events", "event-1", [], 1000⟩,
    ⟨"chronos.worker-events", "event-2", [], 1000⟩, rfl, rfl, rfl, reaches_of_bothPublished hp,
    ?_, ?_, ?_, ?_, rfl, rfl⟩
  · decide +kernel
  · decide +kernel
  · decide +kernel
  · decide +kernel

end Chronos.EventKeys
