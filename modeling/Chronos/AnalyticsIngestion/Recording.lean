import Chronos.AnalyticsIngestion

namespace Chronos.AnalyticsIngestion

open Chronos.Domain
open Chronos.AnalyticsConsumer

section Rows

variable {U : Type} {c : Columns U}

theorem shows_eventRow {e : EventRecord} (hid : (c.uuidParse e.eventID).isSome)
    (htime : e.eventTime ≠ zeroTime) (now : Time) (fresh : U) :
    Shows c e (eventRow c now fresh e) where
  eventID := by
    obtain ⟨id, hid⟩ := Option.isSome_iff_exists.mp hid
    rw [eventRow, hid, Option.getD_some]
  eventType := rfl
  eventVersion := rfl
  eventTime := by rw [eventRow, if_neg htime]
  jobID := rfl
  executionID := rfl
  workerID := rfl
  schedulerID := rfl
  attempt := rfl
  traceID := rfl
  payload := by
    rw [eventRow]
    rcases e.payload with _ | _ | ⟨byte, bytes⟩ <;> simp

theorem content_eq_of_shows {e : EventRecord} {row row' : EventRow U} (h : Shows c e row)
    (h' : Shows c e row') : row.content = row'.content := by
  have hid : row.eventID = row'.eventID := Option.some.inj (h.eventID.symm.trans h'.eventID)
  simp only [EventRow.content, hid, h.eventType, h'.eventType, h.eventVersion, h'.eventVersion,
    h.eventTime, h'.eventTime, h.jobID, h'.jobID, h.executionID, h'.executionID, h.workerID,
    h'.workerID, h.schedulerID, h'.schedulerID, h.attempt, h'.attempt, h.traceID, h'.traceID,
    h.payload, h'.payload]

theorem key_eq_of_shows {e : EventRecord} {row row' : EventRow U} (h : Shows c e row)
    (h' : Shows c e row') : row.key = row'.key := by
  have hcontent : row.content.key = row'.content.key := by rw [content_eq_of_shows h h']
  exact hcontent

theorem mem_of_mem_partsOf {kept : Nat → Bool} {rows : List (EventRow U)} {row : EventRow U}
    (h : row ∈ (partsOf c kept rows).flatten) : row ∈ rows := by
  obtain ⟨part, hpart, hrow⟩ := List.mem_flatten.mp h
  obtain ⟨month, -, rfl⟩ := List.mem_map.mp hpart
  exact List.mem_of_mem_filter hrow

theorem mem_partsOf {rows : List (EventRow U)} {row : EventRow U} (h : row ∈ rows) :
    row ∈ (partsOf c (fun _ => true) rows).flatten := by
  refine List.mem_flatten.mpr ⟨_, List.mem_map.mpr ⟨c.month row.eventTime, ?_, rfl⟩, ?_⟩
  · rw [List.filter_true, List.mem_dedup]
    exact List.mem_map.mpr ⟨row, h, rfl⟩
  · exact List.mem_filter.mpr ⟨h, decide_eq_true rfl⟩

variable (c) in
theorem insertEvents_keeps (draw : Insert U) (events : List EventRecord) (parts : Parts U) :
    ∀ row ∈ parts.flatten, row ∈ (insertEvents c draw events parts).1.flatten := by
  intro row h
  rw [insertEvents]
  split
  · exact h
  · split
    · exact h
    · rw [List.flatten_append]
      exact List.mem_append_left _ h
    · rw [List.flatten_append]
      exact List.mem_append_left _ h

theorem insertEvents_rows {draw : Insert U} {events : List EventRecord} {parts : Parts U}
    {row : EventRow U} (h : row ∈ (insertEvents c draw events parts).1.flatten) :
    row ∈ parts.flatten ∨ ∃ e ∈ events, ∃ fresh, row = eventRow c draw.now fresh e := by
  have hnew : ∀ {kept : Nat → Bool},
      row ∈ (parts ++ partsOf c kept (eventRows c draw events)).flatten →
        row ∈ parts.flatten ∨ ∃ e ∈ events, ∃ fresh, row = eventRow c draw.now fresh e := by
    intro kept hrow
    rw [List.flatten_append, List.mem_append] at hrow
    refine hrow.imp_right fun hrow => ?_
    obtain ⟨i, hi, rfl⟩ := List.mem_mapIdx.mp (mem_of_mem_partsOf hrow)
    exact ⟨events[i], List.getElem_mem hi, draw.fresh i, rfl⟩
  rw [insertEvents] at h
  split at h
  · exact Or.inl h
  · split at h
    · exact Or.inl h
    · exact hnew h
    · exact hnew h

/-- If the insert succeeds every event of the batch has its row. -/
theorem insertEvents_stores {draw : Insert U} {events : List EventRecord} {parts : Parts U}
    (hok : (insertEvents c draw events parts).2 = .ok ()) {e : EventRecord} (he : e ∈ events) :
    ∃ fresh, eventRow c draw.now fresh e ∈ (insertEvents c draw events parts).1.flatten := by
  obtain ⟨i, hi, rfl⟩ := List.mem_iff_getElem.mp he
  refine ⟨draw.fresh i, ?_⟩
  have hrow : eventRow c draw.now (draw.fresh i) events[i] ∈ eventRows c draw events :=
    List.mem_mapIdx.mpr ⟨i, hi, rfl⟩
  rw [insertEvents, if_neg (List.ne_nil_of_mem he)] at hok ⊢
  split at hok
  · cases hok
  · cases hok
  · rw [List.flatten_append]
    exact List.mem_append_right _ (mem_partsOf hrow)

theorem insertEvents_result (draw : Insert U) {events : List EventRecord} (parts : Parts U)
    (hok : draw.result = .ok ()) : (insertEvents c draw events parts).2 = .ok () := by
  rw [Insert.result] at hok
  rw [insertEvents]
  split
  · rfl
  · split at hok
    · cases hok
    · cases hok
    · rfl

end Rows

section Recording

variable {U π : Type}
variable (c : Columns U) (decode : RawMessage → Option EventRecord) (logs : π → Nat → RawMessage)

/-- Nothing is in the table but rows of events on the topics. -/
def Genuine (parts : Parts U) : Prop :=
  ∀ row ∈ parts.flatten, ∃ p n e, decode (logs p n) = some e ∧ Shows c e row

def Recorded (horizon : Int) (parts : Parts U) (e : EventRecord) : Prop :=
  horizon ≤ c.millis e.eventTime → ∃ row ∈ parts.flatten, Shows c e row

/-- What the replay has read is in the table or in its batch. -/
structure Caught (horizon : Int) (parts : Parts U) (r : Replay π) : Prop where
  read : ∀ {n e}, n < r.position → decode (logs r.source n) = some e →
    n ∈ r.batch ∨ Recorded c horizon parts e
  batch : ∀ n ∈ r.batch, n < r.position
  ended : r.status = .ended → r.batch = []

/-- The table still records what it did, and it is genuine. -/
structure Succeeds (horizon : Int) (parts : Parts U) (horizon' : Int) (parts' : Parts U) :
    Prop where
  genuine : Genuine c decode logs parts'
  recorded : ∀ {p n e}, decode (logs p n) = some e → Recorded c horizon parts e →
    Recorded c horizon' parts' e

variable {c decode logs} {horizon : Int} {parts : Parts U}

/-- Two rows of one key are rows of one event. -/
theorem shows_of_key (hstamped : Stamped c decode logs) {e e' : EventRecord}
    {row row' : EventRow U} {p q : π} {n m : Nat} (he : decode (logs p n) = some e)
    (he' : decode (logs q m) = some e') (hrow : Shows c e row) (hrow' : Shows c e' row')
    (hkey : row.eventID = row'.eventID) : Shows c e row' := by
  have hevent : e = e' := by
    refine hstamped.copies he he' ?_
    rw [hrow.eventID, hrow'.eventID, hkey]
  exact hevent ▸ hrow'

theorem mem_eventsAt {log : Nat → RawMessage} {offsets : List Nat} {e : EventRecord} :
    e ∈ eventsAt decode log offsets ↔ ∃ n ∈ offsets, decode (log n) = some e :=
  List.mem_filterMap

theorem insertEvents_succeeds (hstamped : Stamped c decode logs)
    (hgenuine : Genuine c decode logs parts) (horizon : Int) (draw : Insert U) (p : π)
    (offsets : List Nat) :
    Succeeds c decode logs horizon parts horizon
      (insertEvents c draw (eventsAt decode (logs p) offsets) parts).1 where
  genuine := by
    intro row hrow
    rcases insertEvents_rows hrow with hold | ⟨e, he, fresh, rfl⟩
    · exact hgenuine row hold
    · obtain ⟨n, -, hdecode⟩ := mem_eventsAt.mp he
      exact ⟨p, n, e, hdecode,
        shows_eventRow (hstamped.parses hdecode) (hstamped.timed hdecode) _ _⟩
  recorded := by
    intro _ _ e _ hrecorded htime
    obtain ⟨row, hrow, hshows⟩ := hrecorded htime
    exact ⟨row, insertEvents_keeps c draw _ _ row hrow, hshows⟩

theorem recorded_of_insert (hstamped : Stamped c decode logs) (horizon : Int)
    {draw : Insert U} {p : π} {offsets : List Nat}
    (hok : (insertEvents c draw (eventsAt decode (logs p) offsets) parts).2 = .ok ()) {n : Nat}
    (hn : n ∈ offsets) {e : EventRecord} (hdecode : decode (logs p n) = some e) :
    Recorded c horizon (insertEvents c draw (eventsAt decode (logs p) offsets) parts).1 e := by
  intro _
  obtain ⟨fresh, hrow⟩ := insertEvents_stores hok (mem_eventsAt.mpr ⟨n, hn, hdecode⟩)
  exact ⟨_, hrow, shows_eventRow (hstamped.parses hdecode) (hstamped.timed hdecode) _ _⟩

theorem caught_succeeds {horizon' : Int} {parts' : Parts U} {r : Replay π}
    (hr : Caught c decode logs horizon parts r)
    (hnext : Succeeds c decode logs horizon parts horizon' parts') :
    Caught c decode logs horizon' parts' r where
  read := fun hn hdecode => (hr.read hn hdecode).imp_right (hnext.recorded hdecode)
  batch := hr.batch
  ended := hr.ended

/-- The end of a batch: an insert that succeeds empties it. -/
theorem caught_insert (hstamped : Stamped c decode logs)
    (hgenuine : Genuine c decode logs parts) {r : Replay π} (draw : Insert U)
    (hr : Caught c decode logs horizon parts r) (status : ReplayStatus)
    (hok : (insertEvents c draw (eventsAt decode (logs r.source) r.batch) parts).2 = .ok ()) :
    Caught c decode logs horizon
      (insertEvents c draw (eventsAt decode (logs r.source) r.batch) parts).1
      { r with batch := [], status := status } where
  read := by
    intro n e hn hdecode
    refine Or.inr ?_
    rcases hr.read hn hdecode with hbatch | hrecorded
    · exact recorded_of_insert hstamped horizon hok hbatch hdecode
    · exact (insertEvents_succeeds hstamped hgenuine horizon draw r.source r.batch).recorded
        hdecode hrecorded
  batch := by simp
  ended := fun _ => rfl

theorem caught_failed {r : Replay π} (hr : Caught c decode logs horizon parts r) (e : Err) :
    Caught c decode logs horizon parts { r with status := .failed e } where
  read := hr.read
  batch := hr.batch
  ended := fun h => ReplayStatus.noConfusion h

theorem caught_skip {r : Replay π} (hr : Caught c decode logs horizon parts r)
    (hnone : decode (logs r.source r.position) = none) :
    Caught c decode logs horizon parts { r with position := r.position + 1 } where
  read := by
    intro n e hn hdecode
    rcases Nat.lt_succ_iff_lt_or_eq.mp hn with hlt | rfl
    · exact hr.read hlt hdecode
    · rw [hnone] at hdecode
      cases hdecode
  batch := fun n hn => (hr.batch n hn).trans r.position.lt_succ_self
  ended := hr.ended

theorem caught_append {r : Replay π} (hr : Caught c decode logs horizon parts r)
    (hrunning : r.status = .running) (count : Int) :
    Caught c decode logs horizon parts
      { r with position := r.position + 1, count := count, batch := r.batch ++ [r.position] } where
  read := by
    intro n e hn hdecode
    rcases Nat.lt_succ_iff_lt_or_eq.mp hn with hlt | rfl
    · exact (hr.read hlt hdecode).imp_left (List.mem_append_left _)
    · exact Or.inl (List.mem_append_right _ List.mem_cons_self)
  batch := by
    intro n hn
    rcases List.mem_append.mp hn with hold | hnew
    · exact (hr.batch n hold).trans r.position.lt_succ_self
    · rw [List.mem_singleton.mp hnew]
      exact r.position.lt_succ_self
  ended := by
    intro hended
    rw [hrunning] at hended
    cases hended

variable (c decode logs) in
/-- What a move of a replay can do to it and to the table. -/
structure Advances (horizon : Int) (parts : Parts U) (next : Replay π × Parts U) : Prop where
  keeps : ∀ row ∈ parts.flatten, row ∈ next.2.flatten
  rows : ∀ row ∈ next.2.flatten, row ∈ parts.flatten ∨
    ∃ n < next.1.position, ∃ e, decode (logs next.1.source n) = some e ∧ Shows c e row
  caught : Caught c decode logs horizon next.2 next.1

theorem insert_rows (hstamped : Stamped c decode logs) {r : Replay π}
    (hr : Caught c decode logs horizon parts r) (draw : Insert U) :
    ∀ row ∈ (insertEvents c draw (eventsAt decode (logs r.source) r.batch) parts).1.flatten,
      row ∈ parts.flatten ∨
        ∃ n < r.position, ∃ e, decode (logs r.source n) = some e ∧ Shows c e row := by
  intro row hrow
  refine (insertEvents_rows hrow).imp_right ?_
  rintro ⟨e, he, fresh, rfl⟩
  obtain ⟨n, hn, hdecode⟩ := mem_eventsAt.mp he
  exact ⟨n, hr.batch n hn, e, hdecode,
    shows_eventRow (hstamped.parses hdecode) (hstamped.timed hdecode) _ _⟩

theorem leave_advances (hstamped : Stamped c decode logs)
    (hgenuine : Genuine c decode logs parts) {r : Replay π}
    (hr : Caught c decode logs horizon parts r) (draw : Insert U) :
    Advances c decode logs horizon parts (r.leave c decode logs draw parts) := by
  have hkeeps := insertEvents_keeps c draw (eventsAt decode (logs r.source) r.batch) parts
  have hrows := insert_rows hstamped hr draw
  have hsucceeds := insertEvents_succeeds hstamped hgenuine horizon draw r.source r.batch
  have hcaught := caught_insert hstamped hgenuine draw hr .ended
  rw [Replay.leave]
  rcases hinsert : insertEvents c draw (eventsAt decode (logs r.source) r.batch) parts with
    ⟨stored, e | _⟩
  · rw [hinsert] at hkeeps hrows hsucceeds
    exact ⟨hkeeps, hrows, caught_failed (caught_succeeds hr hsucceeds) e⟩
  · rw [hinsert] at hkeeps hrows hcaught
    exact ⟨hkeeps, hrows, hcaught rfl⟩

theorem read_advances (hstamped : Stamped c decode logs)
    (hgenuine : Genuine c decode logs parts) {r : Replay π}
    (hr : Caught c decode logs horizon parts r) (hrunning : r.status = .running)
    (draw : Insert U) :
    Advances c decode logs horizon parts (r.read c decode logs draw parts) := by
  rw [Replay.read]
  cases hdecode : decode (logs r.source r.position) with
  | none => exact ⟨fun _ hrow => hrow, fun _ hrow => Or.inl hrow, caught_skip hr hdecode⟩
  | some e =>
      have happend := caught_append hr hrunning (r.count + 1)
      dsimp only
      split
      · have hkeeps := insertEvents_keeps c draw
          (eventsAt decode (logs r.source) (r.batch ++ [r.position])) parts
        have hrows := insert_rows hstamped happend draw
        have hsucceeds := insertEvents_succeeds hstamped hgenuine horizon draw r.source
          (r.batch ++ [r.position])
        have hcaught := caught_insert hstamped hgenuine draw happend r.status
        dsimp only at hrows hcaught
        rcases hinsert : insertEvents c draw
            (eventsAt decode (logs r.source) (r.batch ++ [r.position])) parts with ⟨stored, e | _⟩
        · rw [hinsert] at hkeeps hrows hsucceeds
          exact ⟨hkeeps, hrows, caught_failed (caught_succeeds happend hsucceeds) e⟩
        · rw [hinsert] at hkeeps hrows hcaught
          exact ⟨hkeeps, hrows, hcaught rfl⟩
      · exact ⟨fun _ hrow => hrow, fun _ hrow => Or.inl hrow, happend⟩

end Recording

section Consuming

variable {U : Type} {decode : RawMessage → Option EventRecord} {batch : Nat}
variable {log : Nat → RawMessage}

theorem inserted_flush {s : Consumer} {outcome : Flush} {offset : Nat}
    (h : offset ∈ (s.flush outcome).1.inserted) :
    offset ∈ s.inserted ∨ outcome.insert = .ok () ∧ offset ∈ s.pending := by
  rw [Consumer.flush] at h
  split at h
  · exact Or.inl h
  · split at h
    · exact Or.inl h
    · rename_i hinsert
      have hstored : offset ∈ s.pending ++ s.inserted := by
        split at h
        · exact h
        · have hcommitted : offset ∈ (Consumer.commitMessages
              { s with inserted := s.pending ++ s.inserted } s.pending).inserted := h
          rwa [(commitMessages_frame _ _).2] at hcommitted
      exact (List.mem_append.mp hstored).symm.imp_right fun hpending => ⟨hinsert, hpending⟩

/-- An offset becomes inserted only by a flush whose insert has succeeded. -/
theorem inserted_consumeTopic {s : Consumer} {turn : Turn U} {offset : Nat}
    (h : offset ∈ (consumeTopic decode batch log s turn.action).inserted) :
    offset ∈ s.inserted ∨ ∃ draw offsets,
      flushOf decode batch log s turn = some (draw, offsets) ∧ draw.result = .ok () ∧
        offset ∈ offsets := by
  cases turn with
  | tick draw commit =>
      exact (inserted_flush h).imp_right fun hnew => ⟨draw, s.pending, rfl, hnew⟩
  | restart => exact Or.inl h
  | fetch skip draw commit =>
      rw [Turn.action] at h
      cases hvalid : validEvent decode log s.position with
      | false =>
          rw [consumeTopic_skip hvalid] at h
          refine Or.inl ?_
          cases skip with
          | ok _ => exact h
          | error _ => exact h
      | true =>
          rw [consumeTopic_valid hvalid] at h
          dsimp only at h
          split at h
          · rename_i hfull
            refine (inserted_flush h).imp_right fun hnew => ⟨draw, _, ?_, hnew⟩
            rw [flushOf, if_pos ⟨hvalid, hfull⟩]
          · exact Or.inl h

end Consuming

end Chronos.AnalyticsIngestion
