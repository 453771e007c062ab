import Chronos.Domain

namespace Chronos.AnalyticsConsumer

open Chronos.Domain

/-- The consumer of one partition.  `pending` holds the offsets of the messages
in the buffer, and `inserted` those whose events are in ClickHouse. -/
structure Consumer where
  committed : Nat := 0
  position : Nat := 0
  pending : List Nat := []
  inserted : List Nat := []
  deriving DecidableEq, Repr

/-- The outcomes of the two calls of a flush, if it comes to them. -/
structure Flush where
  insert : Except Err Unit
  commit : Except Err Unit := .ok ()

def Consumer.commitMessage (s : Consumer) (offset : Nat) : Except Err Unit → Consumer
  | .ok _ => { s with committed := offset + 1 }
  | .error _ => s

def Consumer.commitMessages (s : Consumer) (offsets : List Nat) : Consumer :=
  offsets.foldl (fun s offset => s.commitMessage offset (.ok ())) s

def Consumer.flush (s : Consumer) (outcome : Flush) : Consumer × Except Err Unit :=
  if s.pending = [] then (s, .ok ())
  else
    match outcome.insert with
    | .error e => (s, .error e)
    | .ok _ =>
        let stored := { s with inserted := s.pending ++ s.inserted }
        match outcome.commit with
        | .error e => (stored, .error e)
        | .ok _ => ({ stored.commitMessages s.pending with pending := [] }, .ok ())

/-- What can happen to the loop: a tick of the flush timer, a message that
`FetchMessage` returns, or the end of the process and a new reader.  A fetch that
times out changes nothing, and the flush on the way out is a tick. -/
inductive Action
  | tick (flush : Flush)
  | fetch (skip : Except Err Unit) (full : Flush)
  | restart

section Loop

variable (decode : RawMessage → Option EventRecord) (batch : Nat) (log : Nat → RawMessage)

def validEvent (offset : Nat) : Bool :=
  match decode (log offset) with
  | none => false
  | some event => event.eventID != ""

def consumeTopic (s : Consumer) : Action → Consumer
  | .tick outcome => (s.flush outcome).1
  | .fetch skip full =>
      let offset := s.position
      let fetched := { s with position := offset + 1 }
      match decode (log offset) with
      | none => fetched.commitMessage offset skip
      | some event =>
          if event.eventID = "" then fetched.commitMessage offset skip
          else
            let buffered := { fetched with pending := s.pending ++ [offset] }
            if buffered.pending.length ≥ batch then (buffered.flush full).1 else buffered
  | .restart => { s with position := s.committed, pending := [] }

/-- The committed offset has passed no valid event that is not in ClickHouse. -/
def AtLeastOnce (s : Consumer) : Prop :=
  ∀ offset, offset < s.committed → validEvent decode log offset → offset ∈ s.inserted

/-- At every point of the run. -/
def AlwaysAtLeastOnce : Consumer → List Action → Prop
  | s, [] => AtLeastOnce decode log s
  | s, action :: actions =>
      AtLeastOnce decode log s ∧
        AlwaysAtLeastOnce (consumeTopic decode batch log s action) actions

/-- A skipped message is committed only where every buffered event has been
inserted. -/
def SkipsInserted (s : Consumer) : Action → Prop
  | .fetch (.ok _) _ =>
      validEvent decode log s.position = false → ∀ offset ∈ s.pending, offset ∈ s.inserted
  | _ => True

def AlwaysSkipsInserted : Consumer → List Action → Prop
  | _, [] => True
  | s, action :: actions =>
      SkipsInserted decode log s action ∧
        AlwaysSkipsInserted (consumeTopic decode batch log s action) actions

end Loop

theorem commitMessages_frame (s : Consumer) (offsets : List Nat) :
    (s.commitMessages offsets).position = s.position ∧
      (s.commitMessages offsets).inserted = s.inserted := by
  induction offsets generalizing s with
  | nil => exact ⟨rfl, rfl⟩
  | cons offset offsets ih => exact ih (s.commitMessage offset (.ok ()))

theorem committed_commitMessages {s : Consumer} {offsets : List Nat} {bound : Nat}
    (hoffsets : ∀ offset ∈ offsets, offset < bound) (hs : s.committed ≤ bound) :
    (s.commitMessages offsets).committed ≤ bound := by
  induction offsets generalizing s with
  | nil => exact hs
  | cons offset offsets ih =>
      apply ih
      · intro later hlater
        exact hoffsets later (List.mem_cons_of_mem _ hlater)
      · exact hoffsets offset List.mem_cons_self

section Proofs

variable {decode : RawMessage → Option EventRecord} {batch : Nat} {log : Nat → RawMessage}

/-- Every valid event that was fetched is in ClickHouse or in the buffer, and the
reader is not behind the committed offset. -/
structure Buffered (decode : RawMessage → Option EventRecord) (log : Nat → RawMessage)
    (s : Consumer) : Prop where
  fetched : ∀ offset, offset < s.position → validEvent decode log offset →
    offset ∈ s.inserted ∨ offset ∈ s.pending
  pending : ∀ offset ∈ s.pending, offset < s.position ∧ validEvent decode log offset
  committed : s.committed ≤ s.position

theorem buffered_start {s : Consumer} (hs : AtLeastOnce decode log s)
    (hposition : s.position = s.committed) (hpending : s.pending = []) :
    Buffered decode log s where
  fetched := fun offset hoffset hvalid => Or.inl (hs offset (hposition ▸ hoffset) hvalid)
  pending := by
    rw [hpending]
    simp
  committed := hposition ▸ le_rfl

theorem flush_step {s : Consumer} (hs : Buffered decode log s)
    (honce : AtLeastOnce decode log s) (outcome : Flush) :
    Buffered decode log (s.flush outcome).1 ∧ AtLeastOnce decode log (s.flush outcome).1 := by
  unfold Consumer.flush
  split
  · exact ⟨hs, honce⟩
  cases outcome.insert with
  | error e => exact ⟨hs, honce⟩
  | ok _ =>
      let stored : Consumer := { s with inserted := s.pending ++ s.inserted }
      have hall : ∀ offset, offset < s.position → validEvent decode log offset →
          offset ∈ stored.inserted := by
        intro offset hoffset hvalid
        rw [List.mem_append]
        exact (hs.fetched offset hoffset hvalid).symm
      cases outcome.commit with
      | error e =>
          refine ⟨⟨fun offset hoffset hvalid => Or.inl (hall offset hoffset hvalid),
            hs.pending, hs.committed⟩, ?_⟩
          intro offset hoffset hvalid
          exact hall offset (hoffset.trans_le hs.committed) hvalid
      | ok _ =>
          obtain ⟨hposition, hinserted⟩ := commitMessages_frame stored s.pending
          have hcommitted : (stored.commitMessages s.pending).committed ≤ s.position :=
            committed_commitMessages (fun offset hoffset => (hs.pending offset hoffset).1)
              hs.committed
          refine ⟨⟨?_, by simp, ?_⟩, ?_⟩
          · intro offset hoffset hvalid
            rw [hinserted]
            exact Or.inl (hall offset (hposition ▸ hoffset) hvalid)
          · exact hcommitted.trans_eq hposition.symm
          · intro offset hoffset hvalid
            rw [hinserted]
            exact hall offset (hoffset.trans_le hcommitted) hvalid

theorem buffered_skip {s : Consumer} (hs : Buffered decode log s)
    (hskip : validEvent decode log s.position = false) (skip : Except Err Unit) :
    Buffered decode log
      (Consumer.commitMessage { s with position := s.position + 1 } s.position skip) := by
  have hfetched : ∀ offset, offset < s.position + 1 → validEvent decode log offset →
      offset ∈ s.inserted ∨ offset ∈ s.pending := by
    intro offset hoffset hvalid
    rcases Nat.lt_succ_iff_lt_or_eq.mp hoffset with hlt | rfl
    · exact hs.fetched offset hlt hvalid
    · rw [hskip] at hvalid
      exact absurd hvalid Bool.false_ne_true
  have hpending : ∀ offset ∈ s.pending,
      offset < s.position + 1 ∧ validEvent decode log offset := by
    intro offset hoffset
    obtain ⟨hlt, hvalid⟩ := hs.pending offset hoffset
    exact ⟨hlt.trans s.position.lt_succ_self, hvalid⟩
  cases skip with
  | ok _ => exact ⟨hfetched, hpending, le_rfl⟩
  | error e => exact ⟨hfetched, hpending, hs.committed.trans s.position.le_succ⟩

theorem buffered_append {s : Consumer} (hs : Buffered decode log s)
    (hvalid : validEvent decode log s.position = true) :
    Buffered decode log
      { s with position := s.position + 1, pending := s.pending ++ [s.position] } where
  fetched := by
    intro offset hoffset hoffsetValid
    rcases Nat.lt_succ_iff_lt_or_eq.mp hoffset with hlt | rfl
    · rcases hs.fetched offset hlt hoffsetValid with hinserted | hpending
      · exact Or.inl hinserted
      · exact Or.inr (List.mem_append_left _ hpending)
    · exact Or.inr (List.mem_append_right _ List.mem_cons_self)
  pending := by
    intro offset hoffset
    rcases List.mem_append.mp hoffset with hold | hnew
    · obtain ⟨hlt, hoffsetValid⟩ := hs.pending offset hold
      exact ⟨hlt.trans s.position.lt_succ_self, hoffsetValid⟩
    · rw [List.mem_singleton.mp hnew]
      exact ⟨s.position.lt_succ_self, hvalid⟩
  committed := hs.committed.trans s.position.le_succ

theorem consumeTopic_skip {s : Consumer} (hskip : validEvent decode log s.position = false)
    (skip : Except Err Unit) (full : Flush) :
    consumeTopic decode batch log s (.fetch skip full) =
      Consumer.commitMessage { s with position := s.position + 1 } s.position skip := by
  unfold validEvent at hskip
  simp only [consumeTopic]
  cases hdecode : decode (log s.position) with
  | none => rfl
  | some event =>
      have hid : event.eventID = "" := by simpa [hdecode] using hskip
      simp only [hid, if_true]

theorem consumeTopic_valid {s : Consumer} (hvalid : validEvent decode log s.position = true)
    (skip : Except Err Unit) (full : Flush) :
    consumeTopic decode batch log s (.fetch skip full) =
      let buffered : Consumer :=
        { s with position := s.position + 1, pending := s.pending ++ [s.position] }
      if buffered.pending.length ≥ batch then (buffered.flush full).1 else buffered := by
  unfold validEvent at hvalid
  simp only [consumeTopic]
  cases hdecode : decode (log s.position) with
  | none => simp [hdecode] at hvalid
  | some event =>
      have hid : event.eventID ≠ "" := by simpa [hdecode] using hvalid
      simp only [hid, if_false]

/-- The committed offset jumps over the buffer with the skipped message. -/
theorem atLeastOnce_skip_iff {s : Consumer} (hs : Buffered decode log s)
    (hskip : validEvent decode log s.position = false) :
    AtLeastOnce decode log
        (Consumer.commitMessage { s with position := s.position + 1 } s.position (.ok ())) ↔
      ∀ offset ∈ s.pending, offset ∈ s.inserted := by
  constructor
  · intro honce offset hoffset
    obtain ⟨hlt, hvalid⟩ := hs.pending offset hoffset
    exact honce offset (hlt.trans s.position.lt_succ_self) hvalid
  · intro hpending offset hoffset hvalid
    rcases Nat.lt_succ_iff_lt_or_eq.mp hoffset with hlt | rfl
    · rcases hs.fetched offset hlt hvalid with hinserted | hbuffered
      · exact hinserted
      · exact hpending offset hbuffered
    · rw [hskip] at hvalid
      exact absurd hvalid Bool.false_ne_true

variable (batch) in
theorem consumeTopic_step {s : Consumer} (hs : Buffered decode log s)
    (honce : AtLeastOnce decode log s) (action : Action) :
    (AtLeastOnce decode log (consumeTopic decode batch log s action) ↔
        SkipsInserted decode log s action) ∧
      (AtLeastOnce decode log (consumeTopic decode batch log s action) →
        Buffered decode log (consumeTopic decode batch log s action)) := by
  cases action with
  | tick outcome =>
      obtain ⟨hbuffered, honce'⟩ := flush_step hs honce outcome
      exact ⟨iff_of_true honce' trivial, fun _ => hbuffered⟩
  | restart =>
      exact ⟨iff_of_true honce trivial, fun honce' => buffered_start honce' rfl rfl⟩
  | fetch skip full =>
      cases hvalid : validEvent decode log s.position with
      | false =>
          rw [consumeTopic_skip hvalid]
          refine ⟨?_, fun _ => buffered_skip hs hvalid skip⟩
          cases skip with
          | ok _ =>
              rw [atLeastOnce_skip_iff hs hvalid]
              exact ⟨fun hpending _ => hpending, fun hskips => hskips hvalid⟩
          | error e => exact iff_of_true honce trivial
      | true =>
          have hbuffered := buffered_append hs hvalid
          have hskips : SkipsInserted decode log s (.fetch skip full) := by
            cases skip with
            | ok _ =>
                intro hinvalid
                rw [hvalid] at hinvalid
                exact absurd hinvalid.symm Bool.false_ne_true
            | error e => trivial
          rw [consumeTopic_valid hvalid]
          dsimp only
          split
          · obtain ⟨hflushed, honce'⟩ := flush_step hbuffered honce full
            exact ⟨iff_of_true honce' hskips, fun _ => hflushed⟩
          · exact ⟨iff_of_true honce hskips, fun _ => hbuffered⟩

theorem alwaysAtLeastOnce_iff {s : Consumer} (hs : Buffered decode log s)
    (honce : AtLeastOnce decode log s) (actions : List Action) :
    AlwaysAtLeastOnce decode batch log s actions ↔
      AlwaysSkipsInserted decode batch log s actions := by
  induction actions generalizing s with
  | nil => exact iff_of_true honce trivial
  | cons action actions ih =>
      obtain ⟨hiff, hnext⟩ := consumeTopic_step batch hs honce action
      constructor
      · rintro ⟨_, halways⟩
        have honce' : AtLeastOnce decode log (consumeTopic decode batch log s action) := by
          cases actions with
          | nil => exact halways
          | cons _ _ => exact halways.1
        exact ⟨hiff.mp honce', (ih (hnext honce') honce').mp halways⟩
      · rintro ⟨hskips, halways⟩
        have honce' := hiff.mpr hskips
        exact ⟨honce, (ih (hnext honce') honce').mpr halways⟩

end Proofs

/-- Ingestion is at-least-once in exactly the runs in which no skipped message is
committed over a buffered event that is not in ClickHouse yet. -/
theorem ingestion_atLeastOnce_iff (decode : RawMessage → Option EventRecord) (batch : Nat)
    (log : Nat → RawMessage) (actions : List Action) :
    AlwaysAtLeastOnce decode batch log {} actions ↔
      AlwaysSkipsInserted decode batch log {} actions := by
  have honce : AtLeastOnce decode log {} := by
    intro offset hoffset
    exact absurd hoffset offset.not_lt_zero
  exact alwaysAtLeastOnce_iff (buffered_start honce rfl rfl) honce actions

def decodeNonempty : RawMessage → Option EventRecord
  | [] => none
  | _ :: _ => some { eventID := "event-1", eventType := "JOB_CREATED", eventTime := 0 }

def eventThenPoison : Nat → RawMessage
  | 0 => [123, 125]
  | _ + 1 => []

theorem poison_commits_over_buffered_event :
    ¬ AlwaysAtLeastOnce decodeNonempty 100 eventThenPoison {}
      [.fetch (.ok ()) { insert := .ok () }, .fetch (.ok ()) { insert := .ok () }] := by
  rintro ⟨_, _, honce⟩
  exact absurd (honce 0 (by decide) (by decide)) (by decide)

end Chronos.AnalyticsConsumer
