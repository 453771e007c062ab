import Chronos.Domain

namespace Chronos.KafkaQueue

open Chronos.Domain

/-- One partition as the consumer group sees it: the committed offset, the
offset the reader fetches next, and the offsets whose handler has returned nil. -/
structure Partition where
  committed : Nat := 0
  position : Nat := 0
  handled : List Nat := []
  deriving DecidableEq, Repr

/-- What one turn of the loop meets: the handler's return and the outcome of the
commit, if it comes to one. -/
structure Turn where
  handler : Except Err Unit
  commit : Except Err Unit := .ok ()

def Partition.commitMessage (s : Partition) (offset : Nat) : Except Err Unit → Partition
  | .ok _ => { s with committed := offset + 1 }
  | .error _ => s

section Consumer

variable (decode : RawMessage → Option QueuedJob) (log : Nat → RawMessage)

/-- The consumer loop.  A message that does not decode is committed and skipped,
one whose handler fails is passed over, and a commit that fails ends the loop;
so does the end of the list, where `FetchMessage` returns an error. -/
def consumeLoop : Partition → List Turn → Partition × Except Err Unit
  | s, [] => (s, .error .canceled)
  | s, turn :: turns =>
      let offset := s.position
      let fetched := { s with position := offset + 1 }
      match decode (log offset) with
      | none => consumeLoop (fetched.commitMessage offset turn.commit) turns
      | some _ =>
          match turn.handler with
          | .error _ => consumeLoop fetched turns
          | .ok _ =>
              let done := { fetched with handled := offset :: s.handled }
              match turn.commit with
              | .error e => (done, .error e)
              | .ok _ => consumeLoop (done.commitMessage offset turn.commit) turns

def startConsumer (s : Partition) (turns : List Turn) : Partition × Except Err Unit :=
  consumeLoop decode log { s with position := s.committed } turns

def restarts (s : Partition) (sessions : List (List Turn)) : Partition :=
  sessions.foldl (fun s turns => (startConsumer decode log s turns).1) s

end Consumer

def Turn.fails (turn : Turn) : Bool := !turn.handler.isOk

/-- The committed offset has passed no message whose handler has not returned
nil.  What it has not passed is fetched again by the next reader. -/
def AtLeastOnce (s : Partition) : Prop :=
  ∀ offset, offset < s.committed → offset ∈ s.handled

/-- Once a handler has failed, the handlers of the session go on failing. -/
def FailuresLast (turns : List Turn) : Prop :=
  turns.Pairwise fun earlier later => earlier.fails → later.fails

def Settled (s : Partition) : Prop :=
  ∀ offset, offset ∈ s.handled ↔ offset < s.committed

def Lost (s : Partition) (offset : Nat) : Prop :=
  offset < s.committed ∧ offset ∉ s.handled

def Partition.completed (s : Partition) : Partition where
  committed := s.position + 1
  position := s.position + 1
  handled := s.position :: s.handled

theorem settled_completed {s : Partition} (hs : Settled s) (hposition : s.position = s.committed) :
    Settled s.completed := by
  intro offset
  simp only [Partition.completed, List.mem_cons, hs offset, hposition]
  omega

section Proofs

variable {decode : RawMessage → Option QueuedJob} {log : Nat → RawMessage}

theorem consumeLoop_failed (hlog : ∀ offset, (decode (log offset)).isSome) (s : Partition)
    {turn : Turn} (hturn : turn.fails) (turns : List Turn) :
    consumeLoop decode log s (turn :: turns) =
      consumeLoop decode log { s with position := s.position + 1 } turns := by
  obtain ⟨job, hjob⟩ := Option.isSome_iff_exists.mp (hlog s.position)
  rw [consumeLoop]
  simp only [hjob]
  cases hhandler : turn.handler with
  | error e => rfl
  | ok _ => simp [Turn.fails, hhandler, Except.isOk, Except.toBool] at hturn

theorem consumeLoop_succeeded (hlog : ∀ offset, (decode (log offset)).isSome) (s : Partition)
    {turn : Turn} (hturn : turn.fails = false) (hcommit : turn.commit = .ok ())
    (turns : List Turn) :
    consumeLoop decode log s (turn :: turns) =
      consumeLoop decode log s.completed turns := by
  obtain ⟨job, hjob⟩ := Option.isSome_iff_exists.mp (hlog s.position)
  rw [consumeLoop]
  simp only [hjob]
  cases hhandler : turn.handler with
  | error e => simp [Turn.fails, hhandler, Except.isOk, Except.toBool] at hturn
  | ok _ => simp only [hcommit, Partition.commitMessage, Partition.completed]

theorem consumeLoop_all_failed (hlog : ∀ offset, (decode (log offset)).isSome)
    {turns : List Turn} (hturns : ∀ turn ∈ turns, turn.fails) (s : Partition) :
    (consumeLoop decode log s turns).1.committed = s.committed ∧
      (consumeLoop decode log s turns).1.handled = s.handled := by
  induction turns generalizing s with
  | nil => exact ⟨rfl, rfl⟩
  | cons turn turns ih =>
      rw [consumeLoop_failed hlog s (hturns turn (by simp))]
      exact ih (fun turn hturn => hturns turn (by simp [hturn])) _

theorem consumeLoop_settled (hlog : ∀ offset, (decode (log offset)).isSome)
    {turns : List Turn} (hcommit : ∀ turn ∈ turns, turn.commit = .ok ())
    (hlast : FailuresLast turns) {s : Partition} (hs : Settled s)
    (hposition : s.position = s.committed) :
    Settled (consumeLoop decode log s turns).1 := by
  induction turns generalizing s with
  | nil => exact hs
  | cons turn turns ih =>
      obtain ⟨hrest, hlast⟩ := List.pairwise_cons.mp hlast
      cases hturn : turn.fails with
      | true =>
          have hfail : ∀ later ∈ turn :: turns, later.fails := by
            intro later hlater
            rcases List.mem_cons.mp hlater with rfl | hlater
            · exact hturn
            · exact hrest later hlater hturn
          obtain ⟨hcommitted, hhandled⟩ := consumeLoop_all_failed hlog hfail s
          intro offset
          rw [hcommitted, hhandled]
          exact hs offset
      | false =>
          rw [consumeLoop_succeeded hlog s hturn (hcommit turn (by simp))]
          exact ih (fun later hlater => hcommit later (by simp [hlater])) hlast
            (settled_completed hs hposition) rfl

theorem consumeLoop_skipped (hlog : ∀ offset, (decode (log offset)).isSome)
    {turns : List Turn} (hcommit : ∀ turn ∈ turns, turn.commit = .ok ()) {offset : Nat}
    {s : Partition} (hposition : offset < s.position) (hoffset : offset ∉ s.handled) :
    offset ∉ (consumeLoop decode log s turns).1.handled ∧
      (offset < s.committed ∨ (∃ turn ∈ turns, turn.fails = false) →
        offset < (consumeLoop decode log s turns).1.committed) := by
  induction turns generalizing s with
  | nil => exact ⟨hoffset, fun h => h.resolve_right (by simp)⟩
  | cons turn turns ih =>
      have hcommit' : ∀ later ∈ turns, later.commit = .ok () :=
        fun later hlater => hcommit later (by simp [hlater])
      cases hturn : turn.fails with
      | true =>
          rw [consumeLoop_failed hlog s hturn]
          obtain ⟨hhandled, hpassed⟩ := ih hcommit'
            (s := { s with position := s.position + 1 }) (Nat.lt_succ_of_lt hposition) hoffset
          refine ⟨hhandled, fun h => hpassed (h.imp_right ?_)⟩
          simp [hturn]
      | false =>
          rw [consumeLoop_succeeded hlog s hturn (hcommit turn (by simp))]
          have hnew : offset ∉ s.completed.handled := by
            simp [Partition.completed, hoffset, Nat.ne_of_lt hposition]
          obtain ⟨hhandled, hpassed⟩ := ih hcommit' (Nat.lt_succ_of_lt hposition) hnew
          exact ⟨hhandled, fun _ => hpassed (Or.inl (Nat.lt_succ_of_lt hposition))⟩

theorem consumeLoop_lost (hlog : ∀ offset, (decode (log offset)).isSome)
    {turns : List Turn} (hcommit : ∀ turn ∈ turns, turn.commit = .ok ())
    (hlast : ¬ FailuresLast turns) {s : Partition} (hs : Settled s)
    (hposition : s.position = s.committed) :
    ∃ offset, Lost (consumeLoop decode log s turns).1 offset := by
  induction turns generalizing s with
  | nil => exact absurd List.Pairwise.nil hlast
  | cons turn turns ih =>
      have hcommit' : ∀ later ∈ turns, later.commit = .ok () :=
        fun later hlater => hcommit later (by simp [hlater])
      rw [FailuresLast, List.pairwise_cons, not_and_or] at hlast
      cases hturn : turn.fails with
      | true =>
          have hsuccess : ∃ later ∈ turns, later.fails = false := by
            by_contra hnone
            push Not at hnone
            have hall : ∀ later ∈ turns, later.fails = true :=
              fun later hlater => by simpa using hnone later hlater
            rcases hlast with hrest | hrest
            · exact hrest fun later hlater _ => hall later hlater
            · refine hrest (List.Pairwise.imp_of_mem (fun _ hlater _ => ?_)
                (List.pairwise_of_forall (R := fun _ _ => True) fun _ _ => trivial))
              exact fun _ => hall _ hlater
          rw [consumeLoop_failed hlog s hturn]
          have hfresh : s.position ∉ s.handled := by
            rw [hs, hposition]
            exact Nat.lt_irrefl _
          obtain ⟨hhandled, hpassed⟩ := consumeLoop_skipped hlog hcommit'
            (s := { s with position := s.position + 1 }) (Nat.lt_succ_self _) hfresh
          exact ⟨s.position, hpassed (Or.inr hsuccess), hhandled⟩
      | false =>
          rw [consumeLoop_succeeded hlog s hturn (hcommit turn (by simp))]
          refine ih hcommit' (hlast.resolve_left ?_) (settled_completed hs hposition) rfl
          exact fun hrest => hrest fun _ _ hfails => absurd hfails (by simp [hturn])

theorem startConsumer_lost (hlog : ∀ offset, (decode (log offset)).isSome)
    {turns : List Turn} (hcommit : ∀ turn ∈ turns, turn.commit = .ok ()) {s : Partition}
    {offset : Nat} (hlost : Lost s offset) :
    Lost (startConsumer decode log s turns).1 offset := by
  obtain ⟨hhandled, hpassed⟩ := consumeLoop_skipped hlog hcommit
    (s := { s with position := s.committed }) hlost.1 hlost.2
  exact ⟨hpassed (Or.inl hlost.1), hhandled⟩

theorem restarts_lost (hlog : ∀ offset, (decode (log offset)).isSome)
    {sessions : List (List Turn)}
    (hcommit : ∀ turns ∈ sessions, ∀ turn ∈ turns, turn.commit = .ok ()) {s : Partition}
    {offset : Nat} (hlost : Lost s offset) : Lost (restarts decode log s sessions) offset := by
  induction sessions generalizing s with
  | nil => exact hlost
  | cons turns sessions ih =>
      refine ih (fun turns hturns => hcommit turns (by simp [hturns])) ?_
      exact startConsumer_lost hlog (hcommit turns (by simp)) hlost

/-- Over any number of sessions of well-formed messages, the committed offset
passes only handled messages exactly if in each session no handler succeeds
after one has failed. -/
theorem restarts_atLeastOnce_iff (hlog : ∀ offset, (decode (log offset)).isSome)
    {sessions : List (List Turn)}
    (hcommit : ∀ turns ∈ sessions, ∀ turn ∈ turns, turn.commit = .ok ()) {s : Partition}
    (hs : Settled s) :
    AtLeastOnce (restarts decode log s sessions) ↔ ∀ turns ∈ sessions, FailuresLast turns := by
  induction sessions generalizing s with
  | nil =>
      refine iff_of_true (fun offset hoffset => (hs offset).mpr hoffset) ?_
      simp
  | cons turns sessions ih =>
      have hcommits := hcommit turns (by simp)
      have hcommit' : ∀ turns ∈ sessions, ∀ turn ∈ turns, turn.commit = .ok () :=
        fun turns hturns => hcommit turns (by simp [hturns])
      have hfirst : Settled { s with position := s.committed } := hs
      rw [List.forall_mem_cons]
      by_cases hlast : FailuresLast turns
      · rw [and_iff_right hlast]
        exact ih hcommit' (consumeLoop_settled hlog hcommits hlast hfirst rfl)
      · obtain ⟨offset, hlost⟩ := consumeLoop_lost hlog hcommits hlast hfirst rfl
        have hend : Lost (restarts decode log s (turns :: sessions)) offset :=
          restarts_lost hlog hcommit' hlost
        refine iff_of_false (fun hall => ?_) fun hboth => hlast hboth.1
        exact hend.2 (hall offset hend.1)

end Proofs

def anyMessage : RawMessage → Option QueuedJob := fun value =>
  some { jobID := "job", name := "echo", type := .builtin, payload := some value, priority := 5,
         attempt := 0, timeout := second, enqueuedAt := 1 }

/-- The first handler finds no worker, the second succeeds: its commit passes the
first message, which no later session fetches. -/
theorem commit_passes_failed_message :
    ¬ AtLeastOnce (restarts anyMessage (fun _ => []) {}
      [[⟨.error .noWorker, .ok ()⟩, ⟨.ok (), .ok ()⟩], [⟨.ok (), .ok ()⟩]]) := by
  intro hall
  exact absurd (hall 0 (by decide)) (by decide)

theorem failures_last_keep_messages :
    AtLeastOnce (restarts anyMessage (fun _ => []) {}
      [[⟨.ok (), .ok ()⟩, ⟨.error .noWorker, .ok ()⟩], [⟨.ok (), .ok ()⟩]]) := by
  refine (restarts_atLeastOnce_iff (fun _ => rfl) ?_ ?_).mpr ?_
  · simp
  · intro offset
    simp
  · simp [FailuresLast, Turn.fails, Except.isOk, Except.toBool]

end Chronos.KafkaQueue
