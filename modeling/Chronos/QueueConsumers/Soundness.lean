import Chronos.QueueConsumers

namespace Chronos.QueueConsumers

open Chronos.Domain
open Chronos.MemoryQueue
open Chronos.QueueDelivery (DelayQueue released contents held content)

variable {ι : Type} [DecidableEq ι]

/-- A consumer that will look at the items before it calls a handler or waits. -/
def Consumer.onWay (c : Consumer) : Nat :=
  match c.phase with
  | .ready | .entering | .woken => 1
  | .parking | .asleep | .handling _ | .returned _ => 0

/-- What the phase of a consumer says about its watcher and about the way it returned. -/
def Consumer.Consistent (closed : Bool) (c : Consumer) : Prop :=
  match c.phase with
  | .ready | .entering | .handling _ => c.watching = false
  | .parking | .asleep => c.cancelled = false → c.watching = true
  | .woken => True
  | .returned none => closed = true ∧ c.watching = false
  | .returned (some err) => err = .canceled ∧ c.cancelled = true ∧ c.watching = false

def Pool.NoneCancelled (s : Pool ι) : Prop := ∀ i, (s.consumers i).cancelled = false

/-- The invariant, at a moment when `owed` calls of `Signal` are still to be made.  Where a
consumer is asleep, there is one on its way for each of the other items. -/
structure Sound [Fintype ι] (owed : Nat) (s : Pool ι) : Prop where
  nodup : s.waiters.Nodup
  mem_waiters : ∀ i, i ∈ s.waiters ↔ (s.consumers i).phase = .asleep
  parked : ∀ i, (s.consumers i).phase = .parking →
    s.queue.items = [] ∧ s.queue.closed = false
  closed : s.queue.closed = true → s.waiters = []
  consistent : ∀ i, (s.consumers i).Consistent s.queue.closed
  attended : s.NoneCancelled → s.waiters = [] ∨
    s.queue.items.length ≤ s.tally Consumer.onWay + owed

section Soundness

variable [Fintype ι] {s s' : Pool ι} {i : ι} {c : Consumer} {owed : Nat}

omit [DecidableEq ι] in
theorem sound_start : Sound 0 ({} : Pool ι) where
  nodup := List.nodup_nil
  mem_waiters i := by simp
  parked i h := by simp at h
  closed _ := rfl
  consistent i := rfl
  attended _ := Or.inl rfl

/-- A step of one consumer that leaves the list of the condition as it is. -/
theorem Sound.set {q : DelayQueue} {called : List QueuedJob} (h : Sound 0 s)
    (hclosed : q.closed = s.queue.closed) (hempty : s.queue.items = [] → q.items = [])
    (hasleep : c.phase = .asleep ↔ (s.consumers i).phase = .asleep)
    (hparked : c.phase = .parking → q.items = [] ∧ q.closed = false)
    (hconsistent : c.Consistent q.closed)
    (hattended : c.cancelled = false → s.waiters = [] ∨ q.items = [] ∨
      (s.consumers i).cancelled = false ∧
        q.items.length + (s.consumers i).onWay ≤ s.queue.items.length + c.onWay) :
    Sound 0 ({ s with queue := q, called := called }.set i c) where
  nodup := h.nodup
  mem_waiters j := by
    by_cases hj : j = i
    · subst hj
      rw [set_self, hasleep]
      exact h.mem_waiters j
    · rw [set_of_ne _ c hj]
      exact h.mem_waiters j
  parked j hj := by
    by_cases hij : j = i
    · subst hij
      rw [set_self] at hj
      exact hparked hj
    · rw [set_of_ne _ c hij] at hj
      obtain ⟨hitems, hopen⟩ := h.parked j hj
      exact ⟨hempty hitems, hclosed.trans hopen⟩
  closed hc := h.closed (hclosed.symm.trans hc)
  consistent j := by
    by_cases hj : j = i
    · subst hj
      rw [set_self]
      exact hconsistent
    · rw [set_of_ne _ c hj]
      exact hclosed ▸ h.consistent j
  attended hnone := by
    have hcancel : c.cancelled = false := by
      have hi := hnone i
      rwa [set_self] at hi
    rcases hattended hcancel with hwaiters | hitems | ⟨hold, hway⟩
    · exact Or.inl hwaiters
    · exact Or.inr (by simp [hitems])
    · have hbefore : s.NoneCancelled := by
        intro j
        by_cases hj : j = i
        · exact hj ▸ hold
        · have hother := hnone j
          rwa [set_of_ne _ c hj] at hother
      have htally := tally_set { s with queue := q, called := called } Consumer.onWay i c
      have hsame : ({ s with queue := q, called := called } : Pool ι).tally Consumer.onWay =
          s.tally Consumer.onWay := rfl
      rw [hsame] at htally
      refine (h.attended hbefore).imp_right fun hle => ?_
      simp only [set_queue] at htally ⊢
      omega

omit [DecidableEq ι] in
/-- An insertion owes a `Signal`. -/
theorem Sound.insert {q : DelayQueue} (h : Sound 0 s) (hfree : s.Unlocked)
    (hclosed : q.closed = s.queue.closed) (hitems : q.items.length ≤ s.queue.items.length + owed) :
    Sound owed { s with queue := q } where
  nodup := h.nodup
  mem_waiters := h.mem_waiters
  parked j hj := absurd hj (hfree j)
  closed hc := h.closed (hclosed.symm.trans hc)
  consistent j := hclosed ▸ h.consistent j
  attended hnone := (h.attended hnone).imp_right fun hle => by
    have hsame : ({ s with queue := q } : Pool ι).tally Consumer.onWay =
      s.tally Consumer.onWay := rfl
    rw [hsame]
    exact hitems.trans (by omega)

theorem Sound.signal (h : Sound (owed + 1) s) : Sound owed s.signal := by
  unfold Pool.signal
  split
  case h_1 hnil => exact { h with attended := fun _ => Or.inl hnil }
  case h_2 i rest hwaiters =>
    have hi : (s.consumers i).phase = .asleep :=
      (h.mem_waiters i).mp (hwaiters ▸ List.mem_cons_self)
    have hnodup : i ∉ rest ∧ rest.Nodup := List.nodup_cons.mp (hwaiters ▸ h.nodup)
    refine ⟨hnodup.2, fun j => ?_, fun j hj => ?_, fun hc => ?_, fun j => ?_, fun hnone => ?_⟩
    · by_cases hj : j = i
      · subst hj
        simp [hnodup.1]
      · rw [set_of_ne _ _ hj, ← h.mem_waiters j, hwaiters, List.mem_cons]
        simp [hj]
    · by_cases hij : j = i
      · subst hij
        simp at hj
      · rw [set_of_ne _ _ hij] at hj
        exact h.parked j hj
    · exact absurd (h.closed hc) (by simp [hwaiters])
    · by_cases hj : j = i
      · subst hj
        rw [set_self]
        exact trivial
      · rw [set_of_ne _ _ hj]
        exact h.consistent j
    · have hbefore : s.NoneCancelled := by
        intro j
        have hother := hnone j
        by_cases hj : j = i
        · subst hj
          simpa using hother
        · rwa [set_of_ne _ _ hj] at hother
      have htally := tally_set s Consumer.onWay i { s.consumers i with phase := .woken }
      have hold : (s.consumers i).onWay = 0 := by simp [Consumer.onWay, hi]
      have hnew : ({ s.consumers i with phase := .woken } : Consumer).onWay = 1 := rfl
      rw [hold, hnew] at htally
      rcases h.attended hbefore with hnil | hle
      · simp [hwaiters] at hnil
      · right
        change s.queue.items.length ≤ (s.set i _).tally Consumer.onWay + owed
        omega

theorem Sound.enqueue {q : DelayQueue} {job : QueuedJob} {now : Time} (h : Sound 0 s)
    (hfree : s.Unlocked) (hok : s.queue.enqueue job now = (.ok (), q)) :
    Sound 0 { s with queue := q }.signal := by
  obtain ⟨-, rfl⟩ := enqueue_ok hok
  refine Sound.signal (h.insert hfree ?_ ?_)
  · rfl
  · exact (length_insertLocked _ _).le

theorem Sound.signals (h : Sound owed s) : Sound 0 (s.signals owed) := by
  induction owed generalizing s with
  | zero => exact h
  | succ n ih => exact ih h.signal

/-- `Broadcast` leaves nobody asleep, so that the queue may be closed before it. -/
theorem Sound.broadcast {q : DelayQueue} (h : Sound owed s)
    (hparked : s.Unlocked ∨ q = s.queue)
    (hclosed : s.queue.closed = true → q.closed = true) :
    Sound 0 { s with queue := q }.broadcast where
  nodup := List.nodup_nil
  mem_waiters j := by
    simp only [Pool.broadcast, List.not_mem_nil, false_iff]
    split
    · simp
    · rename_i hj
      exact fun hasleep => hj ((h.mem_waiters j).mpr hasleep)
  parked j hj := by
    simp only [Pool.broadcast] at hj
    split at hj
    · simp at hj
    · rcases hparked with hfree | rfl
      · exact absurd hj (hfree j)
      · exact h.parked j hj
  closed _ := rfl
  consistent j := by
    simp only [Pool.broadcast]
    split
    · exact trivial
    · have hj := h.consistent j
      unfold Consumer.Consistent at hj ⊢
      split <;> simp_all
  attended _ := Or.inl rfl

/-- The consumer with the lock, having left the list of the condition. -/
theorem Sound.proceed (h : Sound 0 s)
    (hphase : (s.consumers i).phase = .entering ∨ (s.consumers i).phase = .woken)
    (hwatching : (s.consumers i).watching = false) : Sound 0 (s.proceed i) := by
  have hnot : (s.consumers i).phase ≠ .asleep := by
    rcases hphase with hp | hp <;> simp [hp]
  have hway : (s.consumers i).onWay = 1 := by
    rcases hphase with hp | hp <;> simp [Consumer.onWay, hp]
  rcases proceed_cases s i with
    ⟨hclosed, heq⟩ | ⟨hopen, job, rest, hitems, heq⟩ | ⟨hopen, hitems, heq⟩
  · rw [heq]
    exact h.set rfl id (by simp [hnot]) (by simp) ⟨hclosed, hwatching⟩
      fun _ => Or.inl (h.closed hclosed)
  · rw [heq]
    refine h.set rfl (by simp [hitems]) (by simp [hnot]) (by simp) hwatching fun hc => ?_
    refine Or.inr (Or.inr ⟨hc, ?_⟩)
    rw [hway, hitems]
    exact Nat.le_add_right _ _
  · rw [heq]
    exact h.set rfl id (by simp [hnot]) (fun _ => ⟨hitems, hopen⟩) (fun _ => rfl)
      fun _ => Or.inr (Or.inl hitems)

theorem Sound.park (h : Sound 0 s) (hphase : (s.consumers i).phase = .parking) :
    Sound 0 { s.set i { s.consumers i with phase := .asleep } with
      waiters := s.waiters ++ [i] } := by
  obtain ⟨hitems, hopen⟩ := h.parked i hphase
  have hnew : i ∉ s.waiters := by simp [h.mem_waiters, hphase]
  refine ⟨?_, fun j => ?_, fun _ _ => ⟨hitems, hopen⟩, fun hc => ?_, fun j => ?_, fun _ => ?_⟩
  · exact List.concat_eq_append ▸ h.nodup.concat hnew
  · by_cases hj : j = i
    · subst hj
      simp
    · rw [set_of_ne _ _ hj, ← h.mem_waiters j]
      simp [hj]
  · exact absurd (hopen.symm.trans hc) (by simp)
  · by_cases hj : j = i
    · subst hj
      have hj := h.consistent j
      rw [Consumer.Consistent, hphase] at hj
      rw [set_self]
      exact hj
    · rw [set_of_ne _ _ hj]
      exact h.consistent j
  · right
    simp [hitems]

theorem Sound.resume (h : Sound 0 s) (hphase : (s.consumers i).phase = .woken) :
    Sound 0 (s.resume i) := by
  have hdone : Sound 0 (s.set i (s.consumers i).closeDone) := by
    refine h.set rfl id Iff.rfl (by simp [Consumer.closeDone, hphase]) ?_ fun hc => ?_
    · simp [Consumer.Consistent, Consumer.closeDone, hphase]
    · exact Or.inr (Or.inr ⟨hc, le_rfl⟩)
  have hphase' : ((s.set i (s.consumers i).closeDone).consumers i).phase = .woken := by
    simpa [Consumer.closeDone] using hphase
  have hwatching : ((s.set i (s.consumers i).closeDone).consumers i).watching = false := by
    simp [Consumer.closeDone]
  rw [Pool.resume]
  split
  · rename_i hcancelled
    refine hdone.set rfl id ?_ (by simp) ⟨rfl, hcancelled, hwatching⟩ fun hc => ?_
    · rw [hphase']
      simp
    · exact absurd (hcancelled.symm.trans hc) (by simp)
  · exact hdone.proceed (Or.inr hphase') hwatching

/-- The handler has returned. -/
theorem Sound.handled {job : QueuedJob} (h : Sound 0 s)
    (hphase : (s.consumers i).phase = .handling job) :
    Sound 0 (s.set i { s.consumers i with phase := .ready }) := by
  have hi := h.consistent i
  rw [Consumer.Consistent, hphase] at hi
  refine h.set rfl id (by simp [hphase]) (by simp) hi fun hc => Or.inr (Or.inr ⟨hc, ?_⟩)
  simp [Consumer.onWay, hphase]

/-- The context of the watcher is cancelled, so that its consumer has no more need of it. -/
theorem Sound.unwatched (h : Sound 0 s) (hcancelled : (s.consumers i).cancelled = true) :
    Sound 0 (s.set i { s.consumers i with watching := false }) := by
  refine h.set rfl id Iff.rfl (h.parked i) ?_ (by simp [hcancelled])
  have hi := h.consistent i
  unfold Consumer.Consistent at hi ⊢
  split <;> simp_all

theorem Sound.late {n : Nat} (h : Sound 0 s) :
    Sound 0 (s.set i { s.consumers i with late := n }) := by
  refine h.set rfl id Iff.rfl (h.parked i) (h.consistent i) fun hc => ?_
  exact Or.inr (Or.inr ⟨hc, le_rfl⟩)

omit [Fintype ι] in
theorem unlocked_set (h : s.Unlocked) (hc : c.phase ≠ .parking) : (s.set i c).Unlocked := by
  intro j
  by_cases hj : j = i
  · subst hj
    rwa [set_self]
  · rw [set_of_ne s c hj]
    exact h j

theorem step_sound {event : Event ι} (h : Sound 0 s) (hstep : Step s event s') :
    Sound 0 s' := by
  cases hstep with
  | enqueue hfree hok => exact h.enqueue hfree hok
  | @enqueueDelay job delay now q hfree hok =>
      obtain ⟨hclosed, hitems, -⟩ := enqueueDelay_ok hok
      split
      · rename_i hdelay
        rw [if_pos hdelay] at hitems
        exact (h.insert hfree hclosed (hitems ▸ (length_insertLocked _ _).le)).signal
      · rename_i hdelay
        rw [if_neg hdelay] at hitems
        exact h.insert hfree hclosed (hitems ▸ le_rfl)
  | tick hfree hopen now =>
      have hlength := length_release hopen now
      exact (h.insert hfree (by rw [QueueDelivery.release_open hopen]) hlength.le).signals
  | close hfree => exact h.broadcast (Or.inl hfree) fun _ => rfl
  | cancel i =>
      refine h.set rfl id Iff.rfl (fun hp => h.parked i hp) ?_ (by simp)
      have hi := h.consistent i
      unfold Consumer.Consistent at hi ⊢
      split <;> simp_all
  | @look i hphase =>
      have hi := h.consistent i
      rw [Consumer.Consistent, hphase] at hi
      cases hcancel : (s.consumers i).cancelled with
      | true =>
          exact h.set rfl id (by simp [hphase]) (by simp) ⟨rfl, hcancel, hi⟩ (by simp [hcancel])
      | false =>
          refine h.set rfl id (by simp [hphase]) (by simp) hi fun _ => Or.inr (Or.inr ⟨hcancel, ?_⟩)
          simp [Consumer.onWay, hphase]
  | @enter i _ hphase =>
      have hi := h.consistent i
      rw [Consumer.Consistent, hphase] at hi
      exact h.proceed (Or.inl hphase) hi
  | park hphase => exact h.park hphase
  | @wake i _ hphase => exact h.resume hphase
  | succeeded hphase => exact h.handled hphase
  | failed hfree hphase hok =>
      exact (h.handled hphase).enqueue (unlocked_set hfree (by simp)) hok
  | dropped _ hphase herr =>
      obtain ⟨-, rfl⟩ := enqueue_error herr
      exact h.handled hphase
  | @watch i hcancelled hwatching => exact (h.unwatched hcancelled).broadcast (Or.inr rfl) id
  | lateWatch hcancelled hlate => exact h.late.broadcast (Or.inr rfl) id
  | exit hlate => exact h.late

end Soundness

end Chronos.QueueConsumers
