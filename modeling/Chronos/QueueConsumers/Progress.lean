import Chronos.Library.Settling
import Chronos.QueueConsumers
import Mathlib.Data.Prod.Lex
import Mathlib.Order.WellFounded

namespace Chronos.QueueConsumers

open Chronos.Domain
open Chronos.Library.Settling
open Chronos.QueueDelivery (DelayQueue released contents held content)

variable {ι : Type} [DecidableEq ι]

section Rank

variable [Fintype ι] {s s' : Pool ι} {i : ι} {c : Consumer}

/-- How often `Broadcast` can still be called on behalf of the consumer.  One that looked at its
context before it was cancelled may start one more watcher. -/
def Consumer.alarms (c : Consumer) : Nat :=
  if c.cancelled then c.watching.toNat + c.late + (if c.phase = .entering then 1 else 0) else 0

def Phase.work : Phase → Nat
  | .asleep | .returned _ => 0
  | .parking => 1
  | .entering | .woken => 3
  | .ready => 4
  | .handling _ => 5

def Consumer.work (c : Consumer) : Nat := c.phase.work + c.watching.toNat + c.late

/-- A `Broadcast` costs an alarm, and every other step takes some of the work that is left. -/
def Pool.rank (s : Pool ι) : ℕ ×ₗ ℕ :=
  toLex (s.tally Consumer.alarms, 3 * s.queue.items.length + s.tally Consumer.work)

theorem rank_set {q : DelayQueue} {l : List QueuedJob}
    (halarms : c.alarms ≤ (s.consumers i).alarms)
    (hwork : 3 * q.items.length + c.work < 3 * s.queue.items.length + (s.consumers i).work) :
    ({ s with queue := q, called := l }.set i c).rank < s.rank := by
  have htally := fun f : Consumer → ℕ =>
    tally_set { s with queue := q, called := l } f i c
  have hsame : ∀ f : Consumer → ℕ,
      ({ s with queue := q, called := l } : Pool ι).tally f = s.tally f := fun _ => rfl
  simp only [hsame] at htally
  have hfirst := htally Consumer.alarms
  have hsecond := htally Consumer.work
  rw [Pool.rank, Pool.rank, Prod.Lex.toLex_lt_toLex]
  simp only [set_queue]
  omega

theorem rank_closeDone : (s.set i (s.consumers i).closeDone).rank = s.rank := by
  have halarms : (s.consumers i).closeDone.alarms = (s.consumers i).alarms := by
    simp only [Consumer.alarms, Consumer.closeDone, Bool.toNat_false, zero_add,
      Nat.add_comm (s.consumers i).late]
  have hwork : (s.consumers i).closeDone.work = (s.consumers i).work := by
    simp only [Consumer.work, Consumer.closeDone, Bool.toNat_false]
    omega
  have hfirst := tally_set s Consumer.alarms i (s.consumers i).closeDone
  have hsecond := tally_set s Consumer.work i (s.consumers i).closeDone
  rw [halarms] at hfirst
  rw [hwork] at hsecond
  rw [Pool.rank, Pool.rank, Nat.add_right_cancel hfirst, Nat.add_right_cancel hsecond, set_queue]

theorem alarms_woken_le (c : Consumer) : { c with phase := .woken }.alarms ≤ c.alarms := by
  unfold Consumer.alarms
  split <;> simp

theorem rank_broadcast (halarms : c.alarms < (s.consumers i).alarms) :
    (s.set i c).broadcast.rank < s.rank := by
  have hset := tally_set s Consumer.alarms i c
  have hwoken : (s.set i c).broadcast.tally Consumer.alarms ≤
      (s.set i c).tally Consumer.alarms := by
    refine Finset.sum_le_sum fun j _ => ?_
    simp only [Pool.broadcast]
    split
    · exact alarms_woken_le _
    · exact le_rfl
  rw [Pool.rank, Pool.rank, Prod.Lex.toLex_lt_toLex]
  left
  dsimp only
  omega

theorem rank_proceed (hphase : (s.consumers i).phase = .entering ∨
      (s.consumers i).phase = .woken ∧ (s.consumers i).cancelled = false) :
    (s.proceed i).rank < s.rank := by
  have hold : (s.consumers i).phase.work = 3 := by
    rcases hphase with hp | ⟨hp, -⟩ <;> rw [hp] <;> rfl
  rcases proceed_cases s i with
    ⟨-, heq⟩ | ⟨-, job, rest, hitems, heq⟩ | ⟨-, hitems, heq⟩
  · rw [heq]
    refine rank_set ?_ ?_
    · unfold Consumer.alarms
      split <;> simp
    · simp only [Consumer.work, hold]
      simp only [Phase.work]
      omega
  · rw [heq]
    refine rank_set ?_ ?_
    · unfold Consumer.alarms
      split <;> simp
    · simp only [Consumer.work, hold, hitems, List.length_cons]
      simp only [Phase.work]
      omega
  · rw [heq]
    refine rank_set ?_ ?_
    · rcases hphase with hp | ⟨-, hc⟩
      · unfold Consumer.alarms
        split
        · simp only [Bool.toNat_true, reduceCtorEq, if_false]
          omega
        · exact le_rfl
      · simp [Consumer.alarms, hc]
    · simp only [Consumer.work, hold, Bool.toNat_true]
      simp only [Phase.work]
      omega

theorem rank_resume (hphase : (s.consumers i).phase = .woken) : (s.resume i).rank < s.rank := by
  rw [Pool.resume, ← rank_closeDone (s := s) (i := i)]
  have hphase' : ((s.set i (s.consumers i).closeDone).consumers i).phase = .woken := by
    simpa [Consumer.closeDone] using hphase
  split
  · refine rank_set (s := s.set i (s.consumers i).closeDone) (q := s.queue) (l := s.called) ?_ ?_
    · unfold Consumer.alarms
      split <;> simp
    · simp only [Consumer.work, hphase', set_queue, Phase.work]
      omega
  · rename_i hcancelled
    exact rank_proceed (Or.inr ⟨hphase', by simpa using hcancelled⟩)

theorem turn_rank (hturn : Turn s s') : s'.rank < s.rank := by
  obtain ⟨event, hown, hstep⟩ := hturn
  cases hstep with
  | enqueue | enqueueDelay | tick | close | cancel | failed => simp [Event.own] at hown
  | @look i hphase =>
      cases hcancel : (s.consumers i).cancelled with
      | true => exact rank_set (by simp [Consumer.alarms, hphase]) (by
          simp [Consumer.work, Phase.work, hphase])
      | false => exact rank_set (by simp [Consumer.alarms, hcancel]) (by
          simp [Consumer.work, Phase.work, hphase])
  | enter _ hphase => exact rank_proceed (Or.inl hphase)
  | @park i hphase =>
      refine rank_set (s := s) (q := s.queue) (l := s.called) ?_ ?_
      · simp [Consumer.alarms, hphase]
      · simp [Consumer.work, Phase.work, hphase]
  | wake _ hphase => exact rank_resume hphase
  | succeeded hphase =>
      exact rank_set (by simp [Consumer.alarms, hphase]) (by
        simp [Consumer.work, Phase.work, hphase])
  | dropped _ hphase herr =>
      obtain ⟨-, rfl⟩ := enqueue_error herr
      exact rank_set (by simp [Consumer.alarms, hphase]) (by
        simp [Consumer.work, Phase.work, hphase])
  | watch hcancelled hwatching =>
      refine rank_broadcast ?_
      simp only [Consumer.alarms, hcancelled, hwatching, if_true, Bool.toNat_true, Bool.toNat_false]
      omega
  | lateWatch hcancelled hlate =>
      refine rank_broadcast ?_
      simp only [Consumer.alarms, hcancelled, if_true]
      omega
  | exit hlate =>
      refine rank_set ?_ ?_
      · simp only [Consumer.alarms]
        split <;> omega
      · simp only [Consumer.work]
        omega

end Rank

section Turns

variable {s s' : Pool ι} {i : ι}

/-- What the consumers leave as it is.  They hand over from the front of the queue, and hand
over nothing once it is closed. -/
structure Keeps (s s' : Pool ι) : Prop where
  closed : s'.queue.closed = s.queue.closed
  cancelled : ∀ i, (s'.consumers i).cancelled = (s.consumers i).cancelled
  jobs : s'.called ++ s'.queue.items = s.called ++ s.queue.items
  shut : s.queue.closed = true → s'.queue = s.queue

omit [DecidableEq ι] in
theorem Keeps.trans {s'' : Pool ι} (h : Keeps s s') (h' : Keeps s' s'') : Keeps s s'' where
  closed := h'.closed.trans h.closed
  cancelled i := (h'.cancelled i).trans (h.cancelled i)
  jobs := h'.jobs.trans h.jobs
  shut hc := (h'.shut (h.closed.trans hc)).trans (h.shut hc)

theorem keeps_set {c : Consumer} (hc : c.cancelled = (s.consumers i).cancelled) :
    Keeps s (s.set i c) where
  closed := rfl
  cancelled j := by
    by_cases hj : j = i
    · subst hj
      rwa [set_self]
    · rw [set_of_ne s c hj]
  jobs := rfl
  shut _ := rfl

theorem keeps_broadcast : Keeps s s.broadcast where
  closed := rfl
  cancelled j := by
    simp only [Pool.broadcast]
    split <;> rfl
  jobs := rfl
  shut _ := rfl

theorem keeps_proceed : Keeps s (s.proceed i) := by
  rcases proceed_cases s i with
    ⟨-, heq⟩ | ⟨hopen, job, rest, hitems, heq⟩ | ⟨-, -, heq⟩
  · exact heq ▸ keeps_set rfl
  · rw [heq]
    refine ⟨rfl, fun j => ?_, by simp [hitems], fun hc => ?_⟩
    · by_cases hj : j = i
      · subst hj
        rw [set_self]
      · rw [set_of_ne _ _ hj]
    · exact absurd (hopen.symm.trans hc) (by simp)
  · exact heq ▸ keeps_set rfl

theorem turn_keeps (hturn : Turn s s') : Keeps s s' := by
  obtain ⟨event, hown, hstep⟩ := hturn
  cases hstep with
  | enqueue | enqueueDelay | tick | close | cancel | failed => simp [Event.own] at hown
  | look | succeeded | exit => exact keeps_set rfl
  | enter => exact keeps_proceed
  | @park i _ =>
      have hset := keeps_set (s := s) (i := i) (c := { s.consumers i with phase := .asleep }) rfl
      exact ⟨hset.closed, hset.cancelled, hset.jobs, hset.shut⟩
  | @wake i _ _ =>
      have hdone : Keeps s (s.set i (s.consumers i).closeDone) := keeps_set rfl
      rw [Pool.resume]
      split
      · exact hdone.trans (keeps_set rfl)
      · exact hdone.trans keeps_proceed
  | dropped _ _ herr =>
      obtain ⟨-, rfl⟩ := enqueue_error herr
      exact keeps_set rfl
  | watch | lateWatch =>
      refine Keeps.trans ?_ keeps_broadcast
      exact keeps_set rfl

/-- Where the consumers have nothing left to do, each of them waits or has returned, and the
only watchers are those of contexts that are not cancelled. -/
theorem stuck_phase (hstuck : Stuck Turn s) (i : ι) :
    ((s.consumers i).phase = .asleep ∨ ∃ err, (s.consumers i).phase = .returned err) ∧
      (s.consumers i).late = 0 ∧
      ((s.consumers i).cancelled = true → (s.consumers i).watching = false) := by
  have hnone : ∀ {event s'}, event.own = true → ¬ Step s event s' :=
    fun hown hstep => hstuck _ ⟨_, hown, hstep⟩
  have hfree : s.Unlocked := fun j hj => hnone rfl (.park hj)
  refine ⟨?_, ?_, fun hcancelled => ?_⟩
  · cases hphase : (s.consumers i).phase with
    | ready => exact absurd (.look hphase) (hnone rfl)
    | entering => exact absurd (.enter hfree hphase) (hnone rfl)
    | parking => exact absurd hphase (hfree i)
    | asleep => exact Or.inl rfl
    | woken => exact absurd (.wake hfree hphase) (hnone rfl)
    | handling job => exact absurd (.succeeded hphase) (hnone rfl)
    | returned err => exact Or.inr ⟨err, rfl⟩
  · by_contra hlate
    exact hnone rfl (.exit (Nat.pos_of_ne_zero hlate))
  · by_contra hwatching
    exact hnone rfl (.watch hcancelled (by simpa using hwatching))

end Turns

end Chronos.QueueConsumers
