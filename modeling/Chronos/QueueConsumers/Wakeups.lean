import Chronos.QueueConsumers.Progress
import Chronos.QueueConsumers.Soundness

namespace Chronos.QueueConsumers

open Chronos.Library.Histories
open Chronos.Library.Settling
open Chronos.MemoryQueue
open Chronos.QueueDelivery (DelayQueue released contents held content)

variable {ι : Type} [DecidableEq ι]

section Leaving

variable {s s' : Pool ι} {i j : ι}

/-- The consumer is cancelled and cannot fall asleep for good: its watcher will wake it, or it
is awake and will return. -/
def Leaving (i : ι) (s : Pool ι) : Prop :=
  (s.consumers i).cancelled = true ∧
    ((s.consumers i).phase = .asleep ∧ (s.consumers i).watching = true ∨
      (s.consumers i).phase = .woken ∨ (s.consumers i).phase = .returned (some .canceled))

omit [DecidableEq ι] in
theorem leaving_of_eq (h : Leaving i s)
    (hsame : s'.consumers i = s.consumers i) : Leaving i s' := by
  rwa [Leaving, hsame]

omit [DecidableEq ι] in
theorem leaving_woken (h : Leaving i s)
    (hwoken : s'.consumers i = { s.consumers i with phase := .woken }) : Leaving i s' := by
  rw [Leaving, hwoken]
  exact ⟨h.1, Or.inr (Or.inl rfl)⟩

theorem leaving_signal (h : Leaving i s) : Leaving i s.signal := by
  unfold Pool.signal
  split
  · exact h
  · rename_i j rest hwaiters
    by_cases hj : i = j
    · subst hj
      exact leaving_woken h (set_self ..)
    · exact leaving_of_eq h (set_of_ne _ _ hj)

theorem leaving_signals (n : Nat) (h : Leaving i s) : Leaving i (s.signals n) := by
  induction n generalizing s with
  | zero => exact h
  | succ n ih => exact ih (leaving_signal h)

theorem leaving_broadcast (h : Leaving i s) : Leaving i s.broadcast := by
  by_cases hi : i ∈ s.waiters
  · exact leaving_woken h (if_pos hi)
  · exact leaving_of_eq h (if_neg hi)

theorem proceed_of_ne (hij : i ≠ j) : (s.proceed j).consumers i = s.consumers i := by
  rcases proceed_cases s j with ⟨-, heq⟩ | ⟨-, job, rest, -, heq⟩ | ⟨-, -, heq⟩ <;>
    rw [heq, set_of_ne _ _ hij]

theorem resume_of_ne (hij : i ≠ j) : (s.resume j).consumers i = s.consumers i := by
  rw [Pool.resume]
  split
  · rw [set_of_ne _ _ hij, set_of_ne _ _ hij]
  · rw [proceed_of_ne hij, set_of_ne _ _ hij]

theorem resume_cancelled (hcancelled : (s.consumers i).cancelled = true) :
    s.resume i =
      s.set i { (s.consumers i).closeDone with phase := .returned (some .canceled) } := by
  simp [Pool.resume, Consumer.closeDone, hcancelled]

end Leaving

section Runs

variable [Fintype ι] {s : Pool ι} {history : List (Entry (Pool ι) (Event ι))}

theorem run_sound (hrun : Run Step {} history s) : Sound 0 s := by
  induction hrun with
  | start => exact sound_start
  | next _ hstep ih => exact step_sound ih hstep

/-- From a sound state the consumers come to rest, whatever order they run in. -/
theorem settles_kept (h : Sound 0 s) {P : Pool ι → Prop}
    (hend : ∀ {s'}, Sound 0 s' → Keeps s s' → Stuck Turn s' → P s') : Settles Turn P s := by
  refine settles_of_rank Pool.rank (I := fun s' => Sound 0 s' ∧ Keeps s s') ?_ ?_ ?_ ⟨h, ?_⟩
  · rintro s' s'' ⟨hsound, hkeeps⟩ hturn
    obtain ⟨event, -, hstep⟩ := id hturn
    exact ⟨step_sound hsound hstep, hkeeps.trans (turn_keeps hturn)⟩
  · exact fun _ hturn => turn_rank hturn
  · exact fun hs hstuck => hend hs.1 hs.2 hstuck
  · exact ⟨rfl, fun _ => rfl, rfl, fun _ => rfl⟩

/-- No wake-up is lost.  While a consumer is asleep, there is another one on its way for every
queued job, even if the handlers never return.  If they do return, every order of the steps of
the consumers comes to an end, with the jobs handed over in the order of the queue. -/
theorem every_job_handed_over [Nonempty ι] (hrun : Run Step {} history s)
    (hopen : s.queue.closed = false) (hnone : s.NoneCancelled) :
    (s.waiters = [] ∨ s.queue.items.length ≤ s.tally Consumer.onWay) ∧
      Settles Turn (fun s' => s'.queue.items = [] ∧ s'.called = s.called ++ s.queue.items ∧
        ∀ i, (s'.consumers i).phase = .asleep) s := by
  refine ⟨(run_sound hrun).attended hnone, settles_kept (run_sound hrun) ?_⟩
  intro s' hsound hkeeps hstuck
  have hnone' : s'.NoneCancelled := fun i => (hkeeps.cancelled i).trans (hnone i)
  have hasleep : ∀ i, (s'.consumers i).phase = .asleep := by
    intro i
    rcases (stuck_phase hstuck i).1 with hp | ⟨err, hp⟩
    · exact hp
    · have hi := hsound.consistent i
      rw [Consumer.Consistent, hp] at hi
      cases err with
      | none => exact absurd (hi.1.symm.trans (hkeeps.closed.trans hopen)) (by simp)
      | some err => exact absurd (hi.2.1.symm.trans (hnone' i)) (by simp)
  have hitems : s'.queue.items = [] := by
    rcases hsound.attended hnone' with hnil | hle
    · obtain ⟨i⟩ := ‹Nonempty ι›
      have hi := (hsound.mem_waiters i).mpr (hasleep i)
      simp [hnil] at hi
    · have hway : s'.tally Consumer.onWay = 0 := by
        simp [Pool.tally, Consumer.onWay, hasleep]
      rw [hway] at hle
      exact List.length_eq_zero_iff.mp (Nat.le_zero.mp hle)
  have hjobs := hkeeps.jobs
  rw [hitems, List.append_nil] at hjobs
  exact ⟨hitems, hjobs, hasleep⟩

/-- One consumer waits, and the other has not looked at its context yet. -/
def oneAsleep : Pool (Fin 2) :=
  { Pool.set {} 0 { phase := .asleep, watching := true } with waiters := [0] }

theorem run_oneAsleep : ∃ history, Run Step {} history oneAsleep := by
  have hlook : Step ({} : Pool (Fin 2)) (.look 0) (Pool.set {} 0 { phase := .entering }) :=
    .look rfl
  have henter : Step (Pool.set ({} : Pool (Fin 2)) 0 { phase := .entering }) (.enter 0)
      (Pool.set {} 0 { phase := .parking, watching := true }) := by
    have hstep := Step.enter (s := Pool.set ({} : Pool (Fin 2)) 0 { phase := .entering }) (i := 0)
      (unlocked_set (by simp [Pool.Unlocked]) (by simp)) (by simp)
    simpa [Pool.proceed, DelayQueue.take, Queue.take] using hstep
  have hpark : Step (Pool.set ({} : Pool (Fin 2)) 0 { phase := .parking, watching := true })
      (.park 0) oneAsleep := by
    have hstep := Step.park
      (s := Pool.set ({} : Pool (Fin 2)) 0 { phase := .parking, watching := true }) (i := 0)
      (by simp)
    simpa [oneAsleep] using hstep
  exact ⟨_, ((Run.start.next hlook).next henter).next hpark⟩

/-- A job enqueued for the consumer that waits is handed over. -/
theorem sleeper_gets_job :
    Settles Turn (fun s => s.queue.items = [] ∧ s.called = [QueueDelivery.stampedJob "job" 1 2] ∧
        ∀ i, (s.consumers i).phase = .asleep)
      { oneAsleep with queue := ⟨⟨[QueueDelivery.stampedJob "job" 1 2], false⟩, []⟩ }.signal := by
  obtain ⟨history, hrun⟩ := run_oneAsleep
  have henqueue : Step oneAsleep (.enqueue (QueueDelivery.stampedJob "job" 1 2) 2)
      { oneAsleep with queue := ⟨⟨[QueueDelivery.stampedJob "job" 1 2], false⟩, []⟩ }.signal :=
    .enqueue (by unfold Pool.Unlocked; decide) rfl
  exact (every_job_handed_over (hrun.next henqueue) rfl
    (by unfold Pool.NoneCancelled; decide)).2

/-- After `Close` every consumer returns, in every order of the steps: with nil, unless its
context was cancelled.  No watcher is left, no handler is called, and the jobs that were queued
stay where they are. -/
theorem close_ends_consumers (hrun : Run Step {} history s) (hclosed : s.queue.closed = true) :
    Settles Turn (fun s' => s'.called = s.called ∧ s'.queue = s.queue ∧
      ∀ i, (s'.consumers i).watching = false ∧ (s'.consumers i).late = 0 ∧
        ((s'.consumers i).phase = .returned none ∨
          (s'.consumers i).phase = .returned (some .canceled) ∧
            (s.consumers i).cancelled = true)) s := by
  refine settles_kept (run_sound hrun) ?_
  intro s' hsound hkeeps hstuck
  have hqueue := hkeeps.shut hclosed
  have hjobs := hkeeps.jobs
  rw [hqueue] at hjobs
  refine ⟨List.append_cancel_right hjobs, hqueue, fun i => ?_⟩
  have hi := hsound.consistent i
  obtain ⟨hphase, hlate, -⟩ := stuck_phase hstuck i
  rcases hphase with hp | ⟨err, hp⟩
  · have hwaits := (hsound.mem_waiters i).mpr hp
    simp [hsound.closed (hkeeps.closed.trans hclosed)] at hwaits
  · rw [Consumer.Consistent, hp] at hi
    cases err with
    | none => exact ⟨hi.2, hlate, Or.inl hp⟩
    | some err =>
        obtain ⟨rfl, hcancelled, hwatching⟩ := hi
        exact ⟨hwatching, hlate, Or.inr ⟨hp, (hkeeps.cancelled i).symm.trans hcancelled⟩⟩

def closedWhileAsleep : Pool (Fin 2) :=
  { oneAsleep with queue := { oneAsleep.queue with closed := true } }.broadcast

/-- `Close` ends the consumer that waits and the one that has not started. -/
theorem sleeper_returns_on_close :
    Settles Turn (fun s => s.called = [] ∧ s.queue = closedWhileAsleep.queue ∧
      ∀ i, (s.consumers i).watching = false ∧ (s.consumers i).late = 0 ∧
        ((s.consumers i).phase = .returned none ∨
          (s.consumers i).phase = .returned (some .canceled) ∧
            (closedWhileAsleep.consumers i).cancelled = true)) closedWhileAsleep := by
  obtain ⟨history, hrun⟩ := run_oneAsleep
  have hclose : Step oneAsleep .close closedWhileAsleep :=
    .close (by unfold Pool.Unlocked; decide)
  exact close_ends_consumers (hrun.next hclose) rfl

theorem step_leaving {s' : Pool ι} {i : ι} {event : Event ι} (hsound : Sound 0 s)
    (h : Leaving i s) (hstep : Step s event s') : Leaving i s' := by
  obtain ⟨hcancelled, hphase⟩ := id h
  cases hstep with
  | enqueue => exact leaving_signal h
  | enqueueDelay =>
      split
      · exact leaving_signal h
      · exact h
  | tick => exact leaving_signals _ h
  | close => exact leaving_broadcast h
  | cancel j =>
      by_cases hij : i = j
      · subst hij
        rw [Leaving, set_self]
        exact ⟨rfl, hphase⟩
      · exact leaving_of_eq h (set_of_ne _ _ hij)
  | @look j hj | @succeeded j _ hj | @dropped j _ _ _ _ _ hj =>
      have hij : i ≠ j := by
        rintro rfl
        simp [hj] at hphase
      exact leaving_of_eq h (set_of_ne _ _ hij)
  | @enter j _ hj =>
      have hij : i ≠ j := by
        rintro rfl
        simp [hj] at hphase
      exact leaving_of_eq h (proceed_of_ne hij)
  | @park j hj =>
      have hij : i ≠ j := by
        rintro rfl
        simp [hj] at hphase
      exact leaving_of_eq h (set_of_ne _ _ hij)
  | @failed j _ _ _ _ hj =>
      have hij : i ≠ j := by
        rintro rfl
        simp [hj] at hphase
      exact leaving_signal (leaving_of_eq h (set_of_ne _ _ hij))
  | @wake j _ hj =>
      by_cases hij : i = j
      · subst hij
        rw [resume_cancelled hcancelled, Leaving, set_self]
        exact ⟨hcancelled, Or.inr (Or.inr rfl)⟩
      · exact leaving_of_eq h (resume_of_ne hij)
  | @watch j _ _ =>
      by_cases hij : i = j
      · subst hij
        -- The watcher is used up, and the consumer is off the list of the condition with it.
        rcases hphase with ⟨hasleep, -⟩ | hawake
        · have hi := (hsound.mem_waiters i).mpr hasleep
          have hwoken : ((s.set i { s.consumers i with watching := false }).broadcast).consumers i =
              { s.consumers i with phase := .woken, watching := false } := by
            simp [Pool.broadcast, hi]
          rw [Leaving, hwoken]
          exact ⟨hcancelled, Or.inr (Or.inl rfl)⟩
        · refine leaving_broadcast ?_
          rw [Leaving, set_self]
          exact ⟨hcancelled, Or.inr hawake⟩
      · exact leaving_broadcast (leaving_of_eq h (set_of_ne _ _ hij))
  | @lateWatch j _ _ =>
      refine leaving_broadcast ?_
      by_cases hij : i = j
      · subst hij
        rw [Leaving, set_self]
        exact ⟨hcancelled, hphase⟩
      · exact leaving_of_eq h (set_of_ne _ _ hij)
  | @exit j _ =>
      by_cases hij : i = j
      · subst hij
        rw [Leaving, set_self]
        exact ⟨hcancelled, hphase⟩
      · exact leaving_of_eq h (set_of_ne _ _ hij)

/-- The context of a consumer that waits is cancelled.  Whatever happens after that, the
consumer returns the error of its context once the others come to rest. -/
theorem cancel_ends_sleeper {i : ι} {later : List (Entry (Pool ι) (Event ι))} {s' : Pool ι}
    (hrun : Run Step {} history s) (hasleep : (s.consumers i).phase = .asleep)
    (hcancelled : (s.consumers i).cancelled = false)
    (hlater : Run Step (s.set i { s.consumers i with cancelled := true }) later s') :
    Settles Turn (fun s'' => (s''.consumers i).phase = .returned (some .canceled)) s' := by
  have hstart : Sound 0 (s.set i { s.consumers i with cancelled := true }) :=
    step_sound (run_sound hrun) (.cancel i)
  have hleaving : Leaving i (s.set i { s.consumers i with cancelled := true }) := by
    have hi := (run_sound hrun).consistent i
    rw [Consumer.Consistent, hasleep] at hi
    rw [Leaving, set_self]
    exact ⟨rfl, Or.inl ⟨hasleep, hi hcancelled⟩⟩
  have hreached : Sound 0 s' ∧ Leaving i s' := by
    induction hlater with
    | start => exact ⟨hstart, hleaving⟩
    | next _ hstep ih => exact ⟨step_sound ih.1 hstep, step_leaving ih.1 ih.2 hstep⟩
  refine settles_of_rank Pool.rank (I := fun s'' => Sound 0 s'' ∧ Leaving i s'') ?_ ?_ ?_ hreached
  · rintro s₁ s₂ ⟨hsound, hleaves⟩ ⟨event, -, hstep⟩
    exact ⟨step_sound hsound hstep, step_leaving hsound hleaves hstep⟩
  · exact fun _ hturn => turn_rank hturn
  · rintro s₁ ⟨-, hcancel, hphase⟩ hstuck
    obtain ⟨hrest, -, hwatching⟩ := stuck_phase hstuck i
    rcases hphase with ⟨-, hwatched⟩ | hwoken | hreturned
    · exact absurd (hwatched.symm.trans (hwatching hcancel)) (by simp)
    · simp [hwoken] at hrest
    · exact hreturned

theorem sleeper_returns_on_cancel :
    Settles Turn (fun s => (s.consumers 0).phase = .returned (some .canceled))
      (oneAsleep.set 0 { oneAsleep.consumers 0 with cancelled := true }) := by
  obtain ⟨history, hrun⟩ := run_oneAsleep
  exact cancel_ends_sleeper hrun (by decide) (by decide) .start

end Runs

end Chronos.QueueConsumers
