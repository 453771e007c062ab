import Chronos.QueueDelivery
import Mathlib.Algebra.Order.BigOperators.Group.Finset

namespace Chronos.QueueConsumers

open Chronos.Domain
open Chronos.MemoryQueue
open Chronos.QueueDelivery (DelayQueue released contents held content)

/-- Where a goroutine stands in `StartConsumer`. -/
inductive Phase
  /-- before it looks at its context -/
  | ready
  /-- before it takes the lock -/
  | entering
  /-- with the lock, before it is on the list of the condition -/
  | parking
  /-- on the list of the condition, without the lock -/
  | asleep
  /-- off the list of the condition, before it has the lock again -/
  | woken
  | handling (job : QueuedJob)
  | returned (err : Option Err)
  deriving DecidableEq, Repr

/-- A call of `StartConsumer` with its context, and the goroutines that it started to watch the
context: the one of the wait that it is in, and those of earlier waits that still run. -/
structure Consumer where
  phase : Phase := .ready
  cancelled : Bool := false
  watching : Bool := false
  late : Nat := 0
  deriving DecidableEq, Repr

/-- The wait is over, and its watcher is one of those that still run. -/
def Consumer.closeDone (c : Consumer) : Consumer :=
  { c with watching := false, late := c.late + c.watching.toNat }

/-- The queue, the list of its condition and the consumers.  `called` are the jobs that a
handler was called with. -/
structure Pool (ι : Type) where
  queue : DelayQueue := {}
  waiters : List ι := []
  consumers : ι → Consumer := fun _ => {}
  called : List QueuedJob := []

variable {ι : Type} [DecidableEq ι]

namespace Pool

def set (s : Pool ι) (i : ι) (c : Consumer) : Pool ι :=
  { s with consumers := Function.update s.consumers i c }

/-- `Signal` takes the goroutine that waits for longest off the list. -/
def signal (s : Pool ι) : Pool ι :=
  match s.waiters with
  | [] => s
  | i :: rest => { s.set i { s.consumers i with phase := .woken } with waiters := rest }

def signals : Nat → Pool ι → Pool ι
  | 0, s => s
  | n + 1, s => signals n s.signal

def broadcast (s : Pool ι) : Pool ι :=
  { s with
    waiters := []
    consumers := fun i =>
      if i ∈ s.waiters then { s.consumers i with phase := .woken } else s.consumers i }

/-- The lock is held across two steps only by a consumer that is about to wait. -/
def Unlocked (s : Pool ι) : Prop := ∀ i, (s.consumers i).phase ≠ .parking

/-- The consumer has the lock and reads the condition of its inner loop. -/
def proceed (s : Pool ι) (i : ι) : Pool ι :=
  if s.queue.closed then s.set i { s.consumers i with phase := .returned none }
  else
    match s.queue.take with
    | (some job, q) =>
        { s with queue := q, called := s.called ++ [job] }.set i
          { s.consumers i with phase := .handling job }
    | (none, _) => s.set i { s.consumers i with phase := .parking, watching := true }

/-- The consumer has the lock again after `Wait`. -/
def resume (s : Pool ι) (i : ι) : Pool ι :=
  let s := s.set i (s.consumers i).closeDone
  if (s.consumers i).cancelled then
    s.set i { s.consumers i with phase := .returned (some .canceled) }
  else s.proceed i

end Pool

inductive Event (ι : Type)
  | enqueue (job : QueuedJob) (now : Time)
  | enqueueDelay (job : QueuedJob) (delay : Duration) (now : Time)
  | tick (now : Time)
  | close
  | cancel (i : ι)
  | look (i : ι)
  | enter (i : ι)
  | park (i : ι)
  | wake (i : ι)
  | succeeded (i : ι) (job : QueuedJob)
  | failed (i : ι) (job : QueuedJob) (now : Time)
  | dropped (i : ι) (job : QueuedJob)
  | watch (i : ι)
  | lateWatch (i : ι)
  | exit (i : ι)

/-- The steps of the callers, of the consumers and of their watchers, in any order.  A call that
the queue rejects changes nothing and is no step. -/
inductive Step : Pool ι → Event ι → Pool ι → Prop
  | enqueue {s : Pool ι} {job : QueuedJob} {now : Time} {q : DelayQueue} (hfree : s.Unlocked)
      (hok : s.queue.enqueue job now = (.ok (), q)) :
      Step s (.enqueue job now) { s with queue := q }.signal
  | enqueueDelay {s : Pool ι} {job : QueuedJob} {delay : Duration} {now : Time}
      {q : DelayQueue} (hfree : s.Unlocked)
      (hok : s.queue.enqueueDelay job delay now = (.ok (), q)) :
      Step s (.enqueueDelay job delay now)
        (if delay ≤ 0 then { s with queue := q }.signal else { s with queue := q })
  | tick {s : Pool ι} (hfree : s.Unlocked) (hopen : s.queue.closed = false) (now : Time) :
      Step s (.tick now)
        ({ s with queue := s.queue.release now }.signals (released now s.queue.delayed).length)
  | close {s : Pool ι} (hfree : s.Unlocked) :
      Step s .close { s with queue := { s.queue with closed := true } }.broadcast
  | cancel {s : Pool ι} (i : ι) :
      Step s (.cancel i) (s.set i { s.consumers i with cancelled := true })
  | look {s : Pool ι} {i : ι} (hphase : (s.consumers i).phase = .ready) :
      Step s (.look i) (s.set i { s.consumers i with
        phase := if (s.consumers i).cancelled then .returned (some .canceled) else .entering })
  | enter {s : Pool ι} {i : ι} (hfree : s.Unlocked)
      (hphase : (s.consumers i).phase = .entering) : Step s (.enter i) (s.proceed i)
  | park {s : Pool ι} {i : ι} (hphase : (s.consumers i).phase = .parking) :
      Step s (.park i)
        { s.set i { s.consumers i with phase := .asleep } with waiters := s.waiters ++ [i] }
  | wake {s : Pool ι} {i : ι} (hfree : s.Unlocked) (hphase : (s.consumers i).phase = .woken) :
      Step s (.wake i) (s.resume i)
  | succeeded {s : Pool ι} {i : ι} {job : QueuedJob}
      (hphase : (s.consumers i).phase = .handling job) :
      Step s (.succeeded i job) (s.set i { s.consumers i with phase := .ready })
  | failed {s : Pool ι} {i : ι} {job : QueuedJob} {now : Time} {q : DelayQueue}
      (hfree : s.Unlocked) (hphase : (s.consumers i).phase = .handling job)
      (hok : s.queue.enqueue job now = (.ok (), q)) :
      Step s (.failed i job now)
        ({ s with queue := q }.set i { s.consumers i with phase := .ready }).signal
  -- The error of `Enqueue` is not looked at.
  | dropped {s : Pool ι} {i : ι} {job : QueuedJob} {now : Time} {err : Err} {q : DelayQueue}
      (hfree : s.Unlocked) (hphase : (s.consumers i).phase = .handling job)
      (herr : s.queue.enqueue job now = (.error err, q)) :
      Step s (.dropped i job) ({ s with queue := q }.set i { s.consumers i with phase := .ready })
  | watch {s : Pool ι} {i : ι} (hcancelled : (s.consumers i).cancelled)
      (hwatching : (s.consumers i).watching) :
      Step s (.watch i) (s.set i { s.consumers i with watching := false }).broadcast
  -- Both channels of a late watcher may be ready, and `select` takes either.
  | lateWatch {s : Pool ι} {i : ι} (hcancelled : (s.consumers i).cancelled)
      (hlate : 0 < (s.consumers i).late) :
      Step s (.lateWatch i)
        (s.set i { s.consumers i with late := (s.consumers i).late - 1 }).broadcast
  | exit {s : Pool ι} {i : ι} (hlate : 0 < (s.consumers i).late) :
      Step s (.exit i) (s.set i { s.consumers i with late := (s.consumers i).late - 1 })

/-- The steps that need nothing from outside but the return of the handlers.  A handler may
fail here only where its job is not queued again, that is after `Close`. -/
def Event.own : Event ι → Bool
  | .look _ | .enter _ | .park _ | .wake _ | .succeeded _ _ | .dropped _ _ | .watch _
  | .lateWatch _ | .exit _ => true
  | .enqueue _ _ | .enqueueDelay _ _ _ | .tick _ | .close | .cancel _ | .failed _ _ _ => false

def Turn (s s' : Pool ι) : Prop := ∃ event, event.own = true ∧ Step s event s'

section Updates

@[simp] theorem set_queue (s : Pool ι) (i : ι) (c : Consumer) : (s.set i c).queue = s.queue := rfl

@[simp] theorem set_waiters (s : Pool ι) (i : ι) (c : Consumer) :
    (s.set i c).waiters = s.waiters := rfl

@[simp] theorem set_called (s : Pool ι) (i : ι) (c : Consumer) :
    (s.set i c).called = s.called := rfl

@[simp] theorem set_self (s : Pool ι) (i : ι) (c : Consumer) : (s.set i c).consumers i = c :=
  Function.update_self ..

theorem set_of_ne (s : Pool ι) {i j : ι} (c : Consumer) (h : j ≠ i) :
    (s.set i c).consumers j = s.consumers j := Function.update_of_ne h ..

@[simp] theorem set_set (s : Pool ι) (i : ι) (c c' : Consumer) :
    (s.set i c).set i c' = s.set i c' := by
  simp [Pool.set]

@[simp] theorem signal_queue (s : Pool ι) : s.signal.queue = s.queue := by
  unfold Pool.signal
  split <;> rfl

@[simp] theorem broadcast_queue (s : Pool ι) : s.broadcast.queue = s.queue := rfl

@[simp] theorem broadcast_called (s : Pool ι) : s.broadcast.called = s.called := rfl

theorem enqueue_error {q q' : DelayQueue} {job : QueuedJob} {now : Time} {err : Err}
    (h : q.enqueue job now = (.error err, q')) : q.closed = true ∧ q' = q := by
  cases hclosed : q.closed with
  | false => simp [QueueDelivery.enqueue_open hclosed] at h
  | true =>
      simp only [DelayQueue.enqueue, Queue.enqueue, hclosed, if_true, Prod.mk.injEq] at h
      exact ⟨rfl, h.2.symm⟩

theorem enqueue_ok {q q' : DelayQueue} {job : QueuedJob} {now : Time}
    (h : q.enqueue job now = (.ok (), q')) : q.closed = false ∧
      q' = { q with items := insertLocked (QueueDelivery.stamp job now) q.items } := by
  have hclosed : q.closed = false := by
    by_contra hclosed
    rw [Bool.not_eq_false] at hclosed
    simp [DelayQueue.enqueue, Queue.enqueue, hclosed] at h
  rw [QueueDelivery.enqueue_open hclosed, Prod.mk.injEq] at h
  exact ⟨hclosed, h.2.symm⟩

theorem enqueueDelay_ok {q q' : DelayQueue} {job : QueuedJob} {delay : Duration} {now : Time}
    (h : q.enqueueDelay job delay now = (.ok (), q')) : q'.closed = q.closed ∧
      q'.items = (if delay ≤ 0 then insertLocked job q.items else q.items) ∧
      q'.delayed = if delay ≤ 0 then q.delayed else q.delayed ++ [⟨job, now + delay⟩] := by
  have hclosed : q.closed = false := by
    by_contra hclosed
    rw [Bool.not_eq_false] at hclosed
    simp [DelayQueue.enqueueDelay, hclosed] at h
  rw [QueueDelivery.enqueueDelay_open hclosed] at h
  split at h <;> (rw [Prod.mk.injEq] at h; obtain ⟨-, rfl⟩ := h; simp [*])

theorem length_insertAll (jobs items : List QueuedJob) :
    (QueueDelivery.insertAll jobs items).length = items.length + jobs.length := by
  induction jobs generalizing items with
  | nil => rfl
  | cons job jobs ih =>
      refine (ih _).trans ?_
      rw [length_insertLocked, List.length_cons]
      omega

theorem length_release {q : DelayQueue} (hopen : q.closed = false) (now : Time) :
    (q.release now).items.length = q.items.length + (released now q.delayed).length := by
  rw [QueueDelivery.release_open hopen]
  exact length_insertAll _ _

/-- What a consumer does with the lock in its hands. -/
theorem proceed_cases (s : Pool ι) (i : ι) :
    (s.queue.closed = true ∧
      s.proceed i = s.set i { s.consumers i with phase := .returned none }) ∨
    (s.queue.closed = false ∧ ∃ job rest, s.queue.items = job :: rest ∧
      s.proceed i = { s with
          queue := { s.queue with items := rest }, called := s.called ++ [job] }.set i
        { s.consumers i with phase := .handling job }) ∨
    (s.queue.closed = false ∧ s.queue.items = [] ∧
      s.proceed i = s.set i { s.consumers i with phase := .parking, watching := true }) := by
  unfold Pool.proceed
  cases hclosed : s.queue.closed with
  | true => exact Or.inl ⟨rfl, by simp⟩
  | false =>
      right
      cases hitems : s.queue.items with
      | nil => exact Or.inr ⟨rfl, rfl, by simp [DelayQueue.take, Queue.take, hitems]⟩
      | cons job rest =>
          refine Or.inl ⟨rfl, job, rest, rfl, ?_⟩
          simp [DelayQueue.take, Queue.take, hitems, hclosed]

end Updates

section Tally

variable [Fintype ι] {M : Type} [AddCommMonoid M]

def Pool.tally (s : Pool ι) (f : Consumer → M) : M := ∑ i, f (s.consumers i)

theorem tally_set (s : Pool ι) (f : Consumer → M) (i : ι) (c : Consumer) :
    (s.set i c).tally f + f (s.consumers i) = s.tally f + f c := by
  have hothers : ∑ j ∈ Finset.univ.erase i, f ((s.set i c).consumers j) =
      ∑ j ∈ Finset.univ.erase i, f (s.consumers j) := by
    refine Finset.sum_congr rfl fun j hj => ?_
    rw [set_of_ne s c (Finset.ne_of_mem_erase hj)]
  rw [Pool.tally, Pool.tally, ← Finset.add_sum_erase _ _ (Finset.mem_univ i),
    ← Finset.add_sum_erase _ (fun j => f (s.consumers j)) (Finset.mem_univ i), hothers, set_self]
  ac_rfl

end Tally

end Chronos.QueueConsumers
