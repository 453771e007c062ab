import Chronos.Domain

namespace Chronos.MemoryQueue

open Chronos.Domain

structure Queue where
  items : List QueuedJob := []
  closed : Bool := false
  deriving DecidableEq, Repr

/-- Higher priority first, then the earlier stamp, then the earlier insertion. -/
def insertLocked (job : QueuedJob) : List QueuedJob → List QueuedJob
  | [] => [job]
  | item :: rest =>
      if job.priority > item.priority then job :: item :: rest
      else if job.priority = item.priority ∧ job.enqueuedAt < item.enqueuedAt then
        job :: item :: rest
      else item :: insertLocked job rest

def Queue.enqueue (q : Queue) (job : QueuedJob) (now : Time) : Except Err Unit × Queue :=
  if q.closed then (.error .canceled, q)
  else
    let job := if job.enqueuedAt = zeroTime then { job with enqueuedAt := now } else job
    (.ok (), { q with items := insertLocked job q.items })

/-- The removal of the head item in the consumer loop. -/
def Queue.take (q : Queue) : Option QueuedJob × Queue :=
  match q.items with
  | [] => (none, q)
  | job :: rest => if q.closed then (none, q) else (some job, { q with items := rest })

theorem perm_insertLocked (job : QueuedJob) (items : List QueuedJob) :
    (insertLocked job items).Perm (job :: items) := by
  induction items with
  | nil => exact .refl _
  | cons head rest ih =>
      rw [insertLocked]
      split
      · exact .refl _
      · split
        · exact .refl _
        · exact (ih.cons head).trans (.swap job head rest)

theorem mem_insertLocked {job item : QueuedJob} {items : List QueuedJob} :
    item ∈ insertLocked job items ↔ item = job ∨ item ∈ items := by
  rw [(perm_insertLocked job items).mem_iff, List.mem_cons]

theorem length_insertLocked (job : QueuedJob) (items : List QueuedJob) :
    (insertLocked job items).length = items.length + 1 := by
  rw [(perm_insertLocked job items).length_eq, List.length_cons]

theorem sublist_insertLocked (job : QueuedJob) (items : List QueuedJob) :
    items.Sublist (insertLocked job items) := by
  induction items with
  | nil => exact List.nil_sublist _
  | cons item rest ih =>
      rw [insertLocked]
      split
      · exact List.sublist_cons_self _ _
      · split
        · exact List.sublist_cons_self _ _
        · exact ih.cons_cons item

@[simp] theorem enqueue_closed (q : Queue) (job : QueuedJob) (now : Time) :
    (q.enqueue job now).2.closed = q.closed := by
  unfold Queue.enqueue
  split <;> rfl

theorem mem_enqueue {q : Queue} {job item : QueuedJob} {now : Time} (hitem : item ∈ q.items) :
    item ∈ (q.enqueue job now).2.items := by
  unfold Queue.enqueue
  split
  · exact hitem
  · exact mem_insertLocked.mpr (Or.inr hitem)

theorem exists_mem_enqueue {q : Queue} (hopen : q.closed = false) (job : QueuedJob)
    (now : Time) : ∃ item ∈ (q.enqueue job now).2.items, item.jobID = job.jobID := by
  simp only [Queue.enqueue, hopen, Bool.false_eq_true, if_false]
  refine ⟨_, mem_insertLocked.mpr (Or.inl rfl), ?_⟩
  split <;> rfl

theorem items_of_take {q : Queue} {job : QueuedJob} (htake : q.take.1 = some job) :
    q.items = job :: q.take.2.items ∧ q.take.2.closed = q.closed := by
  unfold Queue.take at htake ⊢
  split at htake
  · simp at htake
  · split at htake
    · simp at htake
    · simp_all

end Chronos.MemoryQueue
