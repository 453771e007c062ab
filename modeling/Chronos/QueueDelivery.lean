import Chronos.Library.Histories
import Chronos.Library.StableSort
import Chronos.MemoryQueue
import Mathlib.Data.Multiset.AddSub

namespace Chronos.QueueDelivery

open Chronos.Domain
open Chronos.Library.Histories
open Chronos.Library.StableSort
open Chronos.MemoryQueue

structure DelayedItem where
  job : QueuedJob
  available : Time
  deriving DecidableEq, Repr

/-- The memory queue with the jobs that it holds back. -/
structure DelayQueue extends Queue where
  delayed : List DelayedItem := []
  deriving DecidableEq, Repr

def DelayQueue.enqueue (q : DelayQueue) (job : QueuedJob) (now : Time) :
    Except Err Unit × DelayQueue :=
  let r := q.toQueue.enqueue job now
  (r.1, { q with toQueue := r.2 })

/-- A job without a delay is inserted with the stamp that it has. -/
def DelayQueue.enqueueDelay (q : DelayQueue) (job : QueuedJob) (delay : Duration)
    (now : Time) : Except Err Unit × DelayQueue :=
  if q.closed then (.error .canceled, q)
  else if delay ≤ 0 then (.ok (), { q with items := insertLocked job q.items })
  else (.ok (), { q with delayed := q.delayed ++ [⟨job, now + delay⟩] })

def DelayQueue.take (q : DelayQueue) : Option QueuedJob × DelayQueue :=
  let r := q.toQueue.take
  (r.1, { q with toQueue := r.2 })

/-- The loop of `releaseDelayed` over the storage of the delayed slice, with `left` elements
still to read from index `i` on.  What remains is written to the front of the same storage,
behind the `kept` elements written before. -/
def releaseLoop (now : Time) :
    Nat → Nat → Nat → List DelayedItem → List QueuedJob → List QueuedJob × List DelayedItem
  | 0, _, kept, storage, items => (items, storage.take kept)
  | left + 1, i, kept, storage, items =>
      match storage[i]? with
      | none => (items, storage.take kept)
      | some d =>
          if d.available ≤ now then
            releaseLoop now left (i + 1) kept storage (insertLocked d.job items)
          else releaseLoop now left (i + 1) (kept + 1) (storage.set kept d) items

/-- One tick of `releaseDelayed`. -/
def DelayQueue.release (q : DelayQueue) (now : Time) : DelayQueue :=
  if q.closed then q
  else
    let r := releaseLoop now q.delayed.length 0 0 q.delayed q.items
    { q with items := r.1, delayed := r.2 }

def due (now : Time) (d : DelayedItem) : Bool := decide (d.available ≤ now)

def released (now : Time) (delayed : List DelayedItem) : List QueuedJob :=
  (delayed.filter (due now)).map DelayedItem.job

def remaining (now : Time) (delayed : List DelayedItem) : List DelayedItem :=
  delayed.filter fun d => !due now d

def insertAll (jobs items : List QueuedJob) : List QueuedJob :=
  jobs.foldl (fun items job => insertLocked job items) items

/-- The storage is overwritten only below the index that is read next. -/
theorem releaseLoop_eq (now : Time) (rest kept storage : List DelayedItem) (i : Nat)
    (items : List QueuedJob) (hi : kept.length ≤ i)
    (hkept : storage.take kept.length = kept) (hrest : storage.drop i = rest) :
    releaseLoop now rest.length i kept.length storage items =
      (insertAll (released now rest) items, kept ++ remaining now rest) := by
  induction rest generalizing kept storage i items with
  | nil => simp [releaseLoop, hkept, insertAll, released, remaining]
  | cons d rest ih =>
      have hd : storage[i]? = some d := by
        rw [← List.head?_drop, hrest, List.head?_cons]
      have hnext : storage.drop (i + 1) = rest := by
        rw [← List.drop_drop, hrest, List.drop_one, List.tail_cons]
      simp only [List.length_cons, releaseLoop, hd]
      by_cases hdue : d.available ≤ now
      · rw [if_pos hdue, ih kept storage (i + 1) _ (by omega) hkept hnext]
        simp [insertAll, released, remaining, due, hdue]
      · have hstored : kept.length < storage.length :=
          lt_of_le_of_lt hi (List.getElem?_eq_some_iff.mp hd).1
        have hkept' : (storage.set kept.length d).take (kept ++ [d]).length = kept ++ [d] := by
          rw [List.length_append, List.length_singleton, List.take_add_one,
            List.take_set_of_le le_rfl, hkept, List.getElem?_set_self hstored, Option.toList_some]
        have hrest' : (storage.set kept.length d).drop (i + 1) = rest := by
          rw [List.drop_set_of_lt (by omega), hnext]
        have hlater := ih (kept ++ [d]) _ (i + 1) items (by simpa using hi) hkept' hrest'
        rw [List.length_append, List.length_singleton] at hlater
        rw [if_neg hdue, hlater]
        simp [released, remaining, due, hdue]

theorem release_open {q : DelayQueue} (hopen : q.closed = false) (now : Time) :
    q.release now = { q with items := insertAll (released now q.delayed) q.items,
                             delayed := remaining now q.delayed } := by
  have hloop := releaseLoop_eq now q.delayed [] q.delayed 0 q.items le_rfl rfl rfl
  rw [List.length_nil, List.nil_append] at hloop
  simp only [DelayQueue.release, hopen, Bool.false_eq_true, if_false, hloop]

/-- The stamp that `Enqueue` gives a job without one. -/
def stamp (job : QueuedJob) (now : Time) : QueuedJob :=
  if job.enqueuedAt = zeroTime then { job with enqueuedAt := now } else job

theorem enqueue_of_open {q : Queue} (hopen : q.closed = false) (job : QueuedJob) (now : Time) :
    q.enqueue job now = (.ok (), { q with items := insertLocked (stamp job now) q.items }) := by
  simp [Queue.enqueue, hopen, stamp]

theorem enqueue_open {q : DelayQueue} (hopen : q.closed = false) (job : QueuedJob)
    (now : Time) :
    q.enqueue job now = (.ok (), { q with items := insertLocked (stamp job now) q.items }) := by
  rw [DelayQueue.enqueue, enqueue_of_open hopen]

theorem enqueueDelay_open {q : DelayQueue} (hopen : q.closed = false) (job : QueuedJob)
    (delay : Duration) (now : Time) :
    q.enqueueDelay job delay now =
      if delay ≤ 0 then (.ok (), { q with items := insertLocked job q.items })
      else (.ok (), { q with delayed := q.delayed ++ [⟨job, now + delay⟩] }) := by
  simp [DelayQueue.enqueueDelay, hopen]

theorem items_of_take_some {q q' : DelayQueue} {job : QueuedJob}
    (htake : q.take = (some job, q')) :
    ∃ rest, q.items = job :: rest ∧ q' = { q with items := rest } := by
  have hfirst : q.toQueue.take.1 = some job := congrArg Prod.fst htake
  have hqueue : { q with toQueue := q.toQueue.take.2 } = q' := congrArg Prod.snd htake
  obtain ⟨hitems, hclosed⟩ := items_of_take hfirst
  refine ⟨q.toQueue.take.2.items, hitems, ?_⟩
  rw [← hqueue, ← hclosed]

/-- The queue with the consumer and the job in its hands. -/
structure Broker where
  queue : DelayQueue := {}
  hand : Option QueuedJob := none
  deriving DecidableEq, Repr

inductive Event
  | enqueue (job : QueuedJob) (now : Time)
  | enqueueDelay (job : QueuedJob) (delay : Duration) (now : Time)
  | tick (now : Time)
  | take (job : QueuedJob)
  | succeeded (job : QueuedJob)
  | failed (job : QueuedJob) (now : Time)
  deriving DecidableEq, Repr

/-- A step before `Close`.  The consumer takes the next job once the handler has returned for
the last one, and requeues the job of a handler that failed. -/
inductive Step : Broker → Event → Broker → Prop
  | enqueue {b : Broker} {job : QueuedJob} {now : Time} {q : DelayQueue}
      (hok : b.queue.enqueue job now = (.ok (), q)) :
      Step b (.enqueue job now) { b with queue := q }
  | enqueueDelay {b : Broker} {job : QueuedJob} {delay : Duration} {now : Time}
      {q : DelayQueue} (hok : b.queue.enqueueDelay job delay now = (.ok (), q)) :
      Step b (.enqueueDelay job delay now) { b with queue := q }
  | tick {b : Broker} (now : Time) :
      Step b (.tick now) { b with queue := b.queue.release now }
  | take {b : Broker} {job : QueuedJob} {q : DelayQueue} (hidle : b.hand = none)
      (htake : b.queue.take = (some job, q)) : Step b (.take job) ⟨q, some job⟩
  | succeeded {b : Broker} {job : QueuedJob} (hhand : b.hand = some job) :
      Step b (.succeeded job) { b with hand := none }
  | failed {b : Broker} {job : QueuedJob} (hhand : b.hand = some job) (now : Time) :
      Step b (.failed job now) ⟨(b.queue.enqueue job now).2, none⟩

/-- The jobs that are held back after the events, the last event first. -/
def waiting : List Event → List DelayedItem
  | [] => []
  | .enqueueDelay job delay now :: past =>
      if delay ≤ 0 then waiting past else waiting past ++ [⟨job, now + delay⟩]
  | .tick now :: past => remaining now (waiting past)
  | .enqueue _ _ :: past | .take _ :: past | .succeeded _ :: past | .failed _ _ :: past =>
      waiting past

/-- The jobs that wait for the consumer, in the order of their insertion. -/
def outstanding : List Event → List QueuedJob
  | [] => []
  | .enqueue job now :: past | .failed job now :: past => outstanding past ++ [stamp job now]
  | .enqueueDelay job delay _ :: past =>
      if delay ≤ 0 then outstanding past ++ [job] else outstanding past
  | .tick now :: past => outstanding past ++ released now (waiting past)
  | .take job :: past => (outstanding past).erase job
  | .succeeded _ :: past => outstanding past

/-- Priority descending, then the stamp ascending. -/
def inOrder (a b : QueuedJob) : Bool :=
  decide (b.priority < a.priority ∨ (a.priority = b.priority ∧ a.enqueuedAt ≤ b.enqueuedAt))

theorem preorders_inOrder : Preorders inOrder where
  trans a b c hab hbc := by
    simp only [inOrder, decide_eq_true_eq] at hab hbc ⊢
    rcases hab with hab | ⟨hab, hstamp⟩ <;> rcases hbc with hbc | ⟨hbc, hstamp'⟩
    · exact Or.inl (hbc.trans hab)
    · exact Or.inl (hbc ▸ hab)
    · exact Or.inl (hab ▸ hbc)
    · exact Or.inr ⟨hab.trans hbc, hstamp.trans hstamp'⟩
  total a b := by
    simp only [inOrder, Bool.or_eq_true, decide_eq_true_eq]
    rcases lt_trichotomy a.priority b.priority with h | h | h
    · exact Or.inr (Or.inl h)
    · rcases le_total a.enqueuedAt b.enqueuedAt with hstamp | hstamp
      · exact Or.inl (Or.inr ⟨h, hstamp⟩)
      · exact Or.inr (Or.inr ⟨h.symm, hstamp⟩)
    · exact Or.inl (Or.inl h)

theorem not_inOrder {a b : QueuedJob} :
    ¬ inOrder a b ↔ a.priority < b.priority ∨
      (b.priority = a.priority ∧ b.enqueuedAt < a.enqueuedAt) := by
  simp only [inOrder, decide_eq_true_eq, not_or, not_and, not_lt, not_le]
  constructor
  · rintro ⟨hle, hstamp⟩
    rcases hle.lt_or_eq with hlt | heq
    · exact Or.inl hlt
    · exact Or.inr ⟨heq.symm, hstamp heq⟩
  · rintro (hlt | ⟨heq, hstamp⟩)
    · exact ⟨hlt.le, fun heq => absurd heq hlt.ne⟩
    · exact ⟨heq.ge, fun _ => hstamp⟩

/-- The scan stops at the first item that does not come before the job. -/
theorem insertLocked_eq (job : QueuedJob) (items : List QueuedJob) :
    insertLocked job items = items.takeWhile (fun item => inOrder item job) ++
      job :: items.dropWhile (fun item => inOrder item job) := by
  induction items with
  | nil => rfl
  | cons item rest ih =>
      rw [List.takeWhile_cons, List.dropWhile_cons, insertLocked]
      by_cases horder : inOrder item job
      · have hscan := mt not_inOrder.mpr (not_not.mpr horder)
        rw [not_or] at hscan
        rw [if_neg hscan.1, if_neg hscan.2, if_pos horder, if_pos horder, ih, List.cons_append]
      · rw [if_neg horder, if_neg horder, List.nil_append]
        rcases not_inOrder.mp horder with hpriority | hstamp
        · rw [if_pos hpriority]
        · rw [if_neg (by rw [hstamp.1]; exact lt_irrefl _), if_pos hstamp]

theorem insertLocked_mergeSort (job : QueuedJob) (jobs : List QueuedJob) :
    insertLocked job (jobs.mergeSort inOrder) = (jobs ++ [job]).mergeSort inOrder := by
  rw [insertLocked_eq, mergeSort_concat preorders_inOrder]

theorem insertAll_mergeSort (new jobs : List QueuedJob) :
    insertAll new (jobs.mergeSort inOrder) = (jobs ++ new).mergeSort inOrder := by
  induction new generalizing jobs with
  | nil => simp [insertAll]
  | cons job new ih =>
      have hlater := ih (jobs ++ [job])
      rw [← insertLocked_mergeSort, List.append_assoc, List.singleton_append] at hlater
      exact hlater

/-- The queue holds what the events leave outstanding, sorted, and what they leave waiting. -/
structure Refines (events : List Event) (b : Broker) : Prop where
  opened : b.queue.closed = false
  items : b.queue.items = (outstanding events).mergeSort inOrder
  delayed : b.queue.delayed = waiting events

theorem refines_start : Refines [] {} := ⟨rfl, by simp [outstanding], rfl⟩

/-- The head of the queue is the first of its ties among the outstanding jobs. -/
theorem Refines.head {events : List Event} {b : Broker} (h : Refines events b)
    {job : QueuedJob} {rest : List QueuedJob} (hitems : b.queue.items = job :: rest) :
    ∃ before after, outstanding events = before ++ job :: after ∧
      (∀ item ∈ before, ¬ inOrder item job) ∧ (∀ item ∈ after, inOrder job item) ∧
      rest = ((outstanding events).erase job).mergeSort inOrder := by
  obtain ⟨before, after, hout, hbefore, hafter, hrest⟩ :=
    mergeSort_head preorders_inOrder (h.items.symm.trans hitems)
  refine ⟨before, after, hout, hbefore, hafter, ?_⟩
  have hnew : job ∉ before := fun hjob => hbefore job hjob (preorders_inOrder.refl job)
  rw [hout, List.erase_append_right _ hnew, List.erase_cons_head, hrest]

theorem step_refines {events : List Event} {b b' : Broker} {event : Event}
    (h : Refines events b) (hstep : Step b event b') : Refines (event :: events) b' := by
  cases hstep with
  | enqueue hok =>
      rw [enqueue_open h.opened, Prod.mk.injEq] at hok
      obtain ⟨-, rfl⟩ := hok
      exact ⟨h.opened, by simp only [h.items, insertLocked_mergeSort, outstanding], h.delayed⟩
  | @enqueueDelay _ delay _ _ hok =>
      rw [enqueueDelay_open h.opened] at hok
      by_cases hdelay : delay ≤ 0
      · rw [if_pos hdelay, Prod.mk.injEq] at hok
        obtain ⟨-, rfl⟩ := hok
        refine ⟨h.opened, ?_, ?_⟩
        · simp only [h.items, insertLocked_mergeSort, outstanding, if_pos hdelay]
        · simp only [h.delayed, waiting, if_pos hdelay]
      · rw [if_neg hdelay, Prod.mk.injEq] at hok
        obtain ⟨-, rfl⟩ := hok
        refine ⟨h.opened, ?_, ?_⟩
        · simp only [h.items, outstanding, if_neg hdelay]
        · simp only [h.delayed, waiting, if_neg hdelay]
  | tick now =>
      rw [release_open h.opened]
      refine ⟨h.opened, ?_, ?_⟩
      · simp only [h.items, h.delayed, insertAll_mergeSort, outstanding]
      · simp only [h.delayed, waiting]
  | take _ htake =>
      obtain ⟨rest, hitems, rfl⟩ := items_of_take_some htake
      obtain ⟨_, _, -, -, -, hrest⟩ := h.head hitems
      exact ⟨h.opened, hrest, h.delayed⟩
  | succeeded _ => exact ⟨h.opened, h.items, h.delayed⟩
  | failed _ now =>
      rw [enqueue_open h.opened]
      exact ⟨h.opened, by simp only [h.items, insertLocked_mergeSort, outstanding], h.delayed⟩

theorem run_refines {history : List (Entry Broker Event)} {b : Broker}
    (hrun : Run Step {} history b) : Refines (history.map Entry.label) b := by
  refine run_invariant (P := fun _ => True)
    (I := fun history b => Refines (history.map Entry.label) b) refines_start ?_ hrun
    fun _ _ => trivial
  intro _ _ _ _ h hstep _
  exact step_refines h hstep

/-- The items are the stable sort of the outstanding jobs.  A job that is taken has the highest
priority among them and the earliest stamp within it, and it was inserted before the others
that tie with it. -/
theorem delivers_in_order {history : List (Entry Broker Event)} {b : Broker}
    (hrun : Run Step {} history b) :
    b.queue.items = (outstanding (history.map Entry.label)).mergeSort inOrder ∧
      ∀ job b', Step b (.take job) b' →
        ∃ before after, outstanding (history.map Entry.label) = before ++ job :: after ∧
          (∀ item ∈ before, item.priority < job.priority ∨
            (job.priority = item.priority ∧ job.enqueuedAt < item.enqueuedAt)) ∧
          ∀ item ∈ after, item.priority < job.priority ∨
            (job.priority = item.priority ∧ job.enqueuedAt ≤ item.enqueuedAt) := by
  have h := run_refines hrun
  refine ⟨h.items, fun job b' hstep => ?_⟩
  cases hstep with
  | take _ htake =>
      obtain ⟨rest, hitems, -⟩ := items_of_take_some htake
      obtain ⟨before, after, hout, hbefore, hafter, -⟩ := h.head hitems
      refine ⟨before, after, hout, fun item hitem => not_inOrder.mp (hbefore item hitem), ?_⟩
      intro item hitem
      simpa only [inOrder, decide_eq_true_eq] using hafter item hitem

def stampedJob (id : String) (priority : Int) (stamp : Time) : QueuedJob where
  jobID := id
  name := id
  type := .builtin
  payload := none
  priority := priority
  attempt := 1
  timeout := 0
  enqueuedAt := stamp

/-- The job of the higher priority is taken first, though it was inserted last. -/
theorem higher_priority_taken_first :
    ∃ before after, outstanding
        [.enqueue (stampedJob "high" 9 2) 2, .enqueue (stampedJob "low" 1 1) 1] =
          before ++ stampedJob "high" 9 2 :: after ∧
      (∀ item ∈ before, item.priority < 9 ∨ (9 = item.priority ∧ 2 < item.enqueuedAt)) ∧
      ∀ item ∈ after, item.priority < 9 ∨ (9 = item.priority ∧ 2 ≤ item.enqueuedAt) := by
  have hlow : Step {} (.enqueue (stampedJob "low" 1 1) 1)
      ⟨⟨⟨[stampedJob "low" 1 1], false⟩, []⟩, none⟩ := .enqueue rfl
  have hhigh : Step ⟨⟨⟨[stampedJob "low" 1 1], false⟩, []⟩, none⟩
      (.enqueue (stampedJob "high" 9 2) 2)
      ⟨⟨⟨[stampedJob "high" 9 2, stampedJob "low" 1 1], false⟩, []⟩, none⟩ := .enqueue rfl
  have htake : Step ⟨⟨⟨[stampedJob "high" 9 2, stampedJob "low" 1 1], false⟩, []⟩, none⟩
      (.take (stampedJob "high" 9 2))
      ⟨⟨⟨[stampedJob "low" 1 1], false⟩, []⟩, some (stampedJob "high" 9 2)⟩ := .take rfl rfl
  exact (delivers_in_order ((Run.start.next hlow).next hhigh)).2 _ _ htake

/-- What is asked for in a job.  A job requeued without a stamp is given one, so that it is
compared without it. -/
def content (job : QueuedJob) : QueuedJob := { job with enqueuedAt := zeroTime }

def contents (jobs : List QueuedJob) : Multiset QueuedJob := (jobs.map content : List QueuedJob)

def held (delayed : List DelayedItem) : Multiset QueuedJob :=
  contents (delayed.map DelayedItem.job)

def accepted : List Event → List QueuedJob
  | [] => []
  | .enqueue job _ :: past | .enqueueDelay job _ _ :: past => job :: accepted past
  | .tick _ :: past | .take _ :: past | .succeeded _ :: past | .failed _ _ :: past =>
      accepted past

/-- The jobs whose handler returned nil. -/
def handled : List Event → List QueuedJob
  | [] => []
  | .succeeded job :: past => job :: handled past
  | .enqueue _ _ :: past | .enqueueDelay _ _ _ :: past | .tick _ :: past | .take _ :: past
  | .failed _ _ :: past => handled past

theorem content_stamp (job : QueuedJob) (now : Time) : content (stamp job now) = content job := by
  unfold stamp
  split <;> rfl

@[simp] theorem contents_nil : contents [] = 0 := rfl

theorem contents_cons (job : QueuedJob) (jobs : List QueuedJob) :
    contents (job :: jobs) = {content job} + contents jobs := rfl

theorem contents_append (first second : List QueuedJob) :
    contents (first ++ second) = contents first + contents second := by
  simp [contents]

theorem contents_perm {first second : List QueuedJob} (h : first.Perm second) :
    contents first = contents second :=
  Multiset.coe_eq_coe.mpr (h.map content)

theorem contents_insertLocked (job : QueuedJob) (items : List QueuedJob) :
    contents (insertLocked job items) = {content job} + contents items :=
  contents_perm (perm_insertLocked job items)

theorem contents_insertAll (jobs items : List QueuedJob) :
    contents (insertAll jobs items) = contents jobs + contents items := by
  induction jobs generalizing items with
  | nil => simp [insertAll]
  | cons job jobs ih =>
      have hlater := ih (insertLocked job items)
      rw [contents_insertLocked] at hlater
      rw [contents_cons]
      refine hlater.trans ?_
      ac_rfl

theorem held_concat (delayed : List DelayedItem) (d : DelayedItem) :
    held (delayed ++ [d]) = held delayed + {content d.job} := by
  simp [held, contents_append, contents_cons]

/-- A tick parts the delayed jobs. -/
theorem released_add_remaining (now : Time) (delayed : List DelayedItem) :
    contents (released now delayed) + held (remaining now delayed) = held delayed := by
  rw [released, remaining, held, ← contents_append, ← List.map_append]
  exact contents_perm ((List.filter_append_perm (due now) delayed).map DelayedItem.job)

/-- Every accepted job is in exactly one place. -/
def Conserves (events : List Event) (b : Broker) : Prop :=
  contents (accepted events) = contents b.queue.items + held b.queue.delayed +
    contents b.hand.toList + contents (handled events)

theorem step_conserves {events : List Event} {b b' : Broker} {event : Event}
    (hopen : b.queue.closed = false) (h : Conserves events b) (hstep : Step b event b') :
    Conserves (event :: events) b' := by
  unfold Conserves at h ⊢
  cases hstep with
  | enqueue hok =>
      rw [enqueue_open hopen, Prod.mk.injEq] at hok
      obtain ⟨-, rfl⟩ := hok
      simp only [accepted, handled, contents_cons, contents_insertLocked, content_stamp, h]
      ac_rfl
  | @enqueueDelay _ delay _ _ hok =>
      rw [enqueueDelay_open hopen] at hok
      by_cases hdelay : delay ≤ 0
      · rw [if_pos hdelay, Prod.mk.injEq] at hok
        obtain ⟨-, rfl⟩ := hok
        simp only [accepted, handled, contents_cons, contents_insertLocked, h]
        ac_rfl
      · rw [if_neg hdelay, Prod.mk.injEq] at hok
        obtain ⟨-, rfl⟩ := hok
        simp only [accepted, handled, contents_cons, held_concat, h]
        ac_rfl
  | tick now =>
      rw [release_open hopen]
      simp only [accepted, handled, contents_insertAll, h]
      rw [← released_add_remaining now b.queue.delayed]
      ac_rfl
  | take hidle htake =>
      obtain ⟨rest, hitems, rfl⟩ := items_of_take_some htake
      rw [hitems, hidle, contents_cons] at h
      simp only [accepted, handled, h, Option.toList_some, Option.toList_none, contents_cons,
        contents_nil, add_zero]
      ac_rfl
  | succeeded hhand =>
      rw [hhand, Option.toList_some] at h
      simp only [accepted, handled, h, Option.toList_none, contents_cons, contents_nil, add_zero]
      ac_rfl
  | failed hhand now =>
      rw [hhand, Option.toList_some] at h
      rw [enqueue_open hopen]
      simp only [accepted, handled, h, Option.toList_none, contents_cons, contents_nil, add_zero,
        contents_insertLocked, content_stamp]
      ac_rfl

theorem run_conserves {history : List (Entry Broker Event)} {b : Broker}
    (hrun : Run Step {} history b) : Conserves (history.map Entry.label) b := by
  induction hrun with
  | start => rfl
  | next hrun hstep ih => exact step_conserves (run_refines hrun).opened ih hstep

/-- A delayed job waits through every tick before it is available. -/
theorem mem_waiting {job : QueuedJob} {delay : Duration} {now : Time} (hdelay : 0 < delay)
    (later earlier : List Event) (hticks : ∀ t, .tick t ∈ later → t < now + delay) :
    ⟨job, now + delay⟩ ∈ waiting (later ++ .enqueueDelay job delay now :: earlier) := by
  induction later with
  | nil => simp [waiting, not_le.mpr hdelay]
  | cons event later ih =>
      have hwait := ih fun t ht => hticks t (List.mem_cons_of_mem _ ht)
      cases event with
      | enqueueDelay other delay' now' =>
          rw [List.cons_append, waiting]
          split
          · exact hwait
          · exact List.mem_append_left _ hwait
      | tick t =>
          have hearly : t < now + delay := hticks t List.mem_cons_self
          refine List.mem_filter.mpr ⟨hwait, ?_⟩
          simpa [due] using hearly
      | enqueue | take | succeeded | failed => exact hwait

theorem accepted_append (later earlier : List Event) :
    accepted (later ++ earlier) = accepted later ++ accepted earlier := by
  induction later with
  | nil => rfl
  | cons event later ih =>
      cases event with
      | enqueue | enqueueDelay => exact congrArg (_ :: ·) ih
      | tick | take | succeeded | failed => exact ih

theorem held_erase {d : DelayedItem} {delayed : List DelayedItem} (hd : d ∈ delayed) :
    held delayed = {content d.job} + held (delayed.erase d) :=
  contents_perm ((List.perm_cons_erase hd).map DelayedItem.job)

/-- No job is lost or duplicated.  Before the clock of a tick has reached its availability, a
job accepted with a delay is held back, and the other places account for the other jobs. -/
theorem conserves_and_delays {history : List (Entry Broker Event)} {b : Broker}
    (hrun : Run Step {} history b) :
    contents (accepted (history.map Entry.label)) = contents b.queue.items +
        held b.queue.delayed + contents b.hand.toList +
        contents (handled (history.map Entry.label)) ∧
      ∀ later job delay now earlier,
        history.map Entry.label = later ++ .enqueueDelay job delay now :: earlier →
        0 < delay → (∀ t, .tick t ∈ later → t < now + delay) →
        ⟨job, now + delay⟩ ∈ b.queue.delayed ∧
          contents (accepted (later ++ earlier)) = contents b.queue.items +
            held (b.queue.delayed.erase ⟨job, now + delay⟩) + contents b.hand.toList +
            contents (handled (history.map Entry.label)) := by
  have hall := run_conserves hrun
  refine ⟨hall, fun later job delay now earlier hevents hdelay hticks => ?_⟩
  have hwait : ⟨job, now + delay⟩ ∈ b.queue.delayed := by
    rw [(run_refines hrun).delayed, hevents]
    exact mem_waiting hdelay later earlier hticks
  refine ⟨hwait, ?_⟩
  have hothers : contents (accepted (history.map Entry.label)) =
      {content job} + contents (accepted (later ++ earlier)) := by
    rw [hevents, accepted_append, accepted_append, accepted, contents_append, contents_cons,
      contents_append]
    ac_rfl
  rw [Conserves, hothers, held_erase hwait] at hall
  refine add_left_cancel (hall.trans ?_)
  ac_rfl

/-- A job delayed by ten is held back at a tick that comes after five. -/
theorem delayed_job_held_back :
    ⟨stampedJob "late" 1 0, 10⟩ ∈
      ((({} : DelayQueue).enqueueDelay (stampedJob "late" 1 0) 10 0).2.release 5).delayed := by
  have hdelay : Step {} (.enqueueDelay (stampedJob "late" 1 0) 10 0)
      ⟨⟨{}, [⟨stampedJob "late" 1 0, 10⟩]⟩, none⟩ := .enqueueDelay rfl
  have hrun := (Run.start.next hdelay).next (.tick 5)
  have hheld := (conserves_and_delays hrun).2 [.tick 5] (stampedJob "late" 1 0) 10 0 [] rfl
    (by decide) (by simp)
  exact hheld.1

end Chronos.QueueDelivery
