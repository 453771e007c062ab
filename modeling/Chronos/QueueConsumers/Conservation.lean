import Chronos.QueueConsumers.Wakeups

namespace Chronos.QueueConsumers

open Chronos.Domain
open Chronos.Library.Histories
open Chronos.QueueDelivery (DelayQueue released contents held content)

variable {ι : Type} [DecidableEq ι]

section Conservation

variable [Fintype ι] {s s' : Pool ι} {i : ι} {c : Consumer} {owed : Nat}

def Event.accepted : Event ι → List QueuedJob
  | .enqueue job _ | .enqueueDelay job _ _ => [job]
  | _ => []

/-- The job whose handler returned nil. -/
def Event.handled : Event ι → List QueuedJob
  | .succeeded _ job => [job]
  | _ => []

/-- The job whose handler failed and that the queue did not take back. -/
def Event.discarded : Event ι → List QueuedJob
  | .dropped _ job => [job]
  | _ => []

def Consumer.hand (c : Consumer) : Multiset QueuedJob :=
  match c.phase with
  | .handling job => {content job}
  | .ready | .entering | .parking | .asleep | .woken | .returned _ => 0

/-- The jobs in the queue and in the hands of the consumers. -/
def Pool.stock (s : Pool ι) : Multiset QueuedJob :=
  contents s.queue.items + held s.queue.delayed + s.tally Consumer.hand

/-- Those that wait have no job, so that it does not matter who of them is woken. -/
def Pool.Idle (s : Pool ι) : Prop := ∀ i ∈ s.waiters, (s.consumers i).hand = 0

omit [DecidableEq ι] in
theorem Sound.idle (h : Sound owed s) : s.Idle := by
  intro i hi
  rw [Consumer.hand, (h.mem_waiters i).mp hi]

theorem stock_set (hsame : c.hand = (s.consumers i).hand) : (s.set i c).stock = s.stock := by
  have htally := tally_set s Consumer.hand i c
  rw [hsame] at htally
  rw [Pool.stock, Pool.stock, add_right_cancel htally, set_queue]

theorem stock_signal (h : s.Idle) : s.signal.stock = s.stock := by
  unfold Pool.signal
  split
  · rfl
  · rename_i j rest hwaiters
    have hj : (s.consumers j).hand = 0 := h j (hwaiters ▸ List.mem_cons_self)
    exact stock_set (c := { s.consumers j with phase := .woken }) hj.symm

omit [Fintype ι] in
theorem idle_signal (h : s.Idle) : s.signal.Idle := by
  unfold Pool.signal
  split
  · exact h
  · rename_i j rest hwaiters
    intro k hk
    by_cases hkj : k = j
    · subst hkj
      rw [set_self]
      rfl
    · rw [set_of_ne _ _ hkj]
      exact h k (hwaiters ▸ List.mem_cons_of_mem _ hk)

theorem stock_signals (n : Nat) (h : s.Idle) : (s.signals n).stock = s.stock := by
  induction n generalizing s with
  | zero => rfl
  | succ n ih => exact (ih (idle_signal h)).trans (stock_signal h)

theorem stock_broadcast (h : s.Idle) : s.broadcast.stock = s.stock := by
  have hhands : s.broadcast.tally Consumer.hand = s.tally Consumer.hand := by
    refine Finset.sum_congr rfl fun j _ => ?_
    simp only [Pool.broadcast]
    split
    · rename_i hj
      exact (h j hj).symm
    · rfl
  rw [Pool.stock, Pool.stock, hhands, broadcast_queue]

theorem stock_proceed (hhand : (s.consumers i).hand = 0) : (s.proceed i).stock = s.stock := by
  rcases proceed_cases s i with
    ⟨-, heq⟩ | ⟨-, job, rest, hitems, heq⟩ | ⟨-, -, heq⟩
  · rw [heq]
    exact stock_set hhand.symm
  · rw [heq]
    have htally := tally_set s Consumer.hand i { s.consumers i with phase := .handling job }
    have hnew : ({ s.consumers i with phase := .handling job } : Consumer).hand =
      {content job} := rfl
    rw [hhand, hnew, add_zero] at htally
    have hjob := QueueDelivery.contents_cons job rest
    rw [← hitems] at hjob
    change contents rest + held s.queue.delayed + (s.set i _).tally Consumer.hand = s.stock
    rw [htally, Pool.stock, hjob]
    ac_rfl
  · rw [heq]
    exact stock_set hhand.symm

theorem stock_resume (hphase : (s.consumers i).phase = .woken) :
    (s.resume i).stock = s.stock := by
  have hdone : (s.set i (s.consumers i).closeDone).stock = s.stock := stock_set rfl
  have hhand : ((s.set i (s.consumers i).closeDone).consumers i).hand = 0 := by
    simp [Consumer.hand, Consumer.closeDone, hphase]
  rw [Pool.resume]
  split
  · refine Eq.trans (stock_set ?_) hdone
    exact hhand.symm
  · exact (stock_proceed hhand).trans hdone

/-- The handler returns, and the job is no more in the hands of the consumer. -/
theorem stock_ready {job : QueuedJob} (hphase : (s.consumers i).phase = .handling job) :
    (s.set i { s.consumers i with phase := .ready }).stock + {content job} = s.stock := by
  have htally := tally_set s Consumer.hand i { s.consumers i with phase := .ready }
  have hold : (s.consumers i).hand = {content job} := by simp [Consumer.hand, hphase]
  have hnew : ({ s.consumers i with phase := .ready } : Consumer).hand = 0 := rfl
  rw [hold, hnew, add_zero] at htally
  rw [Pool.stock, Pool.stock, ← htally, set_queue, add_assoc]

omit [DecidableEq ι] in
/-- What the queue takes in, over both of its lists, comes to the stock. -/
theorem stock_queue {q : DelayQueue} {jobs : Multiset QueuedJob}
    (hjobs : contents q.items + held q.delayed =
      jobs + (contents s.queue.items + held s.queue.delayed)) :
    ({ s with queue := q } : Pool ι).stock = jobs + s.stock := by
  rw [Pool.stock, Pool.stock, hjobs, add_assoc]
  rfl

theorem stock_enqueue {q : DelayQueue} {job : QueuedJob} {now : Time} (h : s.Idle)
    (hok : s.queue.enqueue job now = (.ok (), q)) :
    { s with queue := q }.signal.stock = {content job} + s.stock := by
  have hidle : ({ s with queue := q } : Pool ι).Idle := h
  rw [stock_signal hidle]
  obtain ⟨-, rfl⟩ := enqueue_ok hok
  refine stock_queue ?_
  simp only [QueueDelivery.contents_insertLocked, QueueDelivery.content_stamp, add_assoc]

theorem stock_enqueueDelay {q : DelayQueue} {job : QueuedJob} {delay : Duration} {now : Time}
    (h : s.Idle) (hok : s.queue.enqueueDelay job delay now = (.ok (), q)) :
    (if delay ≤ 0 then { s with queue := q }.signal else { s with queue := q }).stock =
      {content job} + s.stock := by
  have hidle : ({ s with queue := q } : Pool ι).Idle := h
  obtain ⟨-, hitems, hdelayed⟩ := enqueueDelay_ok hok
  split
  · rename_i hdelay
    rw [if_pos hdelay] at hitems hdelayed
    rw [stock_signal hidle]
    refine stock_queue ?_
    rw [hitems, hdelayed, QueueDelivery.contents_insertLocked, add_assoc]
  · rename_i hdelay
    rw [if_neg hdelay] at hitems hdelayed
    refine stock_queue ?_
    rw [hitems, hdelayed, QueueDelivery.held_concat]
    ac_rfl

theorem stock_tick (h : s.Idle) (hopen : s.queue.closed = false) (now : Time) :
    ({ s with queue := s.queue.release now }.signals
      (released now s.queue.delayed).length).stock = s.stock := by
  have hjobs : contents (s.queue.release now).items + held (s.queue.release now).delayed =
      0 + (contents s.queue.items + held s.queue.delayed) := by
    rw [QueueDelivery.release_open hopen, QueueDelivery.contents_insertAll,
      ← QueueDelivery.released_add_remaining now s.queue.delayed]
    ac_rfl
  have hidle : ({ s with queue := s.queue.release now } : Pool ι).Idle := h
  rw [stock_signals _ hidle, stock_queue hjobs, zero_add]

omit [DecidableEq ι] in
theorem balanced_of_eq (h : s'.stock = s.stock) :
    contents [] + s.stock = s'.stock + contents [] + contents [] := by
  simp [h]

theorem step_stock {event : Event ι} (h : Sound 0 s) (hstep : Step s event s') :
    contents event.accepted + s.stock =
      s'.stock + contents event.handled + contents event.discarded := by
  cases hstep with
  | @enqueue job now q hfree hok =>
      rw [stock_enqueue h.idle hok]
      simp [Event.accepted, Event.handled, Event.discarded, contents]
  | @enqueueDelay job delay now q hfree hok =>
      rw [stock_enqueueDelay h.idle hok]
      simp [Event.accepted, Event.handled, Event.discarded, contents]
  | tick _ hopen now => exact balanced_of_eq (stock_tick h.idle hopen now)
  | close =>
      refine balanced_of_eq (Eq.trans (stock_broadcast ?_) ?_)
      · exact h.idle
      · rfl
  | cancel i => exact balanced_of_eq (stock_set rfl)
  | @look i hphase =>
      refine balanced_of_eq (stock_set ?_)
      cases (s.consumers i).cancelled <;> simp [Consumer.hand, hphase]
  | enter _ hphase => exact balanced_of_eq (stock_proceed (by simp [Consumer.hand, hphase]))
  | @park i hphase =>
      have hset := stock_set (s := s) (i := i) (c := { s.consumers i with phase := .asleep })
        (by simp [Consumer.hand, hphase])
      exact balanced_of_eq hset
  | wake _ hphase => exact balanced_of_eq (stock_resume hphase)
  | succeeded hphase =>
      have hjob := stock_ready hphase
      simp only [Event.accepted, Event.handled, Event.discarded, ← hjob]
      simp [contents]
  | failed _ hphase hok =>
      have hjob := stock_ready hphase
      have hback := stock_enqueue (h.handled hphase).idle hok
      refine balanced_of_eq (hback.trans ?_)
      rw [← hjob, add_comm]
  | dropped _ hphase herr =>
      obtain ⟨-, rfl⟩ := enqueue_error herr
      have hjob := stock_ready hphase
      simp only [Event.accepted, Event.handled, Event.discarded, ← hjob]
      simp [contents]
  | watch hcancelled _ =>
      refine balanced_of_eq ((stock_broadcast (h.unwatched hcancelled).idle).trans ?_)
      exact stock_set rfl
  | lateWatch =>
      refine balanced_of_eq ((stock_broadcast h.late.idle).trans ?_)
      exact stock_set rfl
  | exit => exact balanced_of_eq (stock_set rfl)

omit [Fintype ι] in
/-- A queue is not opened again, and it takes back what fails while it is open. -/
theorem open_before {event : Event ι} (hstep : Step s event s')
    (hopen : s'.queue.closed = false) : s.queue.closed = false ∧ event.discarded = [] := by
  cases hstep with
  | enqueue _ hok => exact ⟨(enqueue_ok hok).1, rfl⟩
  | enqueueDelay _ hok =>
      obtain ⟨hclosed, -, -⟩ := enqueueDelay_ok hok
      refine ⟨hclosed.symm.trans ?_, rfl⟩
      split at hopen
      · rwa [signal_queue] at hopen
      · exact hopen
  | tick _ hbefore now => exact ⟨hbefore, rfl⟩
  | close => simp at hopen
  | failed _ _ hok => exact ⟨(enqueue_ok hok).1, rfl⟩
  | dropped _ _ herr =>
      obtain ⟨hclosed, rfl⟩ := enqueue_error herr
      exact absurd (hclosed.symm.trans hopen) (by simp)
  | enter => exact ⟨keeps_proceed.closed.symm.trans hopen, rfl⟩
  | wake hfree hphase =>
      exact ⟨(turn_keeps ⟨_, rfl, .wake hfree hphase⟩).closed.symm.trans hopen, rfl⟩
  | cancel | look | park | succeeded | watch | lateWatch | exit => exact ⟨hopen, rfl⟩

/-- With any number of consumers, with handlers that fail and with `Close` at any time, every
accepted job is in exactly one place.  One is given up only where its handler failed after
`Close`. -/
theorem pool_conserves {history : List (Entry (Pool ι) (Event ι))}
    (hrun : Run Step {} history s) :
    contents (history.flatMap fun entry => entry.label.accepted) =
        contents s.queue.items + held s.queue.delayed + ∑ i, (s.consumers i).hand +
          contents (history.flatMap fun entry => entry.label.handled) +
          contents (history.flatMap fun entry => entry.label.discarded) ∧
      (s.queue.closed = false →
        history.flatMap (fun entry => entry.label.discarded) = []) := by
  induction hrun with
  | start => exact ⟨by simp [held, Consumer.hand], fun _ => rfl⟩
  | @next history s s' event hrun hstep ih =>
      obtain ⟨hjobs, hdiscarded⟩ := ih
      have hstock := step_stock (run_sound hrun) hstep
      refine ⟨?_, fun hopen => ?_⟩
      · simp only [List.flatMap_cons, QueueDelivery.contents_append]
        change _ = s'.stock + _ + _
        rw [hjobs]
        change _ + (s.stock + _ + _) = _
        rw [← add_assoc, ← add_assoc, hstock]
        ac_rfl
      · obtain ⟨hbefore, hnone⟩ := open_before hstep hopen
        rw [List.flatMap_cons, hnone, List.nil_append]
        exact hdiscarded hbefore

def retriedJob : QueuedJob := QueueDelivery.stampedJob "job" 1 2

/-- A job whose handler fails is queued again. -/
def retrying (i : ι) : List (Event ι) :=
  [.failed i retriedJob 3, .enter i, .look i, .enqueue retriedJob 2]

/-- Its handler fails once more, after `Close`. -/
def givingUp (i : ι) : List (Event ι) :=
  [.dropped i retriedJob, .close, .enter i, .look i] ++ retrying i

theorem run_retrying : ∃ history s, Run Step {} history s ∧
    history.map Entry.label = retrying (0 : Fin 2) ∧ s.queue.closed = false := by
  refine ⟨_, _, (((Run.start.next (.enqueue ?_ rfl)).next (.look rfl)).next
    (.enter ?_ rfl)).next (.failed ?_ rfl rfl), rfl, rfl⟩
  all_goals
    unfold Pool.Unlocked
    decide

theorem run_givingUp : ∃ history s, Run Step {} history s ∧
    history.map Entry.label = givingUp (0 : Fin 2) ∧ s.queue.closed = true := by
  refine ⟨_, _, (((((((Run.start.next (.enqueue ?_ rfl)).next (.look rfl)).next
    (.enter ?_ rfl)).next (.failed ?_ rfl rfl)).next (.look rfl)).next (.enter ?_ rfl)).next
    (.close ?_)).next (@Step.dropped _ _ _ 0 retriedJob 4 _ _ ?_ rfl rfl), rfl, rfl⟩
  all_goals
    unfold Pool.Unlocked
    decide

/-- The job is given up once, and it is nowhere else then. -/
theorem failed_job_given_up_after_close :
    (∃ history s, Run Step {} history s ∧ history.map Entry.label = retrying (0 : Fin 2) ∧
      history.flatMap (fun entry => entry.label.discarded) = []) ∧
    ∃ history s, Run Step {} history s ∧ history.map Entry.label = givingUp (0 : Fin 2) ∧
      history.flatMap (fun entry => entry.label.discarded) = [retriedJob] ∧
      contents s.queue.items + held s.queue.delayed + ∑ i, (s.consumers i).hand = 0 := by
  constructor
  · obtain ⟨history, s, hrun, hlabels, hopen⟩ := run_retrying
    exact ⟨history, s, hrun, hlabels, (pool_conserves hrun).2 hopen⟩
  · obtain ⟨history, s, hrun, hlabels, -⟩ := run_givingUp
    have hevents (f : Event (Fin 2) → List QueuedJob) :
        history.flatMap (fun entry => f entry.label) = (givingUp 0).flatMap f := by
      rw [← hlabels, List.flatMap_map]
    refine ⟨history, s, hrun, hlabels, hevents Event.discarded, ?_⟩
    have hjobs := (pool_conserves hrun).1
    rw [hevents Event.accepted, hevents Event.handled, hevents Event.discarded] at hjobs
    change contents [retriedJob] = _ + 0 + contents [retriedJob] at hjobs
    rw [add_zero] at hjobs
    exact right_eq_add.mp hjobs

end Conservation

end Chronos.QueueConsumers
