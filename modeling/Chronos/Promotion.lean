import Chronos.InformedRuns
import Chronos.QueueDelivery
import Chronos.WorkerLoss

namespace Chronos.Promotion

open Chronos.Domain
open Chronos.InformedRuns (snapshot_collectDue)
open Chronos.Library.CallMachine
open Chronos.Library.CallProgram
open Chronos.Library.KeyedTable
open Chronos.LifecycleGraph (Snapshot)
open Chronos.MemoryQueue
open Chronos.MemoryStore
open Chronos.Operations (echoJob oneWorker smallConfig sweepDraws)
open Chronos.QueueDelivery (stamp enqueue_of_open)
open Chronos.SchedulerService
open Chronos.SharedState
open Chronos.WorkerLoss (snapshot_tail)

abbrev Send := QueuedJob × Draw

/-- The `Enqueue` calls of a run, each with what it drew. -/
def enqueues (trace : List (Call × Draw)) : List Send :=
  trace.filterMap fun entry => match entry.1 with
    | .enqueue message => some (message, entry.2)
    | _ => none

theorem enqueues_append (first second : List (Call × Draw)) :
    enqueues (first ++ second) = enqueues first ++ enqueues second :=
  List.filterMap_append

/-- The call returned nil. -/
def Delivered (w : World) (send : Send) : Prop :=
  send.2.fault = none ∧ w.queue.closed = false

instance (w : World) : DecidablePred (Delivered w) :=
  fun _ => inferInstanceAs (Decidable (_ ∧ _))

/-- The message as the queue takes it in. -/
def arrived (send : Send) : QueuedJob := stamp send.1 send.2.now

theorem step_delivered {w : World} {message : QueuedJob} {d : Draw}
    (h : Delivered w (message, d)) :
    step (.enqueue message) w d = (.ok (), { w with queue :=
      { w.queue with items := insertLocked (arrived (message, d)) w.queue.items } }) := by
  simp only [step, guarded_of_none h.1, enqueue_of_open h.2]
  rfl

theorem step_refused {w : World} {message : QueuedJob} {d : Draw}
    (h : ¬Delivered w (message, d)) :
    ∃ e, step (.enqueue message) w d = (.error e, w) := by
  cases hfault : d.fault with
  | some e => exact ⟨e, by simp only [step, guarded_of_some hfault]⟩
  | none =>
      have hclosed : w.queue.closed = true := by
        rw [← Bool.not_eq_false]
        exact fun hopen => h ⟨hfault, hopen⟩
      refine ⟨.canceled, ?_⟩
      simp [step, guarded_of_none hfault, Queue.enqueue, hclosed]

/-- The job has become QUEUED. -/
def Queued (w' : World) (job : Job) : Prop :=
  ∃ queuedAt now, w'.store.jobs.get? job.id =
    some (applyUpdate job .queued { queuedAt := some queuedAt } now)

/-- One round of the loop: one message, and an update if it is delivered. -/
structure Promotes (job : Job) (send : Send) (w w' : World) : Prop where
  message : ∃ enqueuedAt, send.1 = queuedJob job enqueuedAt
  queued : Delivered w send → Queued w' job
  others : ∀ id, (Delivered w send → id ≠ job.id) →
    w'.store.jobs.get? id = w.store.jobs.get? id
  items : w'.queue.items =
    if Delivered w send then insertLocked (arrived send) w.queue.items else w.queue.items
  closed : w'.queue.closed = w.queue.closed

abbrev machine := steady fun _ => True

theorem promoteJob_promotes {job : Job} {w w' : World} {ds : List Draw} {value : Unit}
    (hjob : w.store.jobs.get? job.id = some job)
    (hstate : job.state = .scheduled ∨ job.state = .retrying)
    (hrun : machine.Runs (promoteJob job) w ds value w') :
    ∃ send, enqueues (machine.trace (promoteJob job) w ds) = [send] ∧
      Promotes job send w w' := by
  obtain ⟨d₁, _, rfl, -, hrun⟩ := runs_perform_iff.mp hrun
  obtain ⟨d₂, rest, rfl, -, hrun⟩ := runs_perform_iff.mp hrun
  rw [promoteJob, trace_perform, trace_perform]
  have hclock : step .timeNow w d₁ = (d₁.now, w) := rfl
  rw [steady_step, hclock] at hrun ⊢
  refine ⟨(queuedJob job d₁.now, d₂), ?_⟩
  by_cases hsent : Delivered w (queuedJob job d₁.now, d₂)
  · simp only [step_delivered hsent] at hrun ⊢
    obtain ⟨d₃, _, rfl, -, hrun⟩ := runs_perform_iff.mp hrun
    obtain ⟨d₄, _, rfl, hallowed, hrun⟩ := runs_perform_iff.mp hrun
    obtain ⟨d₅, _, rfl, -, hrun⟩ := runs_perform_iff.mp hrun
    obtain ⟨rfl, -, rfl⟩ := runs_ret_iff.mp hrun
    rw [steady_step]
    generalize hw' : (step (.emit _) _ d₅).2 = w'
    have hstore : w'.store = w.store.putJob
        (applyUpdate job .queued { queuedAt := some d₃.now } d₄.now) := by
      have hguard : job.state ∈ [JobState.scheduled, JobState.retrying] := by simpa using hstate
      rw [← hw', (emit_frame _ _ _).1]
      simp only [step, guarded_of_none (hallowed.2.1 rfl),
        updateJobStateIf_of_some hjob _ _ (Or.inr hguard)]
    have hqueue : w'.queue = { w.queue with
        items := insertLocked (arrived (queuedJob job d₁.now, d₂)) w.queue.items } := by
      rw [← hw', (emit_frame _ _ _).2]
      simp only [step, guarded_of_none (hallowed.2.1 rfl)]
    refine ⟨rfl, ⟨d₁.now, rfl⟩, fun _ => ⟨d₃.now, d₄.now, ?_⟩, fun id hid => ?_, ?_, ?_⟩
    · rw [hstore, putJob_jobs, get?_put_applyUpdate hjob]
    · rw [hstore, putJob_jobs, get?_put_of_ne _ (by rw [applyUpdate_id]; exact hid hsent)]
    · rw [hqueue, if_pos hsent]
    · rw [hqueue]
  · obtain ⟨e, hstep⟩ := step_refused hsent
    simp only [hstep] at hrun ⊢
    obtain ⟨rfl, -, rfl⟩ := runs_ret_iff.mp hrun
    refine ⟨rfl, ⟨d₁.now, rfl⟩, fun h => absurd h hsent, fun _ _ => rfl, ?_, rfl⟩
    rw [if_neg hsent]

/-- What the loop over a snapshot of due jobs does, one `Enqueue` call for each. -/
structure PromotesAll (jobs : List Job) (sends : List Send) (w w' : World) : Prop where
  listed : sends.map (fun send => send.1.jobID) = jobs.map Job.id
  promoted : ∀ send ∈ sends, ∃ job ∈ jobs, (∃ enqueuedAt, send.1 = queuedJob job enqueuedAt) ∧
    (Delivered w send → Queued w' job)
  others : ∀ id, (∀ send ∈ sends, Delivered w send → id ≠ send.1.jobID) →
    w'.store.jobs.get? id = w.store.jobs.get? id
  messages : w'.queue.items.Perm
    ((sends.filter (Delivered w)).map arrived ++ w.queue.items)
  kept : w.queue.items.Sublist w'.queue.items

theorem delivered_congr {w w' : World} (hclosed : w'.queue.closed = w.queue.closed) :
    Delivered w' = Delivered w := by
  funext send
  rw [Delivered, Delivered, hclosed]

theorem promoteJobs_promote {jobs : List Job} {w w' : World} {ds : List Draw} {value : Unit}
    (hlisted : Snapshot w.store.jobs (fun state => state = .scheduled ∨ state = .retrying) jobs)
    (hrun : machine.Runs (forEach jobs promoteJob) w ds value w') :
    PromotesAll jobs (enqueues (machine.trace (forEach jobs promoteJob) w ds)) w w' := by
  induction jobs generalizing w ds with
  | nil =>
      obtain ⟨rfl, -, rfl⟩ := runs_ret_iff.mp hrun
      exact ⟨rfl, fun _ h => absurd h List.not_mem_nil, fun _ _ => rfl, .refl _, .refl _⟩
  | cons job jobs ih =>
      obtain ⟨first, rest, _, w₁, rfl, hfirst, hrest⟩ := runs_bind_iff.mp hrun
      have hjob := hlisted.stored job List.mem_cons_self
      obtain ⟨send, hsend, h⟩ := promoteJob_promotes hjob
        (hlisted.states job List.mem_cons_self) hfirst
      have hfresh := (List.nodup_cons.mp hlisted.nodup).1
      have hid : send.1.jobID = job.id := by
        obtain ⟨t, ht⟩ := h.message
        rw [ht]
        rfl
      -- the jobs still to do are untouched by the first round
      have hothers : ∀ other ∈ jobs, w₁.store.jobs.get? other.id = w.store.jobs.get? other.id := by
        intro other hother
        exact h.others _ fun _ heq => hfresh (heq ▸ List.mem_map_of_mem hother)
      have htail := snapshot_tail hlisted
      have hloop := ih ⟨htail.nodup, fun other hother => by
        rw [hothers other hother, htail.stored other hother], htail.states⟩ hrest
      have hsame := delivered_congr h.closed
      rw [forEach, trace_bind hfirst, enqueues_append, hsend]
      generalize enqueues (machine.trace (forEach jobs promoteJob) w₁ rest) = sends at hloop ⊢
      have hlater : ∀ later ∈ sends, later.1.jobID ≠ job.id := by
        intro later hmem heq
        refine hfresh (hloop.listed ▸ ?_)
        exact heq ▸ List.mem_map_of_mem (f := fun send : Send => send.1.jobID) hmem
      refine ⟨?_, ?_, fun id hnot => ?_, ?_, ?_⟩
      · rw [List.singleton_append, List.map_cons, List.map_cons, hloop.listed, hid]
      · intro later hmem
        rcases List.mem_cons.mp hmem with rfl | hmem
        · refine ⟨job, List.mem_cons_self, h.message, fun hsent => ?_⟩
          obtain ⟨queuedAt, now, hqueued⟩ := h.queued hsent
          exact ⟨queuedAt, now, (hloop.others _ fun later hmem _ =>
            (hlater later hmem).symm).trans hqueued⟩
        · obtain ⟨other, hother, hmessage, hqueued⟩ := hloop.promoted later hmem
          exact ⟨other, List.mem_cons_of_mem _ hother, hmessage, hsame ▸ hqueued⟩
      · rw [hloop.others id fun later hmem hsent =>
          hnot later (List.mem_cons_of_mem _ hmem) (hsame ▸ hsent)]
        exact h.others id fun hsent => hid ▸ hnot send List.mem_cons_self hsent
      · refine hloop.messages.trans ?_
        simp only [hsame, h.items, List.singleton_append, List.filter_cons, decide_eq_true_eq]
        split
        · rw [List.map_cons, List.cons_append]
          exact ((perm_insertLocked _ _).append_left _).trans List.perm_middle
        · exact .refl _
      · refine List.Sublist.trans ?_ hloop.kept
        rw [h.items]
        split
        · exact sublist_insertLocked _ _
        · exact .refl _

/-- The message is for the job. -/
structure Carries (message : QueuedJob) (job : Job) : Prop where
  jobID : message.jobID = job.id
  type : message.type = job.type
  payload : message.payload = job.payload
  priority : message.priority = job.priority
  attempt : message.attempt = job.attempt
  timeout : message.timeout = job.timeout

/-- One batch of `promoteDueJobs` with the reading `now`, by its `Enqueue` calls. -/
structure PromotesBatch (batch : Int) (now : Time) (sends : List Send) (w w' : World) : Prop where
  distinct : (sends.map fun send => send.1.jobID).Nodup
  count : (sends.length : Int) = min batch ((w.store.jobs.matching (dueScheduled now)).card : Int)
  selected : ∀ send ∈ sends, ∃ job, w.store.jobs.get? send.1.jobID = some job ∧
    dueScheduled now job ∧ Carries (arrived send) job ∧ (Delivered w send → Queued w' job)
  others : ∀ id, (∀ send ∈ sends, Delivered w send → id ≠ send.1.jobID) →
    w'.store.jobs.get? id = w.store.jobs.get? id
  messages : w'.queue.items.Perm
    ((sends.filter (Delivered w)).map arrived ++ w.queue.items)
  kept : w.queue.items.Sublist w'.queue.items

theorem carries_arrived {job : Job} {send : Send} {enqueuedAt : Time}
    (hmessage : send.1 = queuedJob job enqueuedAt) : Carries (arrived send) job := by
  rw [arrived, hmessage, stamp]
  split <;> exact ⟨rfl, rfl, rfl, rfl, rfl, rfl⟩

/-- A pass of `promoteDueJobs` promotes exactly its batch, whatever the order of the map and
whichever `Enqueue` calls fail. -/
theorem promotes_batch {cfg : SchedulerConfig} (hbatch : 1 ≤ cfg.assignBatchSize) {w w' : World}
    {d : Draw} {ds : List Draw} {result : Except Err Unit}
    (hrun : (steady fun _ => True).Runs (promoteDueJobs cfg) w (d :: ds) result w') :
    PromotesBatch cfg.assignBatchSize d.now
      (enqueues ((steady fun _ => True).trace (promoteDueJobs cfg) w (d :: ds))) w w' := by
  obtain ⟨_, _, ⟨⟩, hallowed, hrun⟩ := runs_perform_iff.mp hrun
  rw [promoteDueJobs, trace_perform]
  simp only [steady_step, step, guarded_of_none (hallowed.2.1 rfl)] at hrun ⊢
  obtain ⟨loop, rest, value, w₁, rfl, hloop, hret⟩ := runs_bind_iff.mp hrun
  obtain ⟨rfl, -, rfl⟩ := runs_ret_iff.mp hret
  have hlisted : Snapshot w.store.jobs (fun state => state = .scheduled ∨ state = .retrying)
      (w.store.listDueScheduled d.order d.now cfg.assignBatchSize) :=
    snapshot_collectDue hallowed.1 d.now cfg.assignBatchSize
  have hall := promoteJobs_promote hlisted hloop
  rw [trace_bind hloop, ← List.singleton_append, enqueues_append, enqueues_append]
  have hnone : enqueues [(.listDueScheduled cfg.assignBatchSize, d)] = [] := rfl
  have hlast : enqueues (machine.trace (pure (Except.ok ()) : Prog (Except Err Unit)) w' []) = [] :=
    rfl
  rw [hnone, hlast, List.nil_append, List.append_nil]
  refine ⟨?_, ?_, fun send hsend => ?_, hall.others, hall.messages, hall.kept⟩
  · rw [hall.listed]
    exact hlisted.nodup
  · have hlength := congrArg List.length hall.listed
    rw [List.length_map, List.length_map] at hlength
    rw [hlength, Store.listDueScheduled, length_collectDue (by rw [List.length_nil]; omega),
      List.length_nil, Nat.zero_add, Enumerates.length_filter hallowed.1]
  · obtain ⟨job, hjob, ⟨t, hmessage⟩, hqueued⟩ := hall.promoted send hsend
    have hdue := (collectDue_sublist d.now cfg.assignBatchSize [] _).subset hjob
    refine ⟨job, ?_, (List.mem_filter.mp hdue).2, carries_arrived hmessage, hqueued⟩
    rw [hmessage]
    exact hlisted.stored job hjob

theorem due_job_promoted :
    ∃ ds result w', (steady fun _ => True).Runs (promoteDueJobs smallConfig)
        (oneWorker (echoJob .scheduled) []) ds result w' ∧
      PromotesBatch smallConfig.assignBatchSize 1 (enqueues ((steady fun _ => True).trace
        (promoteDueJobs smallConfig) (oneWorker (echoJob .scheduled) []) ds))
        (oneWorker (echoJob .scheduled) []) w' := by
  have hexec : ((steady fun _ => True).exec (promoteDueJobs smallConfig)
      (oneWorker (echoJob .scheduled) []) (sweepDraws 6 1)).isSome := by
    decide +kernel
  exact ⟨_, _, _, runs_of_get hexec, promotes_batch (by decide) (runs_of_get hexec)⟩

end Chronos.Promotion
