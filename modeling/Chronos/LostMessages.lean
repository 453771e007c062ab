import Chronos.QueueHandoff

namespace Chronos.LostMessages

open Chronos.Domain
open Chronos.Library.CallProgram
open Chronos.Library.CallMachine
open Chronos.Library.Interleaving
open Chronos.Library.KeyedTable
open Chronos.MemoryStore
open Chronos.Operations
open Chronos.QueueHandoff
open Chronos.SchedulerCalls
open Chronos.SchedulerService
open Chronos.SharedState

variable {cron : Cron} {cfg : SchedulerConfig}

/-- The consumer is not done with the message of a job while a `createJob` is
between its enqueue and its QUEUED write. -/
def consumerWaitsForCreate (p : TaskPool) (label : TaskLabel) : Prop :=
  ∀ id, DropsMessage id p.state label → ∀ thread ∈ p.threads, isCreate thread.task →
    ¬ OwesQueuedWrite id thread

theorem createJob_handed_step {p q : TaskPool} {label : TaskLabel}
    (hp : Handed [] isCreate (fun _ _ => True) p) (hstarts : startsOnly isCreate label)
    (hwaits : consumerWaitsForCreate p label) (hstep : (service cron cfg).Step p label q) :
    Handed [] isCreate (fun _ _ => True) q := by
  refine handed_step hp hstep (fun _ _ _ _ _ => trivial) ?_ ?_
  · rintro task rfl
    refine started_ready hstarts fun hsource => ?_
    cases task with
    | createJob body =>
        exact follows_bind (createJob_follows cron body) fun _ _ hphase => hphase
    | _ => exact absurd hsource Bool.false_ne_true
  · intro thread hthread hsource id howes houtstanding _
    refine (outstanding_step hp.opened hstep (houtstanding trivial)).resolve_right ?_
    intro hdrops
    exact hwaits id hdrops thread hthread hsource howes

/-- The hand-off of the API loses no job as long as the consumer is not done
with a message before the QUEUED write that follows its enqueue. -/
theorem createJob_handoff_covered (cron : Cron) (cfg : SchedulerConfig) {w : World}
    {q : TaskPool} (hopen : w.queue.closed = false)
    (hcovered : ∀ id, w.jobState id = some .queued →
      ∃ message ∈ w.queue.items, message.jobID = id)
    (hrun : (service cron cfg).Reaches
      (fun p label => startsOnly isCreate label ∧ consumerWaitsForCreate p label) ⟨w, []⟩ q)
    (id : String) (hqueued : q.state.jobState id = some .queued) :
    InQueue q id ∨ InHand q id := by
  have hq : Handed [] isCreate (fun _ _ => True) q :=
    reaches_invariant (fun _ _ _ hp hlabel hstep =>
      createJob_handed_step hp hlabel.1 hlabel.2 hstep) hrun (handed_start hopen hcovered)
  exact message_of_outstanding (hq.covered id hqueued)

theorem no_message_of_empty {q : TaskPool} {id : String} (hitems : q.state.queue.items = [])
    (hthreads : q.threads.isEmpty) : ¬ (InQueue q id ∨ InHand q id) := by
  rintro (⟨message, hmessage, -⟩ | ⟨thread, hthread, -⟩)
  · rw [hitems] at hmessage
    exact absurd hmessage List.not_mem_nil
  · rw [List.isEmpty_iff.mp hthreads] at hthread
    exact absurd hthread List.not_mem_nil

def createdMessage : QueuedJob where
  jobID := "job"
  name := "echo"
  type := .builtin
  payload := some [0x7b, 0x7d]
  priority := 5
  attempt := 0
  timeout := 30 * second
  enqueuedAt := 5

def echoCreate : Task := .createJob (some { name := "echo" })

def movesToEnqueue : List (Move Task Draw) :=
  [.start echoCreate, .advance 0 { now := 5 }, .advance 0 { now := 5 },
    .advance 0 { uuid := "job" }, .advance 0 { now := 5 }, .advance 0 {}, .advance 0 {},
    .advance 0 { now := 5 }, .advance 0 {}]

def movesOfHandler (message : QueuedJob) : List (Move Task Draw) :=
  .start (.handleQueuedJob message) :: movesToPush 1 "execution" ++
    [.advance 1 { now := 6 }, .advance 1 {}, .advance 1 {}, .finish 1 {}]

/-- The consumer handles the message before the QUEUED write of the create
request: the job is left QUEUED and no message for it exists. -/
theorem create_strands_job :
    ∃ q : TaskPool, smallService.Reaches (fun _ label => startsOnly isCreate label)
        ⟨idleWorker, []⟩ q ∧
      q.state.jobState "job" = some .queued ∧ q.threads.isEmpty ∧
      ¬ (InQueue q "job" ∨ InHand q "job") := by
  let moves := movesToEnqueue ++ movesOfHandler createdMessage ++
    [.advance 0 {}, .advance 0 { now := 7 }, .finish 0 {}]
  let q := (smallService.follow (fun _ => startsOnly isCreate) ⟨idleWorker, []⟩ moves).get
    (by decide +kernel)
  have hthreads : q.threads.isEmpty := by decide +kernel
  exact ⟨q, reaches_of_get _, by decide +kernel, hthreads,
    no_message_of_empty (by decide +kernel) hthreads⟩

def handlersAfterCreates (p : TaskPool) : TaskLabel → Bool
  | .made (.handleQueuedJob _) _ => p.threads.all fun thread => !isCreate thread.task
  | _ => true

theorem waits_of_handlersAfterCreates {p : TaskPool} {label : TaskLabel}
    (hlabel : handlersAfterCreates p label) : consumerWaitsForCreate p label := by
  intro id hdrops thread hthread hcreate _
  cases label with
  | made task c =>
      cases task with
      | handleQueuedJob message =>
          have hnot := List.all_eq_true.mp hlabel thread hthread
          simp [hcreate] at hnot
      | _ => exact hdrops.elim
  | _ => exact hdrops.elim

theorem create_then_deliver :
    ∃ q : TaskPool, q.state.jobState "job" = some .queued ∧ q.state.queue.items = [] ∧
      (InQueue q "job" ∨ InHand q "job") := by
  let moves := movesToEnqueue ++ [.advance 0 {}, .advance 0 { now := 7 }, .finish 0 {},
    .start (.handleQueuedJob createdMessage), .advance 0 {}]
  let q := (smallService.follow
    (fun p label => startsOnly isCreate label && handlersAfterCreates p label)
    ⟨idleWorker, []⟩ moves).get (by decide +kernel)
  have hrun : smallService.Reaches
      (fun p label => startsOnly isCreate label ∧ consumerWaitsForCreate p label)
      ⟨idleWorker, []⟩ q := by
    refine reaches_of_follow (fun p label hlabel => ?_) (Option.some_get _).symm
    obtain ⟨hstarts, hafter⟩ := Bool.and_eq_true_iff.mp hlabel
    exact ⟨hstarts, waits_of_handlersAfterCreates hafter⟩
  refine ⟨q, by decide +kernel, by decide +kernel, ?_⟩
  refine createJob_handoff_covered utcOnly smallConfig rfl ?_ hrun "job" (by decide +kernel)
  intro id hqueued
  have hnone : idleWorker.jobState id = none := by
    simp [World.jobState, idleWorker, World.empty, Store.new]
  rw [hnone] at hqueued
  exact absurd hqueued (Option.some_ne_none _).symm

def promotable (w : World) (id : String) : Prop :=
  ∀ state, w.jobState id = some state → state ∈ [JobState.scheduled, .retrying]

def CreatesOccurrences (c : Call) : Prop := ∀ job, c = .createJob job → job.id = ""

/-- No result puts a job back to RETRYING while a promotion of it is between its
enqueue and its QUEUED write. -/
def retryWaitsForPromote (p : TaskPool) (label : TaskLabel) : Prop :=
  ∀ task id fields onlyFrom, label = .made task (.updateJobStateIf id .retrying fields onlyFrom) →
    ∀ thread ∈ p.threads, isPromote thread.task → ¬ OwesQueuedWrite id thread

theorem body_createsOccurrences {task : Task} (hstarts : startsOnly isPromote (.started task)) :
    (Task.body cron cfg task).CallsOnly CreatesOccurrences := by
  cases task with
  | handleQueuedJob message =>
      refine callsOnly_bind (callsOnly_mono (handleQueuedJob_calls message) ?_) fun _ => trivial
      rintro c hc job rfl
      exact hc.elim
  | handleResult jobID executionID workerID attempt result =>
      refine callsOnly_bind (callsOnly_mono
        (handleResult_calls cron jobID executionID workerID attempt result) ?_)
        fun _ => trivial
      rintro c hc job rfl
      exact hc.1
  | promoteDueJobs =>
      refine callsOnly_bind (callsOnly_mono (promoteDueJobs_calls cfg) ?_) fun _ => trivial
      rintro c hc job rfl
      exact hc.elim
  | _ => exact absurd hstarts Bool.false_ne_true

/-- A job that a step makes promotable was put to RETRYING by that step. -/
theorem retried_of_promotable {p q : TaskPool} {label : TaskLabel} {id : String}
    (hp : Handed [.scheduled, .retrying] isPromote promotable p)
    (hcreates : ∀ thread ∈ p.threads, thread.rest.CallsOnly CreatesOccurrences)
    (hstep : (service cron cfg).Step p label q) (hbefore : ¬ promotable p.state id)
    (hafter : promotable q.state id) :
    ∃ task fields onlyFrom,
      label = .made task (.updateJobStateIf id .retrying fields onlyFrom) := by
  simp only [promotable, not_forall] at hbefore
  obtain ⟨state, hstate, hnot⟩ := hbefore
  cases hstep with
  | start hstart =>
      refine absurd (hafter state ?_) hnot
      rwa [jobState_start hstart]
  | @finish w left right task value d =>
      refine absurd (hafter state ?_) hnot
      rwa [jobState_finish]
  | @advance w left right task c next d hallowed =>
      have hmem : (⟨task, .call c next⟩ : TaskThread) ∈ left ++ ⟨task, .call c next⟩ :: right :=
        List.mem_append_cons_self
      rcases jobState_step c w d id with hsame | ⟨job, rfl, hid, -⟩ |
        ⟨written, fields, onlyFrom, before, rfl, -, -, hwritten⟩
      · exact absurd (hafter state (hsame.trans hstate)) hnot
      · have hjob : job.id = "" := (hcreates _ hmem).1 job rfl
        have hfresh : Fresh w d.uuid := hallowed.1 hjob
        have hnone : w.store.jobs.get? id = none := by
          rw [← hid, stampJob, if_pos hjob]
          exact notMem_keys.mp hfresh.2.2.1
        simp [World.jobState, hnone] at hstate
      · have hpromotable := hafter written hwritten
        rcases hp.ready _ hmem with ⟨hfollows, -⟩ | ⟨-, _, hfollows, -⟩
        · simp only [List.mem_cons, List.not_mem_nil, or_false] at hpromotable
          obtain rfl := hpromotable.resolve_left hfollows.1.2
          exact ⟨task, fields, onlyFrom, rfl⟩
        · obtain ⟨-, rfl, -⟩ := hfollows.1
          simp at hpromotable

theorem promote_handed_step {p q : TaskPool} {label : TaskLabel}
    (hp : Handed [.scheduled, .retrying] isPromote promotable p)
    (hcreates : ∀ thread ∈ p.threads, thread.rest.CallsOnly CreatesOccurrences)
    (hstarts : startsOnly isPromote label) (hwaits : retryWaitsForPromote p label)
    (hstep : (service cron cfg).Step p label q) :
    Handed [.scheduled, .retrying] isPromote promotable q := by
  refine handed_step hp hstep ?_ ?_ ?_
  · intro w id before hbefore hguard state hstate
    obtain rfl := Option.some.inj (hbefore.symm.trans hstate)
    exact hguard.resolve_left (List.cons_ne_nil _ _)
  · rintro task rfl
    refine started_ready hstarts fun hsource => ?_
    cases task with
    | promoteDueJobs =>
        exact follows_bind (promoteDueJobs_follows cfg) fun _ _ hphase => hphase
    | _ => exact absurd hsource Bool.false_ne_true
  · intro thread hthread hsource id howes houtstanding hafter
    by_cases hbefore : promotable p.state id
    · refine (outstanding_step hp.opened hstep (houtstanding hbefore)).resolve_right ?_
      intro hdrops
      obtain ⟨state, hstate, hskipped⟩ := skipped_of_drops hstep hdrops
      have hpromotable := hafter state hstate
      simp only [List.mem_cons, List.not_mem_nil, or_false] at hpromotable
      rcases hpromotable with rfl | rfl <;> exact absurd hskipped Bool.noConfusion
    · obtain ⟨task, fields, onlyFrom, rfl⟩ :=
        retried_of_promotable hp hcreates hstep hbefore hafter
      exact absurd howes (hwaits task id fields onlyFrom rfl thread hthread hsource)

/-- The hand-off of the promotion loses no job as long as no result puts a job
back to RETRYING between the enqueue of a promotion and its guarded write. -/
theorem promote_handoff_covered (cron : Cron) (cfg : SchedulerConfig) {w : World}
    {q : TaskPool} (hopen : w.queue.closed = false)
    (hcovered : ∀ id, w.jobState id = some .queued →
      ∃ message ∈ w.queue.items, message.jobID = id)
    (hrun : (service cron cfg).Reaches
      (fun p label => startsOnly isPromote label ∧ retryWaitsForPromote p label) ⟨w, []⟩ q)
    (id : String) (hqueued : q.state.jobState id = some .queued) :
    InQueue q id ∨ InHand q id := by
  have hstep : ∀ p label q,
      (Handed [.scheduled, .retrying] isPromote promotable p ∧
        ∀ thread ∈ p.threads, thread.rest.CallsOnly CreatesOccurrences) →
      startsOnly isPromote label ∧ retryWaitsForPromote p label →
      (service cron cfg).Step p label q →
      Handed [.scheduled, .retrying] isPromote promotable q ∧
        ∀ thread ∈ q.threads, thread.rest.CallsOnly CreatesOccurrences := by
    rintro p label q ⟨hp, hcreates⟩ ⟨hstarts, hwaits⟩ hstep
    refine ⟨promote_handed_step hp hcreates hstarts hwaits hstep, ?_⟩
    refine forall_threads_step (fun _ _ _ answer hthread => hthread.2 answer) hstep ?_ hcreates
    rintro task rfl
    exact body_createsOccurrences hstarts
  have hq := reaches_invariant hstep hrun
    ⟨handed_start hopen hcovered, fun _ hthread => absurd hthread List.not_mem_nil⟩
  exact message_of_outstanding (hq.1.covered id hqueued)

def movesToPromote : List (Move Task Draw) :=
  [.start .promoteDueJobs, .advance 0 { now := 1, order := ["job"] }, .advance 0 { now := 1 },
    .advance 0 {}]

def movesOfFailure : List (Move Task Draw) :=
  .start (.handleResult "job" "execution" "worker" 1
      { success := false, error := "boom", retryable := true }) ::
    List.replicate 8 (.advance 1 { now := 7 }) ++ [.finish 1 {}]

/-- The message is handled and its failure reported between the enqueue of the
promotion and its guarded write.  The guard lets the write pass, since the job
is RETRYING again, and the job is left QUEUED without a message. -/
theorem promotion_strands_job :
    ∃ q : TaskPool, smallService.Reaches (fun _ label => startsOnly isPromote label)
        ⟨oneWorker (echoJob .scheduled) [], []⟩ q ∧
      q.state.jobState "job" = some .queued ∧ q.threads.isEmpty ∧
      ¬ (InQueue q "job" ∨ InHand q "job") := by
  let moves := movesToPromote ++ movesOfHandler echoMessage ++ movesOfFailure ++
    [.advance 0 { now := 8 }, .advance 0 { now := 8 }, .advance 0 {}, .finish 0 {}]
  let q := (smallService.follow (fun _ => startsOnly isPromote)
    ⟨oneWorker (echoJob .scheduled) [], []⟩ moves).get (by decide +kernel)
  have hthreads : q.threads.isEmpty := by decide +kernel
  exact ⟨q, reaches_of_get _, by decide +kernel, hthreads,
    no_message_of_empty (by decide +kernel) hthreads⟩

def retriesAfterPromotions (p : TaskPool) : TaskLabel → Bool
  | .made _ (.updateJobStateIf _ .retrying _ _) =>
      p.threads.all fun thread => !isPromote thread.task
  | _ => true

theorem waits_of_retriesAfterPromotions {p : TaskPool} {label : TaskLabel}
    (hlabel : retriesAfterPromotions p label) : retryWaitsForPromote p label := by
  rintro task id fields onlyFrom rfl thread hthread hpromote _
  have hnot := List.all_eq_true.mp hlabel thread hthread
  simp [hpromote] at hnot

theorem promotion_during_handling :
    ∃ q : TaskPool, q.state.jobState "job" = some .queued ∧ q.state.queue.items = [] ∧
      (InQueue q "job" ∨ InHand q "job") := by
  let moves := movesToPromote ++ [.start (.handleQueuedJob echoMessage), .advance 1 {},
    .advance 0 { now := 8 }, .advance 0 { now := 8 }, .advance 0 {}, .finish 0 {}]
  let q := (smallService.follow
    (fun p label => startsOnly isPromote label && retriesAfterPromotions p label)
    ⟨oneWorker (echoJob .scheduled) [], []⟩ moves).get (by decide +kernel)
  have hrun : smallService.Reaches
      (fun p label => startsOnly isPromote label ∧ retryWaitsForPromote p label)
      ⟨oneWorker (echoJob .scheduled) [], []⟩ q := by
    refine reaches_of_follow (fun p label hlabel => ?_) (Option.some_get _).symm
    obtain ⟨hstarts, hafter⟩ := Bool.and_eq_true_iff.mp hlabel
    exact ⟨hstarts, waits_of_retriesAfterPromotions hafter⟩
  refine ⟨q, by decide +kernel, by decide +kernel, ?_⟩
  refine promote_handoff_covered utcOnly smallConfig rfl ?_ hrun "job" (by decide +kernel)
  intro id hqueued
  obtain ⟨job, hjob, hstate⟩ := Option.map_eq_some_iff.mp hqueued
  simp only [oneWorker, putJob_jobs, Store.new, get?_put] at hjob
  split at hjob
  · obtain rfl := Option.some.inj hjob
    exact absurd hstate JobState.noConfusion
  · simp at hjob

end Chronos.LostMessages
