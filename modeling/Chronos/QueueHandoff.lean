import Chronos.Operations
import Chronos.SchedulerCalls
import Chronos.SharedState.Steps

namespace Chronos.QueueHandoff

open Chronos.ApiServer (newJob enqueueJob submitJob)
open Chronos.Domain
open Chronos.Library.CallProgram
open Chronos.Library.CallMachine
open Chronos.Library.Interleaving
open Chronos.MemoryQueue
open Chronos.MemoryStore
open Chronos.Operations
open Chronos.SchedulerCalls
open Chronos.SchedulerService
open Chronos.SharedState

def InQueue (p : TaskPool) (id : String) : Prop :=
  ∃ message ∈ p.state.queue.items, message.jobID = id

def InHand (p : TaskPool) (id : String) : Prop :=
  ∃ thread ∈ p.threads, ∃ message, thread.task = .handleQueuedJob message ∧
    message.jobID = id

def queuesJob (id : String) : Call → Bool
  | .updateJobStateIf id' .queued _ _ => id' == id
  | _ => false

/-- The thread has the QUEUED write of the job still to make, whatever happens:
it is past the enqueue and before the write. -/
def OwesQueuedWrite (id : String) (thread : TaskThread) : Prop :=
  thread.rest.Owes (fun c _ => queuesJob id c) fun _ => False

/-- A hand-off enqueues the message of a job and then, before anything else that
touches a job or the queue, makes the QUEUED write of that job, under `guard`.
The phase `some id` lies between the two. -/
def handoff (guard : List JobState) : Protocol Call Answer (Option String) where
  Admits
    | none, .updateJobStateIf _ state _ _ => state ≠ .queued ∧ state ≠ .scheduled
    | none, .createJob job => job.state ≠ .queued
    | some id, .updateJobStateIf id' state _ onlyFrom =>
        id' = id ∧ state = .queued ∧ onlyFrom = guard
    | some _, .createJob _ => False
    | some _, .enqueue _ => False
    | _, _ => True
  after
    | _, .enqueue job, .ok _ => some job.jobID
    | _, .updateJobStateIf _ _ _ _, _ => none
    | phase, _, _ => phase

def released {α : Type} (phase : Option String) (_ : α) : Prop := phase = none

theorem enqueueJob_follows (job : Job) :
    (enqueueJob job).Follows (handoff []) released none := by
  refine (follows_perform ..).mpr ⟨trivial, fun now => ?_⟩
  refine (follows_perform ..).mpr ⟨trivial, fun enqueued => ?_⟩
  cases enqueued with
  | error e => exact rfl
  | ok _ =>
      refine (follows_perform ..).mpr ⟨trivial, fun _ => ?_⟩
      refine (follows_perform ..).mpr ⟨⟨rfl, rfl, rfl⟩, fun updated => ?_⟩
      cases updated <;> exact rfl

theorem submitJob_follows (job : Job) (now : Time) (hjob : job.state ≠ .queued) :
    (submitJob job now).Follows (handoff []) released none := by
  refine (follows_perform ..).mpr ⟨hjob, fun created => ?_⟩
  cases created with
  | error e => exact rfl
  | ok job =>
      refine (follows_perform ..).mpr ⟨trivial, fun _ => ?_⟩
      refine (follows_perform ..).mpr ⟨trivial, fun _ => ?_⟩
      split
      · refine follows_bind (enqueueJob_follows job) ?_
        rintro _ (e | job) rfl <;> exact rfl
      · exact rfl

theorem createJob_follows (cron : Cron) (body : Option CreateJobRequest) :
    (ApiServer.createJob cron body).Follows (handoff []) released none := by
  cases body with
  | none => exact rfl
  | some req =>
      refine (follows_perform ..).mpr ⟨trivial, fun checkedAt => ?_⟩
      split
      · exact rfl
      · refine (follows_perform ..).mpr ⟨trivial, fun now => ?_⟩
        refine (follows_perform ..).mpr ⟨trivial, fun id => ?_⟩
        split
        · exact rfl
        · exact submitJob_follows _ now JobState.noConfusion

theorem promoteJob_follows (job : Job) :
    (promoteJob job).Follows (handoff [.scheduled, .retrying]) released none := by
  refine (follows_perform ..).mpr ⟨trivial, fun enqueuedAt => ?_⟩
  refine (follows_perform ..).mpr ⟨trivial, fun enqueued => ?_⟩
  cases enqueued with
  | error e => exact rfl
  | ok _ =>
      refine (follows_perform ..).mpr ⟨trivial, fun now => ?_⟩
      refine (follows_perform ..).mpr ⟨⟨rfl, rfl, rfl⟩, fun _ => ?_⟩
      exact (follows_perform ..).mpr ⟨trivial, fun _ => rfl⟩

theorem promoteDueJobs_follows (cfg : SchedulerConfig) :
    (promoteDueJobs cfg).Follows (handoff [.scheduled, .retrying]) released none := by
  refine (follows_perform ..).mpr ⟨trivial, fun listed => ?_⟩
  cases listed with
  | error e => exact rfl
  | ok jobs =>
      have hloop : (forEach jobs promoteJob).Follows (handoff [.scheduled, .retrying])
          released none := by
        refine follows_forEach (I := fun _ phase => phase = none) ?_ rfl
        rintro job _ _ rfl
        exact promoteJob_follows job
      exact follows_bind hloop fun _ _ hreleased => hreleased

theorem owes_of_follows {guard : List JobState} {id : String} {p : Prog Outcome}
    (hp : p.Follows (handoff guard) released (some id)) :
    p.Owes (fun c _ => queuesJob id c) fun _ => False := by
  induction p with
  | ret value => exact absurd hp (Option.some_ne_none id)
  | call c next ih =>
      intro answer
      cases c with
      | updateJobStateIf id' state fields onlyFrom =>
          obtain ⟨rfl, rfl, -⟩ := hp.1
          exact Or.inl (beq_self_eq_true id')
      | enqueue job => exact hp.1.elim
      | _ => exact Or.inr (ih answer (hp.2 answer))

theorem handleResult_follows (cron : Cron) (cfg : SchedulerConfig) (guard : List JobState)
    (jobID executionID workerID : String) (attempt : Int) (result : ExecutionResult) :
    (Task.body cron cfg (.handleResult jobID executionID workerID attempt result)).Follows
      (handoff guard) released none := by
  have hcalls := callsOnly_bind
    (handleResult_calls cron jobID executionID workerID attempt result)
    fun r => callsOnly_ret _ (Outcome.returned r)
  refine follows_of_callsOnly hcalls (fun c hc => ?_) fun _ => rfl
  cases c with
  | createJob job => exact ⟨by simp [handoff, hc.2.2], fun _ => rfl⟩
  | updateJobStateIf id state fields onlyFrom =>
      obtain ⟨-, hstate, -⟩ := hc
      refine ⟨⟨?_, ?_⟩, fun _ => rfl⟩ <;>
      · rintro rfl
        exact absurd hstate Bool.false_ne_true
  | enqueue job => exact hc.elim
  | _ => exact ⟨trivial, fun _ => rfl⟩

theorem handleQueuedJob_follows (cron : Cron) (cfg : SchedulerConfig)
    (guard : List JobState) (job : QueuedJob) :
    (Task.body cron cfg (.handleQueuedJob job)).Follows (handoff guard) released none := by
  have hcalls := callsOnly_bind (handleQueuedJob_calls job)
    fun r => callsOnly_ret _ (Outcome.returned r)
  refine follows_of_callsOnly hcalls (fun c hc => ?_) fun _ => rfl
  cases c with
  | updateJobStateIf id state fields onlyFrom =>
      obtain ⟨-, rfl | rfl, -⟩ := hc <;>
      exact ⟨⟨JobState.noConfusion, JobState.noConfusion⟩, fun _ => rfl⟩
  | createJob job => exact hc.elim
  | enqueue job => exact hc.elim
  | _ => exact ⟨trivial, fun _ => rfl⟩

def runningWritten (id : String) : (c : Call) → Answer c → Prop
  | .updateJobStateIf id' state _ onlyFrom, .ok _ =>
      id' = id ∧ state = .running ∧ onlyFrom = []
  | _, _ => False

/-- The thread has a message for the job that it has not yet skipped, and will
make its RUNNING write or give the message back. -/
def HoldsMessage (id : String) (thread : TaskThread) : Prop :=
  ∃ message, thread.task = .handleQueuedJob message ∧ message.jobID = id ∧
    (thread.rest = (do return .returned (← handleQueuedJob message)) ∨
      thread.rest.Owes (runningWritten id) fun outcome => outcome.failed)

/-- Some message for the job still has its effect ahead of it. -/
def Outstanding (p : TaskPool) (id : String) : Prop :=
  InQueue p id ∨ ∃ thread ∈ p.threads, HoldsMessage id thread

theorem dispatchJob_owes (job : QueuedJob) :
    (dispatchJob job).Owes (runningWritten job.jobID) fun r => r.isOk = false := by
  refine (owes_perform ..).mpr fun picked => Or.inr ?_
  cases picked with
  | none => exact rfl
  | some wc =>
      refine (owes_perform ..).mpr fun executionID => Or.inr ?_
      refine (owes_perform ..).mpr fun created => Or.inr ?_
      cases created with
      | error e => exact rfl
      | ok _ =>
          refine (owes_perform ..).mpr fun now => Or.inr ?_
          refine (owes_perform ..).mpr fun assigned => Or.inr ?_
          cases assigned with
          | error e => exact rfl
          | ok _ =>
              refine (owes_perform ..).mpr fun _ => Or.inr ?_
              refine (owes_perform ..).mpr fun reply => Or.inr ?_
              split
              · exact rfl
              · refine (owes_perform ..).mpr fun running => ?_
                cases running with
                | error e => exact Or.inr rfl
                | ok _ => exact Or.inl ⟨rfl, rfl, rfl⟩

/-- The step at which a handler is done with the message of a job: it finds the
job in a state it skips, or it makes the RUNNING write. -/
def DropsMessage (id : String) (w : World) : TaskLabel → Prop
  | .made (.handleQueuedJob message) (.getJob _) =>
      message.jobID = id ∧ ∃ state, w.jobState id = some state ∧ state.queueable = false
  | .made (.handleQueuedJob message) (.updateJobStateIf id' state _ onlyFrom) =>
      message.jobID = id ∧ id' = id ∧ state = .running ∧ onlyFrom = [] ∧
        (w.jobState id).isSome
  | _ => False

variable {cron : Cron} {cfg : SchedulerConfig}

theorem holdsMessage_checked {message : QueuedJob} {c : Call} {next : Answer c → Prog Outcome}
    (hrest : Program.call c next = do return .returned (← handleQueuedJob message))
    {w : World} {d : Draw} (hd : d.fault = none) :
    HoldsMessage message.jobID ⟨.handleQueuedJob message, next (step c w d).1⟩ ∨
      DropsMessage message.jobID w (.made (.handleQueuedJob message) c) := by
  obtain ⟨rfl, -, hnext⟩ := handleQueuedJob_read hrest hd
  cases hstate : w.jobState message.jobID with
  | none =>
      refine Or.inl ⟨message, rfl, rfl, Or.inr ?_⟩
      rw [hnext, hstate]
      rfl
  | some state =>
      cases hqueueable : state.queueable with
      | true =>
          refine Or.inl ⟨message, rfl, rfl, Or.inr ?_⟩
          simp only [hnext, hstate, hqueueable, if_true]
          refine owes_bind (dispatchJob_owes message) ?_
          rintro (e | _) hfailed
          · exact rfl
          · exact absurd hfailed Bool.noConfusion
      | false => exact Or.inr ⟨rfl, state, hstate, hqueueable⟩

theorem holdsMessage_owing {message : QueuedJob} {c : Call} {next : Answer c → Prog Outcome}
    (howes : (Program.call c next).Owes (runningWritten message.jobID)
      fun outcome => outcome.failed)
    {w : World} {d : Draw} (hd : d.fault = none) :
    HoldsMessage message.jobID ⟨.handleQueuedJob message, next (step c w d).1⟩ ∨
      DropsMessage message.jobID w (.made (.handleQueuedJob message) c) := by
  rcases howes (step c w d).1 with hwritten | howes
  · right
    cases c with
    | updateJobStateIf id state fields onlyFrom =>
        simp only [step, guarded_of_none hd, Store.updateJobStateIf] at hwritten
        split at hwritten
        · exact hwritten.elim
        · rename_i job hjob
          have hwrite : id = message.jobID ∧ state = .running ∧ onlyFrom = [] := by
            split at hwritten <;> exact hwritten
          obtain ⟨rfl, rfl, rfl⟩ := hwrite
          exact ⟨rfl, rfl, rfl, rfl, by simp [World.jobState, hjob]⟩
    | _ => exact hwritten.elim
  · exact Or.inl ⟨message, rfl, rfl, Or.inr howes⟩

theorem outstanding_start {p : TaskPool} {task : Task} {w : World} {id : String}
    (hstart : startTask p task = some w) (hp : InQueue p id) :
    Outstanding ⟨w, p.threads ++ [⟨task, Task.body cron cfg task⟩]⟩ id := by
  obtain ⟨item, hitem, hid⟩ := hp
  cases task with
  | handleQueuedJob message =>
      simp only [startTask, Option.ite_none_left_eq_some, Option.ite_none_right_eq_some,
        Option.some.injEq] at hstart
      obtain ⟨-, htake, rfl⟩ := hstart
      rw [(items_of_take htake).1, List.mem_cons] at hitem
      rcases hitem with rfl | hitem
      · exact Or.inr ⟨_, List.mem_append_right _ (List.mem_singleton.mpr rfl),
          item, rfl, hid, Or.inl rfl⟩
      · exact Or.inl ⟨item, hitem, hid⟩
  | handleResult jobID executionID workerID attempt result =>
      simp only [startTask, Option.ite_none_right_eq_some, Option.some.injEq] at hstart
      exact Or.inl ⟨item, by rwa [← hstart.2], hid⟩
  | _ =>
      obtain rfl := Option.some.inj hstart
      exact Or.inl ⟨item, hitem, hid⟩

theorem mem_queue_finish {w : World} {item : QueuedJob} (hitem : item ∈ w.queue.items)
    (task : Task) (outcome : Outcome) (d : Draw) :
    item ∈ (finishTask task outcome d w).queue.items := by
  cases task with
  | handleQueuedJob message =>
      simp only [finishTask]
      split
      · exact mem_enqueue hitem
      · exact hitem
  | _ => exact hitem

theorem requeued_of_holds {w : World} {task : Task} {value : Outcome} {id : String}
    (hopen : w.queue.closed = false) (hholds : HoldsMessage id ⟨task, .ret value⟩) (d : Draw) :
    ∃ message ∈ (finishTask task value d w).queue.items, message.jobID = id := by
  obtain ⟨message, rfl, rfl, hrest | hfailed⟩ := hholds
  · cases hrest
  · change value.failed = true at hfailed
    simp only [finishTask]
    rw [if_pos hfailed]
    exact exists_mem_enqueue hopen message d.now

/-- A message stays outstanding until a handler is done with it. -/
theorem outstanding_step {p q : TaskPool} {label : TaskLabel} {id : String}
    (hopen : p.state.queue.closed = false) (hstep : (service cron cfg).Step p label q)
    (hp : Outstanding p id) : Outstanding q id ∨ DropsMessage id p.state label := by
  cases hstep with
  | start hstart =>
      left
      rcases hp with hqueued | ⟨thread, hthread, hholds⟩
      · exact outstanding_start hstart hqueued
      · exact Or.inr ⟨thread, List.mem_append_left _ hthread, hholds⟩
  | @advance w left right task c next d hallowed =>
      rcases hp with ⟨item, hitem, hid⟩ | ⟨thread, hthread, hholds⟩
      · exact Or.inl (Or.inl ⟨item, mem_queue_step hitem c d, hid⟩)
      · simp only [List.mem_append, List.mem_cons] at hthread
        rcases hthread with hleft | rfl | hright
        · exact Or.inl (Or.inr ⟨thread, List.mem_append_left _ hleft, hholds⟩)
        · obtain ⟨message, rfl, rfl, hrest | howes⟩ := hholds
          · refine (holdsMessage_checked hrest hallowed.2).imp_left fun hholds => ?_
            exact Or.inr ⟨_, List.mem_append_cons_self, hholds⟩
          · refine (holdsMessage_owing howes hallowed.2).imp_left fun hholds => ?_
            exact Or.inr ⟨_, List.mem_append_cons_self, hholds⟩
        · exact Or.inl (Or.inr ⟨thread,
            List.mem_append_right _ (List.mem_cons_of_mem _ hright), hholds⟩)
  | @finish w left right task value d =>
      left
      rcases hp with ⟨item, hitem, hid⟩ | ⟨thread, hthread, hholds⟩
      · exact Or.inl ⟨item, mem_queue_finish hitem task value d, hid⟩
      · simp only [List.mem_append, List.mem_cons] at hthread
        rcases hthread with hleft | rfl | hright
        · exact Or.inr ⟨thread, List.mem_append_left _ hleft, hholds⟩
        · exact Or.inl (requeued_of_holds hopen hholds d)
        · exact Or.inr ⟨thread, List.mem_append_right _ hright, hholds⟩

theorem skipped_of_drops {p q : TaskPool} {label : TaskLabel} {id : String}
    (hstep : (service cron cfg).Step p label q) (hdrops : DropsMessage id p.state label) :
    ∃ state, q.state.jobState id = some state ∧ state.queueable = false := by
  cases hstep with
  | start hstart => exact hdrops.elim
  | finish d => exact hdrops.elim
  | @advance w left right task c next d hallowed =>
      cases task with
      | handleQueuedJob message =>
          cases c with
          | getJob id' =>
              obtain ⟨-, state, hstate, hskipped⟩ := hdrops
              have hsame := jobState_step (.getJob id') w d id
              simp only [reduceCtorEq, false_and, exists_false, or_false] at hsame
              exact ⟨state, hsame.trans hstate, hskipped⟩
          | updateJobStateIf id' written fields onlyFrom =>
              obtain ⟨-, rfl, rfl, rfl, hstored⟩ := hdrops
              obtain ⟨before, hbefore⟩ := Option.isSome_iff_exists.mp hstored
              refine ⟨.running, ?_, rfl⟩
              change (step _ w d).2.jobState id' = _
              change w.jobState id' = _ at hbefore
              rw [jobState_update hallowed.2, hbefore]
              rfl
          | _ => exact hdrops.elim
      | _ => exact hdrops.elim

def NoEnqueue (c : Call) : Prop := ∀ job, c ≠ .enqueue job

/-- What holds of the threads between hand-offs and in the middle of one:
`source` tells which tasks make hand-offs, and `Live` where the pending QUEUED
write can still take effect. -/
def ThreadReady (guard : List JobState) (source : Task → Bool)
    (Live : World → String → Prop) (p : TaskPool) (thread : TaskThread) : Prop :=
  (thread.rest.Follows (handoff guard) released none ∧
      (source thread.task ∨ thread.rest.CallsOnly NoEnqueue)) ∨
    source thread.task ∧ ∃ id, thread.rest.Follows (handoff guard) released (some id) ∧
      (Live p.state id → Outstanding p id)

/-- The invariant of the hand-offs: every QUEUED job has a message outstanding,
and so has every job whose QUEUED write is still to come. -/
structure Handed (guard : List JobState) (source : Task → Bool)
    (Live : World → String → Prop) (p : TaskPool) : Prop where
  opened : p.state.queue.closed = false
  ready : ∀ thread ∈ p.threads, ThreadReady guard source Live p thread
  covered : ∀ id, p.state.jobState id = some .queued → Outstanding p id

section Step

variable {guard : List JobState} {source : Task → Bool} {Live : World → String → Prop}
  {p q : TaskPool} {label : TaskLabel}

theorem opened_step (hopen : p.state.queue.closed = false)
    (hstep : (service cron cfg).Step p label q) : q.state.queue.closed = false := by
  cases hstep with
  | start hstart => exact (startTask_frame hstart).2.trans hopen
  | advance hallowed => exact (closed_step _ _ _).trans hopen
  | finish d => exact (finishTask_frame _ _ _ _).2.trans hopen

theorem ready_frame {thread : TaskThread} (hthread : ThreadReady guard source Live p thread)
    (hkeep : source thread.task → ∀ id, OwesQueuedWrite id thread →
      (Live p.state id → Outstanding p id) → Live q.state id → Outstanding q id) :
    ThreadReady guard source Live q thread := by
  rcases hthread with hidle | ⟨hsource, id, hfollows, hlive⟩
  · exact Or.inl hidle
  · exact Or.inr ⟨hsource, id, hfollows, hkeep hsource id (owes_of_follows hfollows) hlive⟩

theorem ready_call {w : World} {left right : List TaskThread} {task : Task} {c : Call}
    {next : Answer c → Prog Outcome} {d : Draw} (hd : d.fault = none)
    (hopen : w.queue.closed = false)
    (hthread : ThreadReady guard source Live
      ⟨w, left ++ ⟨task, .call c next⟩ :: right⟩ ⟨task, .call c next⟩)
    (hkeep : source task → ∀ id, OwesQueuedWrite id ⟨task, .call c next⟩ →
      (Live w id → Outstanding ⟨w, left ++ ⟨task, .call c next⟩ :: right⟩ id) →
        Live (step c w d).2 id →
          Outstanding ⟨(step c w d).2, left ++ ⟨task, next (step c w d).1⟩ :: right⟩ id) :
    ThreadReady guard source Live
      ⟨(step c w d).2, left ++ ⟨task, next (step c w d).1⟩ :: right⟩
      ⟨task, next (step c w d).1⟩ := by
  rcases hthread with ⟨hfollows, hquiet⟩ | ⟨hsource, id, hfollows, hlive⟩
  · have hquiet' : source task ∨ (next (step c w d).1).CallsOnly NoEnqueue :=
      hquiet.imp_right fun hcalls => hcalls.2 _
    have hnext := hfollows.2 (step c w d).1
    cases c with
    | enqueue job =>
        have hsource : source task := hquiet.resolve_right fun hcalls => hcalls.1 job rfl
        simp only [step, guarded_of_none hd] at hnext ⊢
        have henqueued : (w.queue.enqueue job d.now).1 = .ok () := by
          simp [Queue.enqueue, hopen]
        rw [henqueued] at hnext ⊢
        refine Or.inr ⟨hsource, job.jobID, hnext, fun _ => Or.inl ?_⟩
        exact exists_mem_enqueue hopen job d.now
    | _ => exact Or.inl ⟨hnext, hquiet'⟩
  · have hnext := hfollows.2 (step c w d).1
    have hpending := hkeep hsource id (owes_of_follows hfollows) hlive
    cases c with
    | updateJobStateIf id' state fields onlyFrom => exact Or.inl ⟨hnext, Or.inl hsource⟩
    | enqueue job => exact hfollows.1.elim
    | _ => exact Or.inr ⟨hsource, id, hnext, hpending⟩

theorem ready_step (hp : Handed guard source Live p)
    (hstep : (service cron cfg).Step p label q)
    (hstarted : ∀ task, label = .started task →
      ThreadReady guard source Live q ⟨task, Task.body cron cfg task⟩)
    (hkeep : ∀ thread ∈ p.threads, source thread.task → ∀ id, OwesQueuedWrite id thread →
      (Live p.state id → Outstanding p id) → Live q.state id → Outstanding q id) :
    ∀ thread ∈ q.threads, ThreadReady guard source Live q thread := by
  have hframe : ∀ thread ∈ p.threads, ThreadReady guard source Live q thread :=
    fun thread hthread => ready_frame (hp.ready thread hthread) (hkeep thread hthread)
  cases hstep with
  | start hstart =>
      intro thread hthread
      rcases List.mem_append.mp hthread with hold | hnew
      · exact hframe thread hold
      · rw [List.mem_singleton.mp hnew]
        exact hstarted _ rfl
  | @advance w left right task c next d hallowed =>
      have hmem : (⟨task, .call c next⟩ : TaskThread) ∈ left ++ ⟨task, .call c next⟩ :: right :=
        List.mem_append_cons_self
      simp only [List.mem_append, List.mem_cons] at hframe ⊢
      rintro thread (hleft | rfl | hright)
      · exact hframe thread (Or.inl hleft)
      · exact ready_call hallowed.2 hp.opened (hp.ready _ hmem) (hkeep _ hmem)
      · exact hframe thread (Or.inr (Or.inr hright))
  | finish d =>
      simp only [List.mem_append, List.mem_cons] at hframe ⊢
      rintro thread (hleft | hright)
      · exact hframe thread (Or.inl hleft)
      · exact hframe thread (Or.inr (Or.inr hright))

theorem queued_step (hp : Handed guard source Live p)
    (hstep : (service cron cfg).Step p label q)
    (hlive : ∀ w id before, w.jobState id = some before → guard = [] ∨ before ∈ guard →
      Live w id)
    {id : String} (hqueued : q.state.jobState id = some .queued) :
    Outstanding p id ∧ ¬ DropsMessage id p.state label := by
  have hdrops : ¬ DropsMessage id p.state label := by
    intro hdrops
    obtain ⟨state, hstate, hskipped⟩ := skipped_of_drops hstep hdrops
    obtain rfl := Option.some.inj (hqueued.symm.trans hstate)
    exact absurd hskipped Bool.noConfusion
  refine ⟨?_, hdrops⟩
  cases hstep with
  | start hstart =>
      refine hp.covered id ?_
      rw [← hqueued, jobState_start hstart]
  | @finish w left right task value d =>
      refine hp.covered id ?_
      rw [← hqueued, jobState_finish]
  | @advance w left right task c next d hallowed =>
      have hready := hp.ready ⟨task, .call c next⟩
        (List.mem_append_cons_self)
      rcases jobState_step c w d id with hsame | ⟨job, rfl, -, hcreated⟩ |
        ⟨state, fields, onlyFrom, before, rfl, hbefore, hguard, hwritten⟩
      · exact hp.covered id (hsame.symm.trans hqueued)
      · have hstate := Option.some.inj (hcreated.symm.trans hqueued)
        rcases hready with ⟨hfollows, -⟩ | ⟨-, _, hfollows, -⟩
        · exact absurd hstate hfollows.1
        · exact hfollows.1.elim
      · obtain rfl := Option.some.inj (hwritten.symm.trans hqueued)
        rcases hready with ⟨hfollows, -⟩ | ⟨-, _, hfollows, houtstanding⟩
        · exact absurd rfl hfollows.1.1
        · obtain ⟨rfl, -, rfl⟩ := hfollows.1
          exact houtstanding (hlive w id before hbefore hguard)

theorem handed_step (hp : Handed guard source Live p)
    (hstep : (service cron cfg).Step p label q)
    (hlive : ∀ w id before, w.jobState id = some before → guard = [] ∨ before ∈ guard →
      Live w id)
    (hstarted : ∀ task, label = .started task →
      (Task.body cron cfg task).Follows (handoff guard) released none ∧
        (source task ∨ (Task.body cron cfg task).CallsOnly NoEnqueue))
    (hkeep : ∀ thread ∈ p.threads, source thread.task → ∀ id, OwesQueuedWrite id thread →
      (Live p.state id → Outstanding p id) → Live q.state id → Outstanding q id) :
    Handed guard source Live q where
  opened := opened_step hp.opened hstep
  ready := ready_step hp hstep (fun task htask => Or.inl (hstarted task htask)) hkeep
  covered := by
    intro id hqueued
    obtain ⟨houtstanding, hdrops⟩ := queued_step hp hstep hlive hqueued
    exact (outstanding_step hp.opened hstep houtstanding).resolve_right hdrops

end Step

def startsOnly (source : Task → Bool) : TaskLabel → Bool
  | .started (.handleQueuedJob _) | .started (.handleResult _ _ _ _ _) => true
  | .started task => source task
  | _ => true

def isCreate : Task → Bool
  | .createJob _ => true
  | _ => false

def isPromote : Task → Bool
  | .promoteDueJobs => true
  | _ => false

theorem handleQueuedJob_noEnqueue (message : QueuedJob) :
    (Task.body cron cfg (.handleQueuedJob message)).CallsOnly NoEnqueue := by
  refine callsOnly_bind (callsOnly_mono (handleQueuedJob_calls message) ?_) fun _ => trivial
  rintro c hc job rfl
  exact hc

theorem handleResult_noEnqueue (jobID executionID workerID : String) (attempt : Int)
    (result : ExecutionResult) :
    (Task.body cron cfg (.handleResult jobID executionID workerID attempt result)).CallsOnly
      NoEnqueue := by
  refine callsOnly_bind (callsOnly_mono
    (handleResult_calls cron jobID executionID workerID attempt result) ?_) fun _ => trivial
  rintro c hc job rfl
  exact hc

theorem started_ready {guard : List JobState} {source : Task → Bool} {task : Task}
    (hstarts : startsOnly source (.started task))
    (hsource : source task → (Task.body cron cfg task).Follows (handoff guard) released none) :
    (Task.body cron cfg task).Follows (handoff guard) released none ∧
      (source task ∨ (Task.body cron cfg task).CallsOnly NoEnqueue) := by
  cases task with
  | handleQueuedJob message =>
      exact ⟨handleQueuedJob_follows cron cfg guard message,
        Or.inr (handleQueuedJob_noEnqueue message)⟩
  | handleResult jobID executionID workerID attempt result =>
      exact ⟨handleResult_follows cron cfg guard jobID executionID workerID attempt result,
        Or.inr (handleResult_noEnqueue jobID executionID workerID attempt result)⟩
  | _ => exact ⟨hsource hstarts, Or.inl hstarts⟩

theorem handed_start {guard : List JobState} {source : Task → Bool}
    {Live : World → String → Prop} {w : World} (hopen : w.queue.closed = false)
    (hcovered : ∀ id, w.jobState id = some .queued →
      ∃ message ∈ w.queue.items, message.jobID = id) :
    Handed guard source Live ⟨w, []⟩ where
  opened := hopen
  ready := fun _ hthread => absurd hthread List.not_mem_nil
  covered := fun id hqueued => Or.inl (hcovered id hqueued)

theorem message_of_outstanding {p : TaskPool} {id : String} (hp : Outstanding p id) :
    InQueue p id ∨ InHand p id := by
  refine hp.imp_right ?_
  rintro ⟨thread, hthread, message, htask, hid, -⟩
  exact ⟨thread, hthread, message, htask, hid⟩

end Chronos.QueueHandoff
