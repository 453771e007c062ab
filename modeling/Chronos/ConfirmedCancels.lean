import Chronos.SlotAccounting
import Chronos.StuckCancels
import Chronos.TerminalFinality
import Chronos.Watchdog

namespace Chronos.ConfirmedCancels

open Chronos.ApiServer
open Chronos.Domain
open Chronos.Library.CallMachine
open Chronos.Library.CallProgram
open Chronos.Library.Histories
open Chronos.Library.KeyedTable
open Chronos.MemoryStore
open Chronos.Operations
open Chronos.SchedulerCalls
open Chronos.SchedulerRuns
open Chronos.SchedulerService
open Chronos.SharedState
open Chronos.SlotAccounting (createJob_untouched)
open Chronos.StuckCancels
open Chronos.TerminalFinality (createJob_keeps ensures_others)
open Chronos.Watchdog (snapshot_timedOut watchdogTimeouts_pass)
open Chronos.WorkerLoss (Marks active active_cases checkWorkers_recovers)
open Chronos.WorkerRegistry

/-- What the clients, the scheduler and the workers can do. -/
inductive Operation
  | task (task : Task) (ds : List Draw)
  | register (req : RegisterRequest) (r : Reception)
  | heartbeat (req : HeartbeatRequest) (r : Reception)
  | deregister (req : DeregisterRequest) (r : Reception)
  | restart

variable (auth : Authenticator) (cron : Cron) (cfg : SchedulerConfig) in
/-- The operations one after another, each from its start to its end. -/
inductive Step : World → Operation → World → Prop
  | task {task : Task} {ds : List Draw} {outcome : Outcome} {w w' : World}
      (hrun : (steady fun _ => True).Runs (task.body cron cfg) w ds outcome w') :
      Step w (.task task ds) w'
  | register (w : World) (req : RegisterRequest) (r : Reception) :
      Step w (.register req r) (receiveRegister auth w req r).2
  | heartbeat (w : World) (req : HeartbeatRequest) (r : Reception) :
      Step w (.heartbeat req r) (receiveHeartbeat auth w req r).2
  | deregister (w : World) (req : DeregisterRequest) (r : Reception) :
      Step w (.deregister req r) (receiveDeregister auth w req r).2
  | restart (w : World) : Step w .restart { w with registry := .new }

abbrev History := List (Entry World Operation)

/-- The executions that `HandleResult` is called for: the one of a report, and those of the
jobs that the watchdog finds overdue. -/
def reported (cfg : SchedulerConfig) (w : World) : Operation → List String
  | .task (.handleResult _ executionID _ _ _) _ => [executionID]
  | .task .watchdogTimeouts (d :: d' :: _) =>
      (w.store.listTimedOutRunning d'.order d.now cfg.assignBatchSize).map Job.executionID
  | _ => []

def unavailable (w : World) (workerID : String) : Bool :=
  (w.store.workers.get? workerID).any fun worker => worker.status == .unavailable

/-- After the worker has accepted the execution, `HandleResult` is called for the execution
or the worker is marked UNAVAILABLE. -/
def Confirmed (cfg : SchedulerConfig) (history : History) (a : Accepted) : Prop :=
  ∃ entry ∈ history, a ∈ entry.before.accepted ∧
    (a.request.executionID ∈ reported cfg entry.before entry.label ∨
      unavailable entry.before a.workerID = false ∧ unavailable entry.after a.workerID)

/-- A worker has accepted the current execution of the job. -/
def OnWorker (w : World) (job : Job) : Prop :=
  ∃ a ∈ w.accepted, a.request.jobID = job.id ∧ a.request.executionID = job.executionID

/-- The operation respects an execution that a worker has: no second `cancelJob`, no create
request that queues the job again, no report of another execution, and no worker without an
id. -/
def Respects (w : World) : Operation → Prop
  | .task (.cancelJob id) _ =>
      ∀ job ∈ w.store.jobs.get? id, OnWorker w job → job.state ≠ .cancelRequested
  | .task (.createJob (some req)) ds => req.idempotencyKey ≠ "" →
      ∀ id ∈ w.store.byIdem.lookup req.idempotencyKey, ∀ job ∈ w.store.jobs.get? id,
        OnWorker w job → active job.state → ∀ d ∈ ds[1]?, jobDue job d.now = false
  | .task (.handleResult jobID executionID _ _ _) _ =>
      ∀ job ∈ w.store.jobs.get? jobID, OnWorker w job → active job.state →
        executionID = job.executionID
  | .task .pushPendingCancels _ =>
      ∀ id ∈ w.store.jobs.keys, ∀ job ∈ w.store.jobs.get? id, OnWorker w job →
        job.state = .cancelRequested → job.workerID ≠ ""
  | _ => True

/-- The execution is the current one of its job, which is still active. -/
def Current (w : World) (a : Accepted) : Prop :=
  ∃ job, w.store.jobs.get? a.request.jobID = some job ∧ active job.state ∧
    job.executionID = a.request.executionID ∧ job.workerID = a.workerID

section Pushes

variable {cron : Cron} {cfg : SchedulerConfig} {task : Task} {w : World}

abbrev Pushless {α : Type} (p : Prog α) : Prop :=
  p.CallsOnly fun c => ∀ workerID request, c ≠ .executeJob workerID request

theorem pushless_of_calls {α : Type} {p : Prog α} {allowed : Call → Prop}
    (hp : p.CallsOnly allowed)
    (hpush : ∀ workerID request, ¬allowed (.executeJob workerID request)) : Pushless p := by
  refine callsOnly_mono hp ?_
  rintro _ hc workerID request rfl
  exact hpush workerID request hc

theorem routine_not_push (workerID : String) (request : ExecuteJobRequest) :
    ¬routine (.executeJob workerID request) := Bool.false_ne_true

/-- Only `handleQueuedJob` pushes. -/
theorem body_pushless (cron : Cron) (cfg : SchedulerConfig)
    (htask : ∀ message, task ≠ .handleQueuedJob message) : Pushless (task.body cron cfg) := by
  cases task with
  | createJob body =>
      refine callsOnly_bind (pushless_of_calls (createJob_untouched cron body) ?_)
        fun _ => trivial
      exact fun _ _ h => Bool.noConfusion h
  | cancelJob id =>
      exact pushless_of_calls (LostCancellation.cancelJob_calls cron cfg id) fun _ _ h => h
  | promoteDueJobs =>
      exact callsOnly_bind (pushless_of_calls (promoteDueJobs_routine cfg) routine_not_push)
        fun _ => trivial
  | handleQueuedJob message => exact absurd rfl (htask message)
  | handleResult jobID executionID workerID attempt result =>
      exact callsOnly_bind (pushless_of_calls (handleResult_calls cron jobID executionID workerID
        attempt result) fun _ _ h => h) fun _ => trivial
  | pushPendingCancels =>
      exact callsOnly_bind (pushless_of_calls (pushPendingCancels_routine cfg) routine_not_push)
        fun _ => trivial
  | watchdogTimeouts =>
      exact callsOnly_bind (pushless_of_calls (watchdogTimeouts_routine cron cfg)
        routine_not_push) fun _ => trivial
  | checkWorkers =>
      refine callsOnly_bind ((callsOnly_perform ..).mpr ⟨fun _ _ => Call.noConfusion,
        fun marked => ?_⟩) fun _ => trivial
      cases marked with
      | error e => trivial
      | ok marked =>
          refine callsOnly_bind (callsOnly_forEach fun id _ => ?_) fun _ => trivial
          exact pushless_of_calls (dropWorker_routine id) routine_not_push

theorem accepted_of_pushless {α : Type} {p : Prog α} (hp : Pushless p) (w : World) :
    (steady fun _ => True).Ensures p w fun _ w' => w'.accepted = w.accepted := by
  refine ensures_of_calls ?_ hp rfl
  intro c w₁ d hc _ hw₁
  rw [steady_step, accepted_step hc, hw₁]

theorem mem_acceptedPush {workerID : String} {request : ExecuteJobRequest}
    {reply : Except Err (Option ExecuteJobResponse)} {a : Accepted}
    (ha : a ∈ (acceptedPush w workerID request reply).accepted) :
    a ∈ w.accepted ∨ a = ⟨workerID, request⟩ := by
  unfold acceptedPush at ha
  split at ha
  · split at ha
    · exact (List.mem_append.mp ha).imp_right List.mem_singleton.mp
    · exact Or.inl ha
  · exact Or.inl ha

/-- What the push gets a worker to accept is the current execution of the job. -/
theorem pushJob_current {message : QueuedJob} (wc : WorkerConn) (executionID : String)
    (now : Time) {job : Job} (hjob : w.store.jobs.get? message.jobID = some job)
    (hactive : active job.state) (hexecution : job.executionID = executionID)
    (hworker : job.workerID = wc.info.id) :
    (steady fun _ => True).Ensures (pushJob message wc executionID now) w fun _ w' =>
      ∀ a ∈ w'.accepted, a ∈ w.accepted ∨ Current w' a := by
  refine ensures_perform fun d _ => ?_
  simp only [steady_step, step]
  generalize hw₁ : acceptedPush w wc.info.id (executeJobRequest message executionID) d.reply = w₁
  have hjob₁ : w₁.store.jobs.get? message.jobID = some job := by
    rw [← hw₁, acceptedPush_store, hjob]
  have hnew : ∀ a ∈ w₁.accepted,
      a ∈ w.accepted ∨ a = ⟨wc.info.id, executeJobRequest message executionID⟩ := by
    rw [← hw₁]
    exact fun a ha => mem_acceptedPush ha
  split
  · refine ensures_ret fun a ha => (hnew a ha).imp_right ?_
    rintro rfl
    exact ⟨job, hjob₁, hactive, hexecution, hworker⟩
  · refine ensures_perform fun d' hd' => ?_
    simp only [steady_step, step, guarded_of_none (hd'.2.1 rfl),
      updateJobStateIf_of_some hjob₁ .running { startedAt := some now } (Or.inl rfl)]
    refine ensures_perform fun d₁ _ => ensures_perform fun d₂ _ => ensures_ret fun a ha => ?_
    simp only [steady_step] at ha ⊢
    rw [accepted_step (fun _ _ => Call.noConfusion), accepted_step (fun _ _ => Call.noConfusion)]
      at ha
    refine (hnew a ha).imp_right ?_
    rintro rfl
    refine ⟨applyUpdate job .running { startedAt := some now } d'.now, ?_, rfl, hexecution, hworker⟩
    rw [(quiet_step rfl _ _).1, (quiet_step rfl _ _).1]
    exact get?_put_applyUpdate hjob₁ _ _ _

theorem assignJob_current {message : QueuedJob} (wc : WorkerConn) {job : Job}
    (hjob : w.store.jobs.get? message.jobID = some job) :
    (steady fun _ => True).Ensures (assignJob message wc) w fun _ w' =>
      ∀ a ∈ w'.accepted, a ∈ w.accepted ∨ Current w' a := by
  refine ensures_perform fun d _ => ensures_perform fun d₁ hd₁ => ?_
  simp only [steady_step, step, guarded_of_none (hd₁.2.1 rfl)]
  refine ensures_perform fun d₂ _ => ensures_perform fun d₃ hd₃ => ?_
  simp only [steady_step, step, guarded_of_none (hd₃.2.1 rfl)]
  rw [updateJobStateIf_of_some (s := Store.createExecution ..) hjob .assigned _ (Or.inl rfl)]
  refine ensures_perform fun d₄ _ => ?_
  let assigned := applyUpdate job .assigned
    { workerID := some wc.info.id, executionID := some d.uuid,
      attempt := some (message.attempt + 1) } d₃.now
  rw [steady_step]
  generalize hw₁ : (step (.emit _) _ d₄).2 = w₁
  have hjob₁ : w₁.store.jobs.get? message.jobID = some assigned := by
    rw [← hw₁, (quiet_step rfl _ _).1]
    exact get?_put_applyUpdate hjob _ _ _
  have haccepted : w₁.accepted = w.accepted := by
    rw [← hw₁]
    exact accepted_step (fun _ _ => Call.noConfusion) _ _
  rw [← haccepted]
  exact pushJob_current wc d.uuid d₂.now hjob₁ rfl rfl rfl

theorem handleQueuedJob_current (message : QueuedJob) (w : World) :
    (steady fun _ => True).Ensures (handleQueuedJob message) w fun _ w' =>
      ∀ a ∈ w'.accepted, a ∈ w.accepted ∨ Current w' a := by
  have hstore : ∀ {w c d}, (steady fun _ => True).Allowed w c d → c.ofStore → d.fault = none :=
    fun hd => hd.2.1
  exact handleQueuedJob_rule rfl hstore (fun _ _ ha => Or.inl ha)
    fun wc _ hjob _ => assignJob_current wc hjob

end Pushes

section Jobs

variable {cron : Cron} {cfg : SchedulerConfig} {task : Task} {ds : List Draw}
  {outcome : Outcome} {w w' : World} {a : Accepted} {id : String} {job : Job}

theorem queueable_of_active (hactive : active job.state) : job.state.queueable = false := by
  cases hstate : job.state <;> simp_all [active, JobState.queueable]

theorem handleQueuedJob_spares (message : QueuedJob) (hjob : w.store.jobs.get? id = some job)
    (hactive : active job.state) :
    (steady fun _ => True).Ensures (handleQueuedJob message) w fun _ w' =>
      w'.store.jobs.get? id = some job := by
  refine ensures_mono (handleQueuedJob_ensures message w) ?_
  rintro _ w' (⟨hsame, -⟩ | ⟨old, job', ex, hdispatch, -⟩)
  · rw [hsame, hjob]
  · rw [hdispatch.jobs, get?_put_of_ne, hjob]
    rintro rfl
    have hstored := hdispatch.stored
    rw [hdispatch.id, key_of_get? hstored, hstored] at hjob
    obtain rfl := Option.some.inj hjob
    exact absurd hdispatch.queueable (by rw [queueable_of_active hactive]; decide)

/-- A job on a worker is only marked by the first `cancelJob`. -/
theorem cancelJob_requests (hjob : w.store.jobs.get? id = some job)
    (hstate : job.state = .running ∨ job.state = .assigned) :
    (steady fun _ => True).Ensures (cancelJob id) w fun _ w' =>
      ∃ now, w'.store.jobs.get? id = some (applyUpdate job .cancelRequested {} now) := by
  have hopen : cancelRefused job.state = false := by
    rcases hstate with hstate | hstate <;> rw [hstate] <;> rfl
  refine ensures_perform fun d hd => ?_
  simp only [steady_step, step, guarded_of_none (hd.2.1 rfl), getJob_of_some hjob, hopen,
    Bool.false_eq_true, if_false, if_pos hstate]
  refine ensures_perform fun d₁ hd₁ => ensures_perform fun d₂ _ => ensures_ret ⟨d₁.now, ?_⟩
  simp only [steady_step]
  rw [(quiet_step rfl _ _).1]
  simp only [step, guarded_of_none (hd₁.2.1 rfl),
    updateJobStateIf_of_some hjob .cancelRequested {} (Or.inl rfl)]
  exact get?_put_applyUpdate hjob _ _ _

/-- A pass that marks the worker leaves it UNAVAILABLE. -/
theorem checkWorkers_unavailable {d : Draw} {result : Except Err Unit} {workerID : String}
    (hrun : (steady fun _ => True).Runs (checkWorkers cfg) w (d :: ds) result w')
    (hmarks : Marks cfg w d.now workerID) :
    unavailable w workerID = false ∧ unavailable w' workerID := by
  obtain ⟨worker, hworker, hlost⟩ := hmarks
  refine ⟨?_, ?_⟩
  · rcases hlost.2 with hstatus | hstatus <;> simp [unavailable, hworker, hstatus]
  · obtain ⟨d, ds, ⟨⟩, hallowed, hrun⟩ := runs_perform_iff.mp hrun
    simp only [steady_step, step, guarded_of_none (hallowed.2.1 rfl)] at hrun
    obtain ⟨loop, rest, value, w₁, rfl, hloop, hret⟩ := runs_bind_iff.mp hrun
    obtain ⟨-, -, rfl⟩ := runs_ret_iff.mp hret
    rw [unavailable, workers_routine (callsOnly_forEach fun id _ => dropWorker_routine id) _ _ _ _
      hloop, get?_marked _ _ _ hallowed.1, hworker]
    simp [markStale, hlost]

theorem ensures_task {α : Type} {p : Prog α} {f : α → Outcome} {Q : World → Prop}
    (hp : (steady fun _ => True).Ensures p w fun _ w' => Q w')
    (hrun : (steady fun _ => True).Runs (p >>= fun value => pure (f value)) w ds outcome w') :
    Q w' :=
  ensures_return hp ds outcome w' hrun

/-- One operation on a job whose execution a worker has: the execution stays current, or it
is reported, or its worker is lost. -/
theorem task_confirms (hrun : (steady fun _ => True).Runs (task.body cron cfg) w ds outcome w')
    (hrespects : Respects w (.task task ds)) (ha : a ∈ w.accepted) (hcurrent : Current w a) :
    Current w' a ∨ a.request.executionID ∈ reported cfg w (.task task ds) ∨
      unavailable w a.workerID = false ∧ unavailable w' a.workerID := by
  obtain ⟨job, hjob, hactive, hexecution, hworker⟩ := hcurrent
  have honWorker : OnWorker w job := ⟨a, ha, (key_of_get? hjob).symm, hexecution.symm⟩
  have hkept (hsame : w'.store.jobs.get? a.request.jobID = some job) : Current w' a :=
    ⟨job, hsame, hactive, hexecution, hworker⟩
  cases task with
  | createJob body =>
      refine Or.inl (hkept ?_)
      obtain ⟨first, rest, response, t, rfl, hrun, hret⟩ := runs_bind_iff.mp hrun
      obtain ⟨rfl, -, rfl⟩ := runs_ret_iff.mp hret
      rw [List.append_nil] at hrespects
      cases body with
      | none =>
          obtain ⟨-, -, rfl⟩ := runs_ret_iff.mp hrun
          exact hjob
      | some req =>
          refine createJob_keeps hjob (fun hnonempty hlookup => ?_) hrun
          exact hrespects hnonempty _ hlookup job hjob honWorker hactive
  | cancelJob target =>
      refine Or.inl ?_
      by_cases hid : a.request.jobID = target
      · subst hid
        have hstate : job.state = .running ∨ job.state = .assigned :=
          (active_cases hactive).imp_right fun h => h.resolve_right (hrespects job hjob honWorker)
        obtain ⟨now, hrequested⟩ := ensures_task (cancelJob_requests hjob hstate) hrun
        exact ⟨_, hrequested, rfl, hexecution, hworker⟩
      · refine hkept ?_
        rw [ensures_task (ensures_others (TerminalFinality.cancelJob_calls target) hid w) hrun,
          hjob]
  | promoteDueJobs =>
      refine Or.inl (hkept (kept_informed cron cfg .promoteDueJobs ?_ hjob _ _ _ hrun))
      rintro state fields onlyFrom ⟨-, hwaiting, -⟩
      rcases hwaiting with hstate | hstate <;> rw [hstate] at hactive <;> cases hactive
  | handleQueuedJob message =>
      exact Or.inl (hkept (ensures_task (handleQueuedJob_spares message hjob hactive) hrun))
  | handleResult jobID executionID workerID attempt result =>
      by_cases hid : a.request.jobID = jobID
      · subst hid
        refine Or.inr (Or.inl (List.mem_singleton.mpr ?_))
        rw [hrespects job hjob honWorker hactive, hexecution]
      · refine Or.inl (hkept (kept_informed cron cfg
          (.handleResult jobID executionID workerID attempt result) ?_ hjob _ _ _ hrun))
        exact fun _ _ _ hwrites => hid hwrites.1
  | pushPendingCancels =>
      refine Or.inl (hkept ?_)
      by_cases hstate : job.state = .cancelRequested
      · have hnonempty := hrespects _ (mem_keys.mpr ⟨job, hjob⟩) job hjob honWorker hstate
        exact ensures_task (pushPendingCancels_keeps hnonempty hjob) hrun
      · refine kept_informed cron cfg .pushPendingCancels ?_ hjob _ _ _ hrun
        exact fun _ _ _ hwrites => hstate hwrites.1
  | watchdogTimeouts =>
      obtain ⟨first, rest, value, w₁, rfl, hrun, hret⟩ := runs_bind_iff.mp hrun
      obtain ⟨-, -, rfl⟩ := runs_ret_iff.mp hret
      obtain ⟨d, d', ds, rfl, horder, htimesOut⟩ := watchdogTimeouts_pass hrun
      by_cases hlisted : job ∈ w.store.listTimedOutRunning d'.order d.now cfg.assignBatchSize
      · exact Or.inr (Or.inl (hexecution ▸ List.mem_map_of_mem hlisted))
      · refine Or.inl (hkept ?_)
        rw [htimesOut.others _ fun hid => ?_, hjob]
        obtain ⟨other, hother, hsame⟩ := List.mem_map.mp hid
        have hstored := (snapshot_timedOut horder d.now cfg.assignBatchSize).stored other hother
        rw [hsame, hjob] at hstored
        exact hlisted (Option.some.inj hstored ▸ hother)
  | checkWorkers =>
      obtain ⟨first, rest, value, w₁, rfl, hrun, hret⟩ := runs_bind_iff.mp hrun
      obtain ⟨-, -, rfl⟩ := runs_ret_iff.mp hret
      obtain ⟨d, ds, rfl, -⟩ := runs_perform_iff.mp hrun
      rcases checkWorkers_recovers hrun hjob with hsame | ⟨hmarks, -, -⟩
      · exact Or.inl (hkept hsame)
      · rw [hworker] at hmarks
        exact Or.inr (Or.inr (checkWorkers_unavailable hrun hmarks))

end Jobs

section Runs

variable {auth : Authenticator} {cron : Cron} {cfg : SchedulerConfig} {w w' : World}
  {operation : Operation} {history : History} {a : Accepted}

theorem emitFor_frame (w : World) (eventType : EventType) (workerID : String) (r : Reception) :
    (emitFor w eventType workerID r).store = w.store ∧
      (emitFor w eventType workerID r).accepted = w.accepted := by
  unfold emitFor
  split <;> exact ⟨rfl, rfl⟩

theorem registerWorker_frame (w : World) (worker : Worker) (r : Reception) :
    (registerWorker w worker r).2.store.jobs = w.store.jobs ∧
      (registerWorker w worker r).2.accepted = w.accepted := by
  unfold registerWorker
  cases r.upsertFault with
  | some e => exact ⟨rfl, rfl⟩
  | none =>
      cases r.dialFault with
      | some e => exact ⟨rfl, rfl⟩
      | none =>
          dsimp only
          rw [(emitFor_frame _ _ _ _).1, (emitFor_frame _ _ _ _).2]
          exact ⟨rfl, rfl⟩

theorem heartbeat_frame (w : World) (workerID : String) (activeJobs capacity : Int)
    (r : Reception) :
    (heartbeat w workerID activeJobs capacity r).2.store.jobs = w.store.jobs ∧
      (heartbeat w workerID activeJobs capacity r).2.accepted = w.accepted := by
  unfold heartbeat
  cases w.registry.workers.get? workerID with
  | none => exact ⟨rfl, rfl⟩
  | some wc => cases r.upsertFault <;> exact ⟨rfl, rfl⟩

/-- The requests of the workers and a restart touch no job. -/
theorem worker_frame (hstep : Step auth cron cfg w operation w')
    (hworker : ∀ task ds, operation ≠ .task task ds) :
    w'.store.jobs = w.store.jobs ∧ w'.accepted = w.accepted := by
  cases hstep with
  | task hrun => exact absurd rfl (hworker _ _)
  | register _ req r =>
      unfold receiveRegister
      split
      · have hframe := registerWorker_frame w
          { id := req.workerID, address := req.address, capacity := req.capacity } r
        split <;> rename_i heq <;> rwa [heq] at hframe
      · exact ⟨rfl, rfl⟩
  | heartbeat _ req r =>
      unfold receiveHeartbeat
      split
      · have hframe := heartbeat_frame w req.workerID req.activeJobs req.capacity r
        split <;> rename_i heq <;> rwa [heq] at hframe
      · exact ⟨rfl, rfl⟩
  | deregister _ req r =>
      unfold receiveDeregister deregister
      split
      · exact ⟨congrArg Store.jobs (emitFor_frame _ _ _ _).1, (emitFor_frame _ _ _ _).2⟩
      · exact ⟨rfl, rfl⟩
  | restart => exact ⟨rfl, rfl⟩

/-- What a worker accepts in a step is the current execution of its job. -/
theorem accepted_current (hstep : Step auth cron cfg w operation w') (ha : a ∈ w'.accepted) :
    a ∈ w.accepted ∨ Current w' a := by
  by_cases htask : ∃ task ds, operation = .task task ds
  · obtain ⟨task, ds, rfl⟩ := htask
    cases hstep with
    | task hrun =>
        by_cases hhandler : ∃ message, task = .handleQueuedJob message
        · obtain ⟨message, rfl⟩ := hhandler
          exact ensures_task (handleQueuedJob_current message w) hrun a ha
        · rw [not_exists] at hhandler
          rw [accepted_of_pushless (body_pushless cron cfg hhandler) w _ _ _ hrun] at ha
          exact Or.inl ha
  · simp only [not_exists] at htask
    rw [(worker_frame hstep htask).2] at ha
    exact Or.inl ha

/-- Every execution that a worker has accepted is confirmed or current. -/
def Accounted (cfg : SchedulerConfig) (history : History) (w : World) : Prop :=
  ∀ a ∈ w.accepted, Confirmed cfg history a ∨ Current w a

theorem confirmed_cons {entry : Entry World Operation} (h : Confirmed cfg history a) :
    Confirmed cfg (entry :: history) a := by
  obtain ⟨earlier, hmem, hconfirmed⟩ := h
  exact ⟨earlier, List.mem_cons_of_mem _ hmem, hconfirmed⟩

theorem accounted_step (haccounted : Accounted cfg history w)
    (hstep : Step auth cron cfg w operation w') (hrespects : Respects w operation) :
    Accounted cfg (⟨w, operation, w'⟩ :: history) w' := by
  intro a ha
  rcases accepted_current hstep ha with hold | hcurrent
  · rcases haccounted a hold with hconfirmed | hcurrent
    · exact Or.inl (confirmed_cons hconfirmed)
    · by_cases htask : ∃ task ds, operation = .task task ds
      · obtain ⟨task, ds, rfl⟩ := htask
        cases hstep with
        | task hrun =>
            rcases task_confirms hrun hrespects hold hcurrent with hcurrent | hconfirmed
            · exact Or.inr hcurrent
            · exact Or.inl ⟨_, List.mem_cons_self, hold, hconfirmed⟩
      · simp only [not_exists] at htask
        obtain ⟨job, hjob, hcurrent⟩ := hcurrent
        exact Or.inr ⟨job, by rw [(worker_frame hstep htask).1, hjob], hcurrent⟩
  · exact Or.inr hcurrent

/-- In every run of operations that respect the executions on the workers, a job is CANCELLED
only after each execution of it that a worker has accepted is reported or its worker lost. -/
theorem cancelled_means_confirmed {start : World} (hstart : start.accepted = [])
    (hrun : Run (Step auth cron cfg) start history w)
    (hrespects : ∀ entry ∈ history, Respects entry.before entry.label)
    (ha : a ∈ w.accepted) (hcancelled : w.jobState a.request.jobID = some .cancelled) :
    Confirmed cfg history a := by
  have haccounted : Accounted cfg history w := by
    refine run_invariant (P := fun entry => Respects entry.before entry.label)
      (I := Accounted cfg) ?_ accounted_step hrun hrespects
    intro a ha
    rw [hstart] at ha
    cases ha
  refine (haccounted a ha).resolve_right ?_
  rintro ⟨job, hjob, hactive, -⟩
  rw [World.jobState, hjob, Option.map_some, Option.some.injEq] at hcancelled
  rw [hcancelled] at hactive
  cases hactive

end Runs

section Scenarios

instance (w : World) (job : Job) : Decidable (OnWorker w job) :=
  inferInstanceAs (Decidable (∃ a ∈ w.accepted, _))

instance (cfg : SchedulerConfig) (history : History) (a : Accepted) :
    Decidable (Confirmed cfg history a) :=
  inferInstanceAs (Decidable (∃ entry ∈ history, _))

theorem task_of_get {auth : Authenticator} {cron : Cron} {cfg : SchedulerConfig} {task : Task}
    {ds : List Draw} {w : World}
    (hperform : (perform cron cfg (steady fun _ => True) task ds w).isSome) :
    Step auth cron cfg w (.task task ds)
      ((perform cron cfg (steady fun _ => True) task ds w).get hperform) := by
  obtain ⟨outcome, hrun⟩ := runs_of_perform cron cfg hperform
  exact .task hrun

abbrev smallRun := Run (Step oneToken utcOnly smallConfig) .empty

def registered : World := (receiveRegister oneToken .empty joins {}).2

def created : World :=
  (perform utcOnly smallConfig (steady fun _ => True) (.createJob (some echoRequest))
    (createDraws 1 "job") registered).get (by decide +kernel)

def running : World :=
  (perform utcOnly smallConfig (steady fun _ => True) (.handleQueuedJob echoMessage)
    (handleDraws 2 "first") created).get (by decide +kernel)

def requested : World :=
  (perform utcOnly smallConfig (steady fun _ => True) (.cancelJob "job") (sweepDraws 3 3)
    running).get (by decide +kernel)

/-- A worker registers, it accepts a job, and a client cancels the job. -/
def untilRequested : History :=
  [⟨running, .task (.cancelJob "job") (sweepDraws 3 3), requested⟩,
    ⟨created, .task (.handleQueuedJob echoMessage) (handleDraws 2 "first"), running⟩,
    ⟨registered, .task (.createJob (some echoRequest)) (createDraws 1 "job"), created⟩,
    ⟨.empty, .register joins {}, registered⟩]

theorem untilRequested_runs : smallRun untilRequested requested :=
  .next (.next (.next (.next .start (.register ..)) (task_of_get _)) (task_of_get _))
    (task_of_get _)

/-- The client cancels the RUNNING job a second time.  No worker has heard of it yet, and the
job is CANCELLED. -/
theorem second_cancel_unconfirmed :
    ∃ ds w a, running.jobState "job" = some .running ∧ a ∈ w.accepted ∧ a.request.jobID = "job" ∧
      let history := ⟨requested, .task (.cancelJob "job") ds, w⟩ :: untilRequested
      smallRun history w ∧ w.jobState "job" = some .cancelled ∧
        ¬Confirmed smallConfig history a := by
  let w := (perform utcOnly smallConfig (steady fun _ => True) (.cancelJob "job")
    (sweepDraws 4 4) requested).get (by decide +kernel)
  refine ⟨sweepDraws 4 4, w, running.accepted.head (by decide +kernel), by decide +kernel,
    by decide +kernel, by decide +kernel, .next untilRequested_runs (task_of_get _), ?_, ?_⟩
  · decide +kernel
  · decide +kernel

def stopped : ExecutionResult := { success := false, reason := .cancelled }

theorem reported_cancel_confirmed :
    ∃ ds w a, a ∈ w.accepted ∧ w.jobState a.request.jobID = some .cancelled ∧
      Confirmed smallConfig (⟨requested, .task (.handleResult "job" "first" "worker" 1 stopped) ds,
        w⟩ :: untilRequested) a := by
  let w := (perform utcOnly smallConfig (steady fun _ => True)
    (.handleResult "job" "first" "worker" 1 stopped) (sweepDraws 7 5) requested).get
    (by decide +kernel)
  let a := running.accepted.head (by decide +kernel)
  have ha : a ∈ w.accepted := by decide +kernel
  have hcancelled : w.jobState a.request.jobID = some .cancelled := by decide +kernel
  refine ⟨sweepDraws 7 5, w, a, ha, hcancelled, cancelled_means_confirmed rfl
    (.next untilRequested_runs (task_of_get _)) ?_ ha hcancelled⟩
  have hreport : ∀ job ∈ requested.store.jobs.get? "job", OnWorker requested job →
      active job.state → "first" = job.executionID := by decide +kernel
  have hcancel : ∀ job ∈ running.store.jobs.get? "job", OnWorker running job →
      job.state ≠ .cancelRequested := by decide +kernel
  simp only [untilRequested, List.forall_mem_cons]
  exact ⟨hreport, hcancel, trivial, fun hkey => absurd rfl hkey, trivial,
    fun _ h => absurd h List.not_mem_nil⟩

end Scenarios

end Chronos.ConfirmedCancels
