import Chronos.ClientCancels
import Chronos.ConfirmedCancels

namespace Chronos.CancelDelivery

open Chronos.ApiServer (createJob_callsOnly)
open Chronos.ClientCancels
open Chronos.ConfirmedCancels (created emitFor_frame ensures_task heartbeat_frame registered
  registerWorker_frame requested running)
open Chronos.Domain
open Chronos.InformedRuns
open Chronos.JobWrites
open Chronos.Library.CallMachine
open Chronos.Library.CallProgram
open Chronos.Library.Histories
open Chronos.Library.KeyedTable
open Chronos.LostCancellation (cancelJob_calls)
open Chronos.MemoryStore
open Chronos.Operations
open Chronos.ResultRecords
open Chronos.SchedulerCalls
open Chronos.SchedulerService
open Chronos.SharedState
open Chronos.StuckCancels
open Chronos.Watchdog (snapshot_timedOut)
open Chronos.WorkerLoss
open Chronos.WorkerRegistry

inductive Operation
  | task (task : Task) (ds : List Draw)
  | registerWorker (worker : Worker) (r : Reception)
  | heartbeat (workerID : String) (active capacity : Int) (r : Reception)
  | deregister (workerID : String) (r : Reception)

variable (cron : Cron) (cfg : SchedulerConfig) in
/-- The operations of the API, the scheduler and its registry, one after another, over a
store that does not fail. -/
inductive Step : World → Operation → World → Prop
  | task {task : Task} {ds : List Draw} {outcome : Outcome} {w w' : World}
      (hrun : (steady fun _ => True).Runs (task.body cron cfg) w ds outcome w') :
      Step w (.task task ds) w'
  | registerWorker (w : World) (worker : Worker) (r : Reception) :
      Step w (.registerWorker worker r) (registerWorker w worker r).2
  | heartbeat (w : World) (workerID : String) (active capacity : Int) (r : Reception) :
      Step w (.heartbeat workerID active capacity r)
        (heartbeat w workerID active capacity r).2
  | deregister (w : World) (workerID : String) (r : Reception) :
      Step w (.deregister workerID r) (deregister w workerID r)

abbrev History := List (Entry World Operation)

/-- No more jobs than the two listings take: that of `pushPendingCancels` and those of
`recoverWorkerJobs`. -/
def Few (cfg : SchedulerConfig) (w : World) : Prop :=
  (w.store.jobs.keys.card : Int) ≤ cfg.assignBatchSize ∧ w.store.jobs.keys.card ≤ 1000

/-- A `pushPendingCancels` of the history has left the job CANCEL_REQUESTED with this worker,
and CANCEL_REQUESTED it has been since. -/
def Requested (history : History) (workerID id : String) : Prop :=
  ∃ later push earlier ds job, history = later ++ push :: earlier ∧
    push.label = .task .pushPendingCancels ds ∧
    push.after.store.jobs.get? id = some job ∧ job.state = .cancelRequested ∧
    job.workerID = workerID ∧ workerID ≠ "" ∧
    ∀ entry ∈ later, entry.after.jobState id = some .cancelRequested

/-- A client has called `cancelJob` for the job. -/
def Called (history : History) (id : String) : Prop :=
  ∃ entry ∈ history, ∃ ds, entry.label = .task (.cancelJob id) ds

section Pending

variable {cron : Cron} {cfg : SchedulerConfig} {w : World} {workerID id : String} {job : Job}

abbrev Leaves {α : Type} (workerID id : String) (p : Prog α) : Prop :=
  p.CallsOnly (leavesPending workerID id)

theorem leaves_of_calls {α : Type} {p : Prog α} {allowed : Call → Prop}
    (hp : p.CallsOnly allowed)
    (hclear : ∀ worker jobID, ¬allowed (.clearPendingCancel worker jobID))
    (hdelete : ∀ worker, ¬allowed (.deletePendingCancels worker)) : Leaves workerID id p := by
  refine callsOnly_mono hp fun c hc => ?_
  cases c with
  | clearPendingCancel worker jobID => exact absurd hc (hclear worker jobID)
  | deletePendingCancels worker => exact absurd hc (hdelete worker)
  | _ => trivial

theorem pending_of_leaves {α : Type} {p : Prog α} (hp : Leaves workerID id p)
    (hpending : PendingCancel w workerID id) :
    (steady fun _ => True).Ensures p w fun _ w' => PendingCancel w' workerID id := by
  refine ensures_of_calls ?_ hp hpending
  intro c w₁ d hc _ hpending
  exact pendingCancel_step_iff.mpr (Or.inl ⟨hpending, hc⟩)

/-- The operations that take no cancellation off the registry. -/
def keepsPending : Task → Bool
  | .handleResult _ _ _ _ _ | .watchdogTimeouts | .checkWorkers => false
  | _ => true

theorem body_leaves (cron : Cron) (cfg : SchedulerConfig) {task : Task}
    (htask : keepsPending task) : Leaves workerID id (task.body cron cfg) := by
  cases task with
  | createJob body =>
      refine callsOnly_bind (createJob_callsOnly cron body trivial (fun _ _ _ => trivial)
        fun _ c hc => ?_) fun _ => trivial
      cases c <;> trivial
  | cancelJob target =>
      exact leaves_of_calls (cancelJob_calls cron cfg target) (fun _ _ h => h) fun _ h => h
  | promoteDueJobs =>
      exact callsOnly_bind (leaves_of_calls (promoteDueJobs_calls cfg) (fun _ _ h => h)
        fun _ h => h) fun _ => trivial
  | handleQueuedJob message =>
      exact callsOnly_bind (leaves_of_calls (handleQueuedJob_calls message) (fun _ _ h => h)
        fun _ h => h) fun _ => trivial
  | pushPendingCancels =>
      exact callsOnly_bind (leaves_of_calls (pushPendingCancels_calls cfg) (fun _ _ h => h)
        fun _ h => h) fun _ => trivial
  | handleResult => cases htask
  | watchdogTimeouts => cases htask
  | checkWorkers => cases htask

/-- A result of another job leaves the entry. -/
theorem handleResult_leaves (cron : Cron) {jobID : String} (hid : id ≠ jobID)
    (executionID worker : String) (attempt : Int) (result : ExecutionResult) :
    Leaves workerID id (handleResult cron jobID executionID worker attempt result) := by
  refine (callsOnly_perform ..).mpr ⟨trivial, fun _ => ?_⟩
  refine (callsOnly_perform ..).mpr ⟨fun h => hid h.2, fun _ => ?_⟩
  refine (callsOnly_perform ..).mpr ⟨trivial, fun found => ?_⟩
  cases found with
  | error e => trivial
  | ok job =>
      dsimp only
      split
      · trivial
      · refine (callsOnly_perform ..).mpr ⟨trivial, fun now => callsOnly_bind ?_ fun _ => trivial⟩
        exact leaves_of_calls (settleResult_settles cron job jobID executionID worker attempt
          (withReason result) now) (fun _ _ h => h) fun _ h => h

/-- The loss of another worker leaves the entry. -/
theorem dropWorker_leaves {lost : String} (hlost : workerID ≠ lost) :
    Leaves workerID id (dropWorker lost) := by
  refine (callsOnly_perform ..).mpr ⟨trivial, fun _ => ?_⟩
  refine (callsOnly_perform ..).mpr ⟨trivial, fun _ => ?_⟩
  refine callsOnly_bind ?_ fun _ => trivial
  refine recoverWorkerJobs_callsOnly lost (fun _ _ => trivial) fun jobs => ?_
  refine (callsOnly_perform ..).mpr ⟨trivial, fun now => ?_⟩
  refine callsOnly_bind (callsOnly_forEach fun job _ => ?_) fun _ => ?_
  · split
    · trivial
    · exact leaves_of_calls (recoverJob_calls lost now job) (fun _ _ h => h) fun _ h => h
  · exact (callsOnly_perform ..).mpr ⟨hlost, fun _ => trivial⟩

/-- The watchdog reports no result for a job that is CANCEL_REQUESTED. -/
theorem watchdogTimeouts_pending (hjob : w.store.jobs.get? id = some job)
    (hstate : job.state = .cancelRequested) (hpending : PendingCancel w workerID id) :
    (steady fun _ => True).Ensures (watchdogTimeouts cron cfg) w fun _ w' =>
      PendingCancel w' workerID id := by
  refine ensures_perform fun d _ => ensures_perform fun d' hd' => ?_
  simp only [steady_step, step, guarded_of_none (hd'.2.1 rfl)]
  refine pending_of_leaves (callsOnly_bind (callsOnly_forEach fun late hlate => ?_)
    fun _ => trivial) hpending
  have hid : id ≠ late.id := by
    rintro rfl
    have hlisted := snapshot_timedOut hd'.1 d.now cfg.assignBatchSize
    have hrunning := hlisted.states late hlate
    rw [← Option.some.inj (hjob.symm.trans (hlisted.stored late hlate)), hstate] at hrunning
    rcases hrunning with h | h <;> cases h
  refine callsOnly_bind ?_ fun _ => callsOnly_bind ?_ fun _ => trivial
  · exact leaves_of_calls (stopExecution_calls late) (fun _ _ h => h) fun _ h => h
  · exact handleResult_leaves cron hid _ _ _ _

theorem pushCancel_leaves (other : Job) : Leaves workerID id (pushCancel other) :=
  leaves_of_calls (pushCancel_calls other) (fun _ _ h => h) fun _ h => h

theorem pushCancel_adds {other : Job} (hworker : other.workerID ≠ "") (w : World) :
    (steady fun _ => True).Ensures (pushCancel other) w fun _ w' =>
      PendingCancel w' other.workerID other.id := by
  rw [pushCancel, if_neg hworker]
  refine ensures_perform fun d _ => ?_
  rw [steady_step]
  refine pending_of_leaves ?_ (pendingCancel_step_iff.mpr (Or.inr rfl))
  split
  · trivial
  · exact (callsOnly_perform ..).mpr ⟨trivial, fun _ => trivial⟩

end Pending

section Deliveries

variable {cron : Cron} {cfg : SchedulerConfig} {task : Task} {ds : List Draw}
  {outcome : Outcome} {w w' : World} {id : String} {job : Job}

/-- The next heartbeat of its worker brings the cancellation of the job. -/
def Delivering (w : World) (id : String) (job : Job) : Prop :=
  w.store.jobs.get? id = some job ∧ PendingCancel w job.workerID id

/-- After `pushPendingCancels` every job that is CANCEL_REQUESTED and has a worker is pending
for that worker. -/
theorem pushPendingCancels_pending
    (hlimit : (w.store.jobs.keys.card : Int) ≤ cfg.assignBatchSize) :
    (steady fun _ => True).Ensures (pushPendingCancels cfg) w fun _ w' =>
      ∀ id job, w'.store.jobs.get? id = some job → job.state = .cancelRequested →
        job.workerID ≠ "" → PendingCancel w' job.workerID id := by
  refine pushPendingCancels_rule fun order horder _ => ?_
  -- what is still CANCEL_REQUESTED was listed as it is, and is pending or still to come
  refine ensures_mono (ensures_forEach (I := fun rest (w₁ : World) =>
    ∀ id job, w₁.store.jobs.get? id = some job → job.state = .cancelRequested →
      job.workerID ≠ "" → job ∈ rest ∨ PendingCancel w₁ job.workerID id) ?_ ?_) ?_
  · intro other rest w₁ hdone ds _ w₂ hrun id job hjob hstate hworker
    obtain ⟨hkept, hcancelled⟩ := pushCancel_round other w₁ _ _ _ hrun
    have hsame : w₁.store.jobs.get? id = some job := by
      rw [← hkept id ?_, hjob]
      by_contra hcontra
      obtain ⟨hid, hempty⟩ := not_or.mp hcontra
      have hafter := hcancelled (not_not.mp hempty)
      rw [← not_not.mp hid, World.jobState, hjob, Option.map_some, hstate] at hafter
      cases hbefore : w₁.jobState id <;> rw [hbefore] at hafter <;> cases hafter
    rcases hdone id job hsame hstate hworker with hmem | hpending
    · rcases List.mem_cons.mp hmem with rfl | hrest
      · obtain rfl := key_of_get? hjob
        exact Or.inr (pushCancel_adds hworker w₁ _ _ _ hrun)
      · exact Or.inl hrest
    · exact Or.inr (pending_of_leaves (pushCancel_leaves other) hpending _ _ _ hrun)
  · intro id job hjob hstate _
    exact Or.inl (mem_collect horder hlimit hjob (by simpa using hstate))
  · intro _ w' hdone id job hjob hstate hworker
    exact (hdone id job hjob hstate hworker).resolve_left List.not_mem_nil

/-- A job that an operation writes gets a state from which the operation does not bring it
back. -/
theorem kept_or_left (left : JobState)
    (hleaves : ∀ state fields onlyFrom, Writes task id job state fields onlyFrom → state = left)
    (hstays : ∀ later state fields onlyFrom, later.state = left →
      Writes task id later state fields onlyFrom → state = left)
    (hjob : w.store.jobs.get? id = some job) :
    (steady fun _ => True).Ensures (task.body cron cfg) w fun _ w' =>
      w'.store.jobs.get? id = some job ∨ w'.jobState id = some left := by
  refine steady_informed cron cfg ?_ (Or.inl hjob)
  rintro w₁ c d hinformed hsound (hjob | hleft)
  · rcases informed_stored hinformed hsound hjob with hsame | ⟨state, _, _, hwrites, hnew⟩
    · exact Or.inl hsame
    · refine Or.inr ?_
      rw [World.jobState, hnew, Option.map_some, ← hleaves _ _ _ hwrites]
      rfl
  · obtain ⟨later, hlater, hstate⟩ := Option.map_eq_some_iff.mp hleft
    refine Or.inr ?_
    rcases informed_stored hinformed hsound hlater with hsame | ⟨state, _, _, hwrites, hnew⟩
    · rw [World.jobState, hsame, Option.map_some, hstate]
    · rw [World.jobState, hnew, Option.map_some, ← hstays _ _ _ _ hstate hwrites]
      rfl

/-- A result for the job, of whatever execution, ends the cancellation. -/
theorem handleResult_cancels {executionID worker : String} {attempt : Int}
    {result : ExecutionResult} {value : Except Err Unit}
    (hjob : w.store.jobs.get? id = some job) (hstate : job.state = .cancelRequested)
    (hrun : (steady fun _ => True).Runs (handleResult cron id executionID worker attempt result)
      w ds value w') : w'.jobState id = some .cancelled := by
  let report : Report := { workerID := worker, attempt := attempt, result := result }
  change (steady fun _ => True).Runs (report.handleResult cron id executionID) w ds value w' at hrun
  have hlive : job.state.terminal = false := by rw [hstate]; rfl
  have hcancelled : report.outcome job = .cancelled := if_pos (Or.inr hstate)
  obtain ⟨x, hjobs, hfresh⟩ := settled_of_runs hjob hlive hrun
  rw [World.jobState, hjobs, get?_settle hjob hfresh, Option.map_some, record_state, hcancelled]

/-- The loss of a worker cancels the job if it is the job's own. -/
theorem dropWorker_keeps (lost : String) (hdelivering : Delivering w id job)
    (hstate : job.state = .cancelRequested)
    (hfew : (inState w.store.jobs .cancelRequested).card ≤ 1000) :
    (steady fun _ => True).Ensures (dropWorker lost) w fun _ w' =>
      Delivering w' id job ∨ w'.jobState id = some .cancelled := by
  obtain ⟨hjob, hpending⟩ := hdelivering
  intro ds _ w' hrun
  have hdrops := dropWorker_drops lost w _ _ _ hrun
  by_cases hlost : job.workerID = lost
  · have hactive : active job.state := by rw [hstate]; rfl
    have hrecovered := (hdrops.recovered hjob hactive hlost (by rwa [hstate])).state
    rw [key_of_get? hjob, recoveredState, if_pos hstate] at hrecovered
    exact Or.inr hrecovered
  · refine Or.inl ⟨hdrops.spared hjob hlost, ?_⟩
    exact pending_of_leaves (dropWorker_leaves hlost) hpending _ _ _ hrun

theorem checkWorkers_keeps (hdelivering : Delivering w id job)
    (hstate : job.state = .cancelRequested) (hfew : w.store.jobs.keys.card ≤ 1000) :
    (steady fun _ => True).Ensures (checkWorkers cfg) w fun _ w' =>
      Delivering w' id job ∨ w'.jobState id = some .cancelled := by
  refine ensures_perform fun d hd => ?_
  simp only [steady_step, step, guarded_of_none (hd.2.1 rfl)]
  obtain ⟨hjobs, hexecutions, -⟩ := markStaleWorkers_frame w.store d.now cfg.heartbeatTimeout
    cfg.suspectGracePeriod d.order
  refine ensures_return (ensures_mono (ensures_forEach (I := fun _ (w₁ : World) =>
    Progress w w₁ ∧ (Delivering w₁ id job ∨ w₁.jobState id = some .cancelled)) ?_
    ⟨progress_of_same hjobs hexecutions, Or.inl ⟨?_, hdelivering.2⟩⟩) fun _ _ h => h.2)
  · rintro lost rest w₁ ⟨hprogress, hdone⟩ ds _ w₂ hrun
    have hdrops := dropWorker_drops lost w₁ _ _ _ hrun
    refine ⟨progress_trans hprogress hdrops.progress, ?_⟩
    rcases hdone with hdelivering | hcancelled
    · have hfewer : (inState w₁.store.jobs .cancelRequested).card ≤ 1000 := by
        refine le_trans (Finset.card_le_card (inState_progress hprogress rfl)) ?_
        exact le_trans (Finset.card_le_card (Finset.filter_subset _ _)) hfew
      exact dropWorker_keeps lost hdelivering hstate hfewer _ _ _ hrun
    · obtain ⟨ended, hended, hstate⟩ := Option.map_eq_some_iff.mp hcancelled
      refine Or.inr ?_
      rcases hdrops.progress.jobs hended with hsame | ⟨hactive, -⟩
      · rw [World.jobState, hsame, Option.map_some, hstate]
      · rw [hstate] at hactive
        cases hactive
  · rw [hjobs]
    exact hdelivering.1

/-- An operation that leaves the job CANCEL_REQUESTED leaves its record and its entry. -/
theorem task_keeps (hrun : (steady fun _ => True).Runs (task.body cron cfg) w ds outcome w')
    (hdelivering : Delivering w id job) (hstate : job.state = .cancelRequested)
    (hworker : job.workerID ≠ "") (hfew : w.store.jobs.keys.card ≤ 1000)
    (hafter : w'.jobState id = some .cancelRequested) : Delivering w' id job := by
  have ⟨hjob, hpending⟩ := hdelivering
  cases task with
  | createJob body =>
      -- a request with the key of the job may queue it again, and then it is not requested
      refine ⟨?_, pending_of_leaves (body_leaves cron cfg rfl) hpending _ _ _ hrun⟩
      refine (kept_or_left .queued ?_ ?_ hjob _ _ _ hrun).resolve_right ?_
      · exact fun _ _ _ hwrites => hwrites.1
      · exact fun _ _ _ _ _ hwrites => hwrites.1
      · rw [hafter]
        exact fun h => nomatch h
  | cancelJob target =>
      refine ⟨?_, pending_of_leaves (body_leaves cron cfg rfl) hpending _ _ _ hrun⟩
      refine (kept_or_left .cancelled ?_ ?_ hjob _ _ _ hrun).resolve_right ?_
      · rintro state fields onlyFrom ⟨-, -, -, -, hwritten⟩
        rwa [hstate, if_neg (by decide)] at hwritten
      · rintro later state fields onlyFrom hlater ⟨-, hopen, -⟩
        rw [hlater] at hopen
        cases hopen
      · rw [hafter]
        exact fun h => nomatch h
  | promoteDueJobs =>
      refine ⟨kept_informed cron cfg .promoteDueJobs ?_ hjob _ _ _ hrun,
        pending_of_leaves (body_leaves cron cfg rfl) hpending _ _ _ hrun⟩
      rintro state fields onlyFrom ⟨-, hwaiting, -⟩
      rw [hstate] at hwaiting
      rcases hwaiting with h | h <;> cases h
  | handleQueuedJob message =>
      refine ⟨kept_informed cron cfg (.handleQueuedJob message) ?_ hjob _ _ _ hrun,
        pending_of_leaves (body_leaves cron cfg rfl) hpending _ _ _ hrun⟩
      rintro state fields onlyFrom ⟨-, -, hdispatched⟩
      rw [hstate] at hdispatched
      rcases hdispatched with ⟨-, h⟩ | ⟨-, h⟩ <;> cases h
  | handleResult jobID executionID worker attempt result =>
      by_cases hid : id = jobID
      -- whatever execution it is told of, `HandleResult` clears the entry only with the request
      · subst hid
        obtain ⟨_, _, _, _, -, hhandled, hrest⟩ := runs_bind_iff.mp hrun
        obtain ⟨-, -, rfl⟩ := runs_ret_iff.mp hrest
        rw [handleResult_cancels hjob hstate hhandled] at hafter
        cases hafter
      · refine ⟨kept_informed cron cfg (.handleResult jobID executionID worker attempt result) ?_
          hjob _ _ _ hrun, ensures_task (pending_of_leaves (handleResult_leaves cron hid executionID
            worker attempt result) hpending) hrun⟩
        exact fun _ _ _ hwrites => hid hwrites.1
  | pushPendingCancels =>
      exact ⟨ensures_task (pushPendingCancels_keeps hworker hjob) hrun,
        pending_of_leaves (body_leaves cron cfg rfl) hpending _ _ _ hrun⟩
  | watchdogTimeouts =>
      refine ⟨kept_informed cron cfg .watchdogTimeouts ?_ hjob _ _ _ hrun,
        ensures_task (watchdogTimeouts_pending hjob hstate hpending) hrun⟩
      rintro state fields onlyFrom ⟨hrunning, -⟩
      rw [hstate] at hrunning
      rcases hrunning with h | h <;> cases h
  | checkWorkers =>
      refine (ensures_task (Q := fun w' => Delivering w' id job ∨ w'.jobState id = some .cancelled)
        (checkWorkers_keeps hdelivering hstate hfew) hrun).resolve_right ?_
      rw [hafter]
      exact fun h => nomatch h

end Deliveries

section Clients

variable {cron : Cron} {cfg : SchedulerConfig} {clients : String → Prop} {task : Task}
  {w : World} {c : Call} {d : Draw}

theorem cancelJob_of_writes {id : String} {job : Job} {fields : Fields}
    {onlyFrom : List JobState} (hwrites : Writes task id job .cancelRequested fields onlyFrom) :
    task = .cancelJob id := by
  cases task with
  | createJob body => cases hwrites.1
  | cancelJob target => rw [hwrites.1]
  | promoteDueJobs => cases hwrites.1
  | handleQueuedJob message => rcases hwrites.2.2 with ⟨h, -⟩ | ⟨h, -⟩ <;> cases h
  | handleResult jobID executionID workerID attempt result => exact hwrites.2.2.2.2.elim
  | pushPendingCancels => cases hwrites.2.1
  | watchdogTimeouts => exact hwrites.2.2.2.2.elim
  | checkWorkers => exact hwrites.2.2.2.2.elim

/-- The cancellations that are asked for go back to a client. -/
structure FromClients (clients : String → Prop) (w : World) : Prop where
  states : ∀ {id}, w.jobState id = some .cancelRequested → clients id
  pending : ∀ {workerID id}, PendingCancel w workerID id → clients id

theorem fromClients_step (hclients : ∀ id, task = .cancelJob id → clients id)
    (hinformed : Informed task w c) (h : FromClients clients w) :
    FromClients clients (step c w d).2 where
  states := by
    intro id hstate
    rcases jobState_informed hinformed hstate with hold | hnew | ⟨job, _, _, -, hwrites⟩
    · exact h.states hold
    · cases hnew
    · exact hclients id (cancelJob_of_writes hwrites)
  pending := by
    intro workerID id hpending
    rcases requested_of_pending hinformed hpending with hold | hrequested
    · exact h.pending hold
    · exact h.states hrequested

theorem fromClients_task (hclients : ∀ id, task = .cancelJob id → clients id)
    (h : FromClients clients w) :
    (steady fun _ => True).Ensures (task.body cron cfg) w fun _ w' => FromClients clients w' :=
  steady_informed cron cfg (fun hinformed _ h => fromClients_step hclients hinformed h) h

end Clients

section Runs

variable {cron : Cron} {cfg : SchedulerConfig} {w w' : World} {operation : Operation}
  {history : History} {id : String} {job : Job}

theorem emitFor_registry (w : World) (eventType : EventType) (workerID : String)
    (r : Reception) : (emitFor w eventType workerID r).registry = w.registry := by
  unfold emitFor
  split <;> rfl

theorem registerWorker_pendingCancels (w : World) (worker : Worker) (r : Reception) :
    (registerWorker w worker r).2.registry.pendingCancels = w.registry.pendingCancels := by
  unfold registerWorker
  cases r.upsertFault with
  | some e => rfl
  | none =>
      cases r.dialFault with
      | some e => rfl
      | none =>
          dsimp only
          rw [emitFor_registry]

theorem heartbeat_pendingCancels (w : World) (workerID : String) (activeJobs capacity : Int)
    (r : Reception) : (heartbeat w workerID activeJobs capacity r).2.registry.pendingCancels =
      w.registry.pendingCancels := by
  unfold heartbeat
  cases w.registry.workers.get? workerID with
  | none => rfl
  | some wc => cases r.upsertFault <;> rfl

/-- The requests of the workers touch neither the jobs nor the pending cancellations. -/
theorem worker_frame (hstep : Step cron cfg w operation w')
    (hworker : ∀ task ds, operation ≠ .task task ds) :
    w'.store.jobs = w.store.jobs ∧ w'.registry.pendingCancels = w.registry.pendingCancels := by
  cases hstep with
  | task hrun => exact absurd rfl (hworker _ _)
  | registerWorker _ worker r =>
      exact ⟨(registerWorker_frame w worker r).1, registerWorker_pendingCancels w worker r⟩
  | heartbeat _ workerID active capacity r =>
      exact ⟨(heartbeat_frame w workerID active capacity r).1,
        heartbeat_pendingCancels w workerID active capacity r⟩
  | deregister _ workerID r =>
      unfold deregister
      rw [(emitFor_frame _ _ _ _).1, emitFor_registry]
      exact ⟨rfl, rfl⟩

theorem step_keeps (hstep : Step cron cfg w operation w') (hdelivering : Delivering w id job)
    (hstate : job.state = .cancelRequested) (hworker : job.workerID ≠ "")
    (hfew : Few cfg w) (hafter : w'.jobState id = some .cancelRequested) :
    Delivering w' id job := by
  by_cases htask : ∃ task ds, operation = .task task ds
  · obtain ⟨task, ds, rfl⟩ := htask
    cases hstep with
    | task hrun => exact task_keeps hrun hdelivering hstate hworker hfew.2 hafter
  · simp only [not_exists] at htask
    obtain ⟨hjobs, hpending⟩ := worker_frame hstep htask
    unfold Delivering PendingCancel
    rwa [hjobs, hpending]

/-- The cancellation stays pending as long as the job is CANCEL_REQUESTED. -/
theorem delivering_of_requested {workerID : String}
    (hrun : Run (Step cron cfg) .empty history w)
    (hfew : ∀ entry ∈ history, Few cfg entry.before)
    (hrequested : Requested history workerID id) : PendingCancel w workerID id := by
  obtain ⟨later, push, earlier, ds, job, rfl, hpush, hjob, hstate, rfl, hworker, hlater⟩ :=
    hrequested
  have hmem : push ∈ later ++ push :: earlier :=
    List.mem_append_right _ List.mem_cons_self
  have hpushed : Delivering push.after id job := by
    have hstep := step_of_mem hrun hmem
    rw [hpush] at hstep
    cases hstep with
    | task hrun =>
        exact ⟨hjob, ensures_task (pushPendingCancels_pending (hfew push hmem).1) hrun id job hjob
          hstate hworker⟩
  refine (run_invariant (I := fun _ w => Delivering w id job)
    (P := fun entry => Few cfg entry.before ∧ entry.after.jobState id = some .cancelRequested)
    hpushed ?_ (run_after hrun) fun entry hentry => ?_).2
  · intro _ _ _ _ hdelivering hstep hsteps
    exact step_keeps hstep hdelivering hstate hworker hsteps.1 hsteps.2
  · exact ⟨hfew entry (List.mem_append_left _ hentry), hlater entry hentry⟩

theorem fromClients_of_run (hrun : Run (Step cron cfg) .empty history w) :
    FromClients (Called history) w := by
  refine run_invariant (P := fun _ => True) (I := fun history w => FromClients (Called history) w)
    ?_ ?_ hrun fun _ _ => trivial
  · refine ⟨fun hstate => ?_, fun ⟨ids, hids, _⟩ => ?_⟩
    · cases hstate
    · cases hids
  · intro history w operation w' h hstep _
    have hearlier : ∀ {id}, Called history id → Called (⟨w, operation, w'⟩ :: history) id := by
      rintro id ⟨entry, hentry, hlabel⟩
      exact ⟨entry, List.mem_cons_of_mem _ hentry, hlabel⟩
    have h : FromClients (Called (⟨w, operation, w'⟩ :: history)) w :=
      ⟨fun hstate => hearlier (h.states hstate), fun hpending => hearlier (h.pending hpending)⟩
    by_cases htask : ∃ task ds, operation = .task task ds
    · obtain ⟨task, ds, rfl⟩ := htask
      cases hstep with
      | task hrun =>
          refine fromClients_task ?_ h _ _ _ hrun
          rintro id rfl
          exact ⟨_, List.mem_cons_self, ds, rfl⟩
    · simp only [not_exists] at htask
      obtain ⟨hjobs, hpending⟩ := worker_frame hstep htask
      constructor
      · intro id hstate
        rw [World.jobState, hjobs] at hstate
        exact h.states hstate
      · intro workerID id hid
        rw [PendingCancel, hpending] at hid
        exact h.pending hid

theorem heartbeat_reply (w : World) (workerID : String) (activeJobs capacity : Int)
    {r : Reception} (hstore : r.upsertFault = none) :
    (heartbeat w workerID activeJobs capacity r).1 =
      .ok ((w.registry.pendingCancels.lookup workerID).getD ∅) := by
  unfold heartbeat
  cases w.registry.workers.get? workerID with
  | none => rfl
  | some wc =>
      dsimp only
      rw [hstore]

/-- After every run from the empty state, a heartbeat brings the worker each of its jobs that
has been CANCEL_REQUESTED since a `pushPendingCancels`, and only jobs for which a client has
called `cancelJob`. -/
theorem heartbeat_delivers_cancels (hrun : Run (Step cron cfg) .empty history w)
    (hfew : ∀ entry ∈ history, Few cfg entry.before) (workerID : String)
    (activeJobs capacity : Int) {r : Reception} (hstore : r.upsertFault = none) :
    ∃ ids, (heartbeat w workerID activeJobs capacity r).1 = .ok ids ∧
      (∀ id, Requested history workerID id → id ∈ ids) ∧ ∀ id ∈ ids, Called history id := by
  refine ⟨_, heartbeat_reply w workerID activeJobs capacity hstore, ?_, ?_⟩
  · intro id hrequested
    exact pendingCancel_iff.mp (delivering_of_requested hrun hfew hrequested)
  · intro id hid
    exact (fromClients_of_run hrun).pending (pendingCancel_iff.mpr hid)

end Runs

section Scenarios

instance (cfg : SchedulerConfig) (w : World) : Decidable (Few cfg w) :=
  inferInstanceAs (Decidable (_ ∧ _))

theorem task_of_get {cron : Cron} {cfg : SchedulerConfig} {task : Task} {ds : List Draw}
    {w : World} (hperform : (perform cron cfg (steady fun _ => True) task ds w).isSome) :
    Step cron cfg w (.task task ds)
      ((perform cron cfg (steady fun _ => True) task ds w).get hperform) := by
  obtain ⟨outcome, hrun⟩ := runs_of_perform cron cfg hperform
  exact .task hrun

def joining : Worker := { id := "worker", address := "localhost:9091", capacity := 4 }

def pushed : World :=
  (perform utcOnly smallConfig (steady fun _ => True) .pushPendingCancels (sweepDraws 3 4)
    requested).get (by decide +kernel)

theorem joining_registers :
    Step utcOnly smallConfig .empty (.registerWorker joining {}) registered :=
  .registerWorker .empty joining {}

def untilRequested : History :=
  [⟨running, .task (.cancelJob "job") (sweepDraws 3 3), requested⟩,
    ⟨created, .task (.handleQueuedJob echoMessage) (handleDraws 2 "first"), running⟩,
    ⟨registered, .task (.createJob (some echoRequest)) (createDraws 1 "job"), created⟩,
    ⟨.empty, .registerWorker joining {}, registered⟩]

def push : Entry World Operation :=
  ⟨requested, .task .pushPendingCancels (sweepDraws 3 4), pushed⟩

def beat : Entry World Operation :=
  ⟨pushed, .heartbeat "worker" 1 4 {}, (heartbeat pushed "worker" 1 4 {}).2⟩

theorem beat_runs : Run (Step utcOnly smallConfig) .empty (beat :: push :: untilRequested)
    beat.after :=
  .next (.next (.next (.next (.next (.next .start joining_registers) (task_of_get _))
    (task_of_get _)) (task_of_get _)) (task_of_get _)) (.heartbeat ..)

/-- A heartbeat has brought the cancellation, and the next one brings it again. -/
theorem second_heartbeat_delivers :
    ∃ ids, (heartbeat beat.after "worker" 1 4 {}).1 = .ok ids ∧ "job" ∈ ids := by
  have hfew : ∀ entry ∈ beat :: push :: untilRequested, Few smallConfig entry.before := by
    decide +kernel
  obtain ⟨job, hjob, hstate, hworker⟩ : ∃ job, pushed.store.jobs.get? "job" = some job ∧
      job.state = .cancelRequested ∧ job.workerID = "worker" := by decide +kernel
  have hstays : beat.after.jobState "job" = some .cancelRequested := by decide +kernel
  have hrequested : Requested (beat :: push :: untilRequested) "worker" "job" :=
    ⟨[beat], push, untilRequested, _, job, rfl, rfl, hjob, hstate, hworker, by decide,
      List.forall_mem_singleton.mpr hstays⟩
  obtain ⟨ids, hreply, hdelivered, -⟩ := heartbeat_delivers_cancels (r := {}) beat_runs hfew
    "worker" 1 4 rfl
  exact ⟨ids, hreply, hdelivered "job" hrequested⟩

end Scenarios

end Chronos.CancelDelivery
