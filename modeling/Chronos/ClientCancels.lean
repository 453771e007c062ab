import Chronos.InformedRuns
import Chronos.WorkerProcess

namespace Chronos.ClientCancels

open Chronos.Domain
open Chronos.InformedRuns
open Chronos.JobWrites
open Chronos.Library.CallProgram
open Chronos.Library.CallMachine
open Chronos.Library.KeyedTable
open Chronos.MemoryStore
open Chronos.Operations
open Chronos.SchedulerCalls (handleResult_calls stopExecution_calls)
open Chronos.SchedulerService
open Chronos.SharedState
open Chronos.WorkerProcess

/-- The scheduler's world together with the workers and the reports on their way. -/
structure Cluster where
  world : World
  processes : String → Process
  reports : List ReportResultRequest

/-- A draw of the network as well: the request of an RPC may get lost, or only the answer. -/
structure ClusterDraw extends Draw where
  reached : Bool := true

/-- What the scheduler is told of its call: a push is answered by the worker. -/
def drawn (c : Call) (s : Cluster) (d : ClusterDraw) : Draw :=
  match c with
  | .executeJob workerID request =>
      { d.toDraw with
        reply := match d.fault with
          | some e => .error e
          | none => .ok (some ((s.processes workerID).executeJob request d.now).1) }
  | _ => d.toDraw

def served (c : Call) (s : Cluster) (d : ClusterDraw) : String → Process :=
  if d.reached then
    match c with
    | .executeJob workerID request =>
        Function.update s.processes workerID
          ((s.processes workerID).executeJob request d.now).2
    | .cancelJob workerID jobID _ =>
        -- the worker looks the job up and ignores the execution
        Function.update s.processes workerID ((s.processes workerID).cancelLocal jobID d.now)
    | _ => s.processes
  else s.processes

/-- The operations over a store, a queue and a network that may fail, with the workers at
the other end of the RPCs. -/
def cluster : Machine Call Answer Cluster ClusterDraw where
  step := fun c s d =>
    let answered := step c s.world (drawn c s d)
    (answered.1, { s with world := answered.2, processes := served c s d })
  Allowed := fun s c d => Sound s.world c d.toDraw ∧ (d.reached = false → d.fault.isSome)

instance (s : Cluster) (c : Call) (d : ClusterDraw) : Decidable (cluster.Allowed s c d) :=
  inferInstanceAs (Decidable (_ ∧ _))

theorem cluster_refines : cluster.Refines failing Cluster.world := by
  intro s c d hd
  refine ⟨drawn c s d, ?_, rfl, rfl⟩
  cases c with
  | executeJob workerID request => trivial
  | _ => exact hd.1

/-- The call of `HandleResult` that the report causes. -/
def reportResult (r : ReportResultRequest) : Task :=
  .handleResult r.jobID r.executionID r.workerID r.attempt
    { success := r.success, output := r.output, error := r.error, retryable := r.retryable,
      duration := wrap64 (r.durationMs * 1000000), reason := r.reason }

def isReport : Task → Bool
  | .handleResult _ _ _ _ _ => true
  | _ => false

inductive Label
  | operation (task : Task) (draws : List ClusterDraw)
  | elsewhere

/-- The job for which the step is a client's call of `cancelJob`. -/
def Label.cancels? : Label → Option String
  | .operation (.cancelJob id) _ => some id
  | _ => none

variable (cron : Cron) (cfg : SchedulerConfig) in
/-- Complete operations of the API and the scheduler, and between them what the workers
do: an execution returns and sends its report, the report is handled at any later time or
gets lost, a heartbeat brings pending cancellations, a worker registers or restarts. -/
inductive Step : Cluster → Label → Cluster → Prop
  | operation {task : Task} {draws : List ClusterDraw} {outcome : Outcome} {s s' : Cluster}
      (htask : isReport task = false)
      (hrun : cluster.Runs (task.body cron cfg) s draws outcome s') :
      Step s (.operation task draws) s'
  | returned {s : Cluster} {e : Execution} (workerID : String) (now : Time)
      {result : ExecutionResult} (hrunning : e ∈ (s.processes workerID).running)
      (hfirst : e.returned = false) (hresult : Executes (e.context.errAt now) result) :
      Step s .elsewhere
        { s with
          processes := Function.update s.processes workerID
            ((s.processes workerID).markReturned e.serial)
          reports := report workerID e.request result :: s.reports }
  | reported {draws : List ClusterDraw} {outcome : Outcome} {s s' : Cluster}
      (r : ReportResultRequest) (hr : r ∈ s.reports)
      (hrun : cluster.Runs ((reportResult r).body cron cfg)
        { s with reports := s.reports.erase r } draws outcome s') :
      Step s .elsewhere s'
  | lost {s : Cluster} (r : ReportResultRequest) :
      Step s .elsewhere { s with reports := s.reports.erase r }
  | exited {s : Cluster} {workerID : String} {e : Execution}
      (hrunning : e ∈ (s.processes workerID).running) (hreturned : e.returned) :
      Step s .elsewhere
        { s with
          processes := Function.update s.processes workerID ((s.processes workerID).exit e) }
  | heartbeat {s : Cluster} {ids : List String} (workerID : String) (now : Time)
      (hids : ids.toFinset = (s.world.registry.pendingCancels.lookup workerID).getD ∅) :
      Step s .elsewhere
        { s with
          processes := Function.update s.processes workerID
            (ids.foldl (fun p jobID => p.cancelLocal jobID now) (s.processes workerID)) }
  | registered {s : Cluster} (conns : ConnTable) (workers : WorkerTable) :
      Step s .elsewhere
        { s with world :=
          { s.world with
            registry := { s.world.registry with workers := conns }
            store := { s.world.store with workers := workers } } }
  | restarted {s : Cluster} (workerID : String) (capacity : Int) :
      Step s .elsewhere
        { s with processes := Function.update s.processes workerID (.new capacity) }

variable (cron : Cron) (cfg : SchedulerConfig) (P : Label → Cluster → Prop) in
/-- A run with the steps it has taken, the last one first. -/
inductive Reaches (start : Cluster) : List Label → Cluster → Prop
  | start : Reaches start [] start
  | step {labels : List Label} {label : Label} {s s' : Cluster}
      (hreach : Reaches start labels s) (hP : P label s) (hstep : Step cron cfg s label s') :
      Reaches start (label :: labels) s'

/-- No worker still has the cancel function of a job that the watchdog is about to time
out; the first draw of the watchdog is its clock reading. -/
def FindsNothingRunning : Label → Cluster → Prop
  | .operation .watchdogTimeouts (d :: _), s =>
      ∀ id ∈ s.world.store.jobs.keys, ∀ job ∈ s.world.store.jobs.get? id,
        timedOutRunning d.now job → (s.processes job.workerID).cancels.lookup id = none
  | _, _ => True

instance (label : Label) (s : Cluster) : Decidable (FindsNothingRunning label s) := by
  unfold FindsNothingRunning
  split <;> infer_instance

section World

variable {clients : String → Prop} {task : Task} {w : World} {c : Call} {d : Draw}

def PendingCancel (w : World) (workerID id : String) : Prop :=
  ∃ ids, w.registry.pendingCancels.lookup workerID = some ids ∧ id ∈ ids

theorem pendingCancel_iff {workerID id : String} :
    PendingCancel w workerID id ↔ id ∈ (w.registry.pendingCancels.lookup workerID).getD ∅ := by
  unfold PendingCancel
  cases w.registry.pendingCancels.lookup workerID <;> simp

/-- The call leaves the entry of the job under the worker. -/
def leavesPending (workerID id : String) : Call → Prop
  | .clearPendingCancel worker jobID => ¬(workerID = worker ∧ id = jobID)
  | .deletePendingCancels worker => workerID ≠ worker
  | _ => True

theorem mem_clearPendingCancel (r : Registry) (worker jobID workerID id : String) :
    id ∈ ((r.clearPendingCancel worker jobID).pendingCancels.lookup workerID).getD ∅ ↔
      id ∈ (r.pendingCancels.lookup workerID).getD ∅ ∧ ¬(workerID = worker ∧ id = jobID) := by
  unfold Registry.clearPendingCancel
  by_cases hworker : workerID = worker
  · subst hworker
    split
    · rename_i hnone
      simp [hnone]
    · rename_i ids hids
      have hleft : ((if ids.erase jobID = ∅ then
          { r with pendingCancels := r.pendingCancels.erase workerID }
          else { r with pendingCancels := r.pendingCancels.insert workerID (ids.erase jobID) } :
            Registry).pendingCancels.lookup workerID).getD ∅ = ids.erase jobID := by
        split
        · rename_i hempty
          rw [Finmap.lookup_erase, hempty, Option.getD_none]
        · rw [Finmap.lookup_insert, Option.getD_some]
      rw [hleft, hids, Option.getD_some, Finset.mem_erase, and_comm]
      simp
  · rw [and_iff_left fun h => hworker h.1]
    split
    · rfl
    · split
      · rw [Finmap.lookup_erase_ne hworker]
      · rw [Finmap.lookup_insert_of_ne _ hworker]

theorem pendingCancel_step_iff {workerID id : String} :
    PendingCancel (step c w d).2 workerID id ↔
      PendingCancel w workerID id ∧ leavesPending workerID id c ∨
        c = .addPendingCancel workerID id := by
  rw [pendingCancel_iff, pendingCancel_iff]
  cases c with
  | addPendingCancel worker jobID =>
      by_cases hworker : workerID = worker
      · subst hworker
        rw [show (step (.addPendingCancel workerID jobID) w d).2.registry.pendingCancels.lookup
          workerID = _ from Finmap.lookup_insert _]
        simp [leavesPending, or_comm, eq_comm]
      · rw [show (step (.addPendingCancel worker jobID) w d).2.registry.pendingCancels.lookup
          workerID = _ from Finmap.lookup_insert_of_ne _ hworker]
        simp [leavesPending, Ne.symm hworker]
  | clearPendingCancel worker jobID =>
      exact (mem_clearPendingCancel w.registry worker jobID workerID id).trans
        (or_iff_left Call.noConfusion).symm
  | deletePendingCancels worker =>
      by_cases hworker : workerID = worker
      · subst hworker
        rw [show (step (.deletePendingCancels workerID) w d).2.registry.pendingCancels.lookup
          workerID = _ from Finmap.lookup_erase _ _]
        simp [leavesPending]
      · rw [show (step (.deletePendingCancels worker) w d).2.registry.pendingCancels.lookup
          workerID = _ from Finmap.lookup_erase_ne hworker]
        simp [leavesPending, hworker]
  | incActiveJobs wc =>
      simp only [step, Registry.incActiveJobs, leavesPending]
      split
      · simp
      · split <;> simp
  | decActiveJobs worker =>
      simp only [step, Registry.decActiveJobs, leavesPending]
      split
      · simp
      · split <;> simp
  | executeJob worker request =>
      simp only [step, leavesPending]
      rw [acceptedPush_eq]
      simp
  | _ =>
      simp only [step, guarded, leavesPending]
      first | simp; done | (split <;> simp)

/-- Where the state of a job comes from: it was there before, or the job is new, or the
operation has written it. -/
theorem jobState_informed {id : String} {state : JobState} (hinformed : Informed task w c)
    (hstate : (step c w d).2.jobState id = some state) :
    w.jobState id = some state ∨ state = .scheduled ∨
      ∃ job fields onlyFrom, w.store.jobs.get? id = some job ∧
        Writes task id job state fields onlyFrom := by
  rcases jobState_step c w d id with hsame | ⟨job, rfl, -, hnew⟩ |
    ⟨written, fields, onlyFrom, before, rfl, -, -, hnew⟩
  · exact Or.inl (hsame.symm.trans hstate)
  · have hcreates : Creates task job := hinformed.1
    obtain rfl := Option.some.inj (hnew.symm.trans hstate)
    exact Or.inr (Or.inl hcreates.1)
  · obtain ⟨job, hjob, hwrites⟩ := hinformed
    obtain rfl := Option.some.inj (hnew.symm.trans hstate)
    exact Or.inr (Or.inr ⟨job, fields, onlyFrom, hjob, hwrites⟩)

/-- Only a job that is CANCEL_REQUESTED becomes pending. -/
theorem requested_of_pending {workerID id : String} (hinformed : Informed task w c)
    (hpending : PendingCancel (step c w d).2 workerID id) :
    PendingCancel w workerID id ∨ w.jobState id = some .cancelRequested := by
  rcases pendingCancel_step_iff.mp hpending with ⟨hold, -⟩ | rfl
  · exact Or.inl hold
  · obtain ⟨rfl, job, hjob, hrequested⟩ := hinformed
    have hstate : job.state = .cancelRequested := hrequested
    refine Or.inr ?_
    rw [World.jobState, hjob, Option.map_some, hstate]

/-- Cancellations that stand in the world go back to a client. -/
structure ClientsOnly (clients : String → Prop) (w : World) : Prop where
  states : ∀ {id}, w.jobState id = some .cancelRequested ∨ w.jobState id = some .cancelled →
    clients id
  pending : ∀ {workerID id}, PendingCancel w workerID id → clients id

/-- The operation comes from a client, or reports a cancellation only where a client has
asked for it. -/
def Vouched (clients : String → Prop) : Task → Prop
  | .cancelJob id => clients id
  | .handleResult jobID _ _ _ result => result.reason = .cancelled → clients jobID
  | _ => True

theorem withReason_cancelled {result : ExecutionResult}
    (hreason : (withReason result).reason = .cancelled) : result.reason = .cancelled := by
  unfold withReason at hreason
  split at hreason
  · dsimp only at hreason
    split at hreason
    · cases hreason
    · cases hreason
  · exact hreason

theorem settles_cancels {job : Job} {attempt : Int} {result : ExecutionResult}
    {state : JobState} {fields : Fields} (hsettles : Settles job attempt result state fields)
    (hstate : state = .cancelRequested ∨ state = .cancelled) :
    result.reason = .cancelled ∨ job.state = .cancelRequested := by
  rcases hstate with rfl | rfl
  · exact hsettles.2.2.elim
  · exact hsettles.2.2

theorem clients_of_writes {id : String} {job : Job} {state : JobState} {fields : Fields}
    {onlyFrom : List JobState} (hvouched : Vouched clients task) (h : ClientsOnly clients w)
    (hjob : w.store.jobs.get? id = some job)
    (hwrites : Writes task id job state fields onlyFrom)
    (hstate : state = .cancelRequested ∨ state = .cancelled) : clients id := by
  have hrequested : job.state = .cancelRequested → clients id := by
    intro hrequested
    refine h.states (Or.inl ?_)
    rw [World.jobState, hjob, Option.map_some, hrequested]
  cases task with
  | createJob body =>
      rw [hwrites.1] at hstate
      rcases hstate with h | h <;> cases h
  | cancelJob target =>
      obtain ⟨rfl, -⟩ := hwrites
      exact hvouched
  | promoteDueJobs =>
      rw [hwrites.1] at hstate
      rcases hstate with h | h <;> cases h
  | handleQueuedJob message =>
      rcases hwrites.2.2 with ⟨rfl, -⟩ | ⟨rfl, -⟩ <;> rcases hstate with h | h <;> cases h
  | handleResult jobID executionID workerID attempt result =>
      obtain ⟨rfl, -, hsettles⟩ := hwrites
      rcases settles_cancels hsettles hstate with hreason | hjobState
      · exact hvouched (withReason_cancelled hreason)
      · exact hrequested hjobState
  | pushPendingCancels => exact hrequested hwrites.1
  | watchdogTimeouts =>
      obtain ⟨-, -, hsettles⟩ := hwrites
      rcases settles_cancels hsettles hstate with hreason | hjobState
      · cases hreason
      · exact hrequested hjobState
  | checkWorkers =>
      obtain ⟨-, -, hsettles⟩ := hwrites
      rcases settles_cancels hsettles hstate with hreason | hjobState
      · cases hreason
      · exact hrequested hjobState

theorem clientsOnly_step (hvouched : Vouched clients task) (hinformed : Informed task w c)
    (h : ClientsOnly clients w) : ClientsOnly clients (step c w d).2 where
  states := by
    have hstep : ∀ {id state}, state = .cancelRequested ∨ state = .cancelled →
        (step c w d).2.jobState id = some state → clients id := by
      intro id state hcancel hstate
      rcases jobState_informed hinformed hstate with hold | rfl | ⟨job, _, _, hjob, hwrites⟩
      · refine h.states ?_
        rw [hold]
        exact hcancel.imp (congrArg some) (congrArg some)
      · rcases hcancel with h | h <;> cases h
      · exact clients_of_writes hvouched h hjob hwrites hcancel
    rintro id (hstate | hstate)
    · exact hstep (Or.inl rfl) hstate
    · exact hstep (Or.inr rfl) hstate
  pending := by
    intro workerID id hpending
    rcases requested_of_pending hinformed hpending with hold | hrequested
    · exact h.pending hold
    · exact h.states (Or.inl hrequested)

end World

section Cluster

variable {clients : String → Prop} {task : Task} {s s' : Cluster} {c : Call} {d : ClusterDraw}
  {cron : Cron} {cfg : SchedulerConfig}

structure Honest (clients : String → Prop) (s : Cluster) : Prop where
  world : ClientsOnly clients s.world
  stopped : ∀ {workerID id}, Stopped (s.processes workerID) id → clients id
  reports : ∀ r ∈ s.reports, r.reason = .cancelled → clients r.jobID

/-- A step of one worker, which stops only jobs that a client has cancelled. -/
theorem stopped_update {workerID : String} {p : Process}
    (h : ∀ {workerID id}, Stopped (s.processes workerID) id → clients id)
    (hp : ∀ {id}, Stopped p id → Stopped (s.processes workerID) id ∨ clients id)
    {other id : String} (hstopped : Stopped (Function.update s.processes workerID p other) id) :
    clients id := by
  rw [Function.update_apply] at hstopped
  split at hstopped
  · exact (hp hstopped).elim h fun hclient => hclient
  · exact h hstopped

theorem stopped_served (htask : task ≠ .watchdogTimeouts) (hinformed : Informed task s.world c)
    (h : Honest clients s) {workerID id : String}
    (hstopped : Stopped (served c s d workerID) id) : clients id := by
  unfold served at hstopped
  split at hstopped
  · cases c with
    | executeJob workerID' request =>
        exact stopped_update h.stopped (fun hp => Or.inl (stopped_executeJob hp)) hstopped
    | cancelJob workerID' jobID executionID =>
        refine stopped_update h.stopped (fun hp => ?_) hstopped
        refine (stopped_cancelLocal hp).imp_right ?_
        rintro rfl
        obtain ⟨job, hjob, hstops⟩ := hinformed
        cases task with
        | watchdogTimeouts => exact absurd rfl htask
        | pushPendingCancels =>
            have hrequested : job.state = .cancelRequested := hstops
            refine h.world.states (Or.inl ?_)
            rw [World.jobState, hjob, Option.map_some, hrequested]
        | _ => exact hstops.elim
    | _ => exact h.stopped hstopped
  · exact h.stopped hstopped

theorem honest_step (htask : task ≠ .watchdogTimeouts) (hvouched : Vouched clients task)
    (hinformed : Informed task s.world c) (h : Honest clients s) :
    Honest clients (cluster.step c s d).2 where
  world := clientsOnly_step hvouched hinformed h.world
  stopped := stopped_served htask hinformed h
  reports := h.reports

/-- Of the workers the watchdog calls only those of the jobs it has listed. -/
def stopsOnly (jobs : List Job) : Call → Prop
  | .cancelJob workerID jobID _ => ∃ job ∈ jobs, job.workerID = workerID ∧ job.id = jobID
  | .executeJob _ _ => False
  | _ => True

theorem watchdogTimeout_stops (cron : Cron) {jobs : List Job} {job : Job} (hjob : job ∈ jobs) :
    (watchdogTimeout cron job).CallsOnly (stopsOnly jobs) := by
  have hstop : (stopExecution job).CallsOnly (stopsOnly jobs) := by
    refine callsOnly_mono (stopExecution_calls job) fun c hc => ?_
    cases c with
    | cancelJob workerID jobID executionID => exact ⟨job, hjob, hc.1.symm, hc.2.1.symm⟩
    | executeJob workerID request => exact hc.elim
    | _ => trivial
  refine callsOnly_bind hstop fun _ => callsOnly_bind ?_ fun _ => trivial
  refine callsOnly_mono (handleResult_calls ..) fun c hc => ?_
  cases c with
  | cancelJob workerID jobID executionID => exact hc.elim
  | executeJob workerID request => exact hc.elim
  | _ => trivial

/-- Where no listed job has a cancel function, the calls of the watchdog stop nothing. -/
theorem served_of_stopsOnly {jobs : List Job} {processes : String → Process}
    (hjobs : ∀ job ∈ jobs, (processes job.workerID).cancels.lookup job.id = none)
    (hc : stopsOnly jobs c) (hs : s.processes = processes) : served c s d = processes := by
  unfold served
  split
  · cases c with
    | executeJob workerID request => exact hc.elim
    | cancelJob workerID jobID executionID =>
        obtain ⟨job, hjob, rfl, rfl⟩ := hc
        have hnone := hjobs job hjob
        rw [← hs] at hnone ⊢
        dsimp only
        rw [cancelLocal_of_none hnone, Function.update_eq_self]
    | _ => exact hs
  · exact hs

theorem served_idle (c : Call) (hc : stopsOnly [] c) (s : Cluster) (d : ClusterDraw) :
    served c s d = s.processes :=
  served_of_stopsOnly (fun _ h => absurd h List.not_mem_nil) hc rfl

theorem listed_timedOut {now : Time} {limit : Int} {jobs : List Job}
    (hlisted : (cluster.step (.listTimedOutRunning now limit) s d).1 = .ok jobs) {job : Job}
    (hjob : job ∈ jobs) :
    s.world.store.jobs.get? job.id = some job ∧ timedOutRunning now job := by
  have hanswer : (step (.listTimedOutRunning now limit) s.world d.toDraw).1 = .ok jobs := hlisted
  simp only [step, guarded] at hanswer
  split at hanswer
  · cases hanswer
  · obtain rfl := Except.ok.inj hanswer
    have hmem := List.mem_filter.mp ((collect_sublist _ _ [] _).subset hjob)
    exact ⟨(mem_inOrder.mp hmem.1).2, hmem.2⟩

theorem watchdog_processes {draws : List ClusterDraw} {outcome : Outcome}
    (hnothing : FindsNothingRunning (.operation .watchdogTimeouts draws) s)
    (hrun : cluster.Runs (Task.body cron cfg .watchdogTimeouts) s draws outcome s') :
    s'.processes = s.processes := by
  obtain ⟨_, _, result, t, rfl, hrun, hret⟩ := runs_bind_iff.mp hrun
  obtain ⟨-, -, rfl⟩ := runs_ret_iff.mp hret
  obtain ⟨d, _, rfl, -, hrun⟩ := runs_perform_iff.mp hrun
  obtain ⟨d', _, rfl, -, hrun⟩ := runs_perform_iff.mp hrun
  have hstart : (cluster.step
      (.listTimedOutRunning (cluster.step .timeNow s d).1 cfg.assignBatchSize)
      (cluster.step .timeNow s d).2 d').2.processes = s.processes :=
    (served_idle (.listTimedOutRunning d.now cfg.assignBatchSize) trivial _ d').trans
      (served_idle .timeNow trivial s d)
  cases hlisted : (cluster.step
      (.listTimedOutRunning (cluster.step .timeNow s d).1 cfg.assignBatchSize)
      (cluster.step .timeNow s d).2 d').1 with
  | error e =>
      rw [hlisted] at hrun
      obtain ⟨-, -, rfl⟩ := runs_ret_iff.mp hrun
      exact hstart
  | ok jobs =>
      rw [hlisted] at hrun
      have hcalls : (forEach jobs (watchdogTimeout cron) >>= fun _ =>
          (pure (Except.ok ()) : Prog (Except Err Unit))).CallsOnly (stopsOnly jobs) :=
        callsOnly_bind (callsOnly_forEach fun job hjob => watchdogTimeout_stops cron hjob)
          fun _ => trivial
      have hjobs : ∀ job ∈ jobs, (s.processes job.workerID).cancels.lookup job.id = none := by
        intro job hjob
        obtain ⟨hstored, hlate⟩ := listed_timedOut hlisted hjob
        exact hnothing job.id (mem_keys.mpr ⟨job, hstored⟩) job hstored hlate
      exact ensures_of_calls (I := fun t : Cluster => t.processes = s.processes)
        (fun c t d hc _ ht => served_of_stopsOnly hjobs hc ht) hcalls hstart _ _ _ hrun

theorem honest_operation {draws : List ClusterDraw} {outcome : Outcome}
    (hvouched : Vouched clients task)
    (hnothing : FindsNothingRunning (.operation task draws) s)
    (hrun : cluster.Runs (task.body cron cfg) s draws outcome s') (h : Honest clients s) :
    Honest clients s' := by
  by_cases htask : task = .watchdogTimeouts
  · subst htask
    have hprocesses := watchdog_processes hnothing hrun
    have hkept : ClientsOnly clients s'.world ∧ s'.reports = s.reports := by
      refine informed_invariant cluster_refines
        (I := fun t : Cluster => ClientsOnly clients t.world ∧ t.reports = s.reports) cron cfg
        (fun hinformed _ ht => ?_) ⟨h.world, rfl⟩ draws outcome s' hrun
      exact ⟨clientsOnly_step hvouched hinformed ht.1, ht.2⟩
    refine ⟨hkept.1, fun {workerID id} hstopped => ?_, ?_⟩
    · rw [hprocesses] at hstopped
      exact h.stopped hstopped
    · rw [hkept.2]
      exact h.reports
  · exact informed_invariant cluster_refines cron cfg
      (fun hinformed _ ht => honest_step htask hvouched hinformed ht) h draws outcome s' hrun

theorem honest_mono {wider : String → Prop} (hwider : ∀ id, clients id → wider id)
    (h : Honest clients s) : Honest wider s where
  world := ⟨fun hstate => hwider _ (h.world.states hstate),
    fun hpending => hwider _ (h.world.pending hpending)⟩
  stopped := fun hstopped => hwider _ (h.stopped hstopped)
  reports := fun r hr hreason => hwider _ (h.reports r hr hreason)

/-- A step whose label vouches for it keeps the cluster honest. -/
theorem honest_label {label : Label} (hclient : ∀ id ∈ label.cancels?, clients id)
    (hnothing : FindsNothingRunning label s) (hstep : Step cron cfg s label s')
    (h : Honest clients s) : Honest clients s' := by
  cases hstep with
  | operation htask hrun =>
      refine honest_operation ?_ hnothing hrun h
      rename_i task draws outcome
      cases task with
      | cancelJob id => exact hclient id rfl
      | handleResult jobID executionID workerID attempt result => cases htask
      | _ => trivial
  | returned workerID now hrunning hfirst hresult =>
      refine ⟨h.world, stopped_update h.stopped fun hp => Or.inl (stopped_markReturned hp), ?_⟩
      intro r hr hreason
      rcases List.mem_cons.mp hr with rfl | hold
      · have hcanceled := canceled_of_executes hresult (report_cancelled hreason)
        exact h.stopped ⟨_, hrunning, rfl, err_of_errAt hcanceled⟩
      · exact h.reports r hold hreason
  | reported r hr hrun =>
      have hvouched : Vouched clients (reportResult r) := h.reports r hr
      refine honest_operation hvouched trivial hrun ?_
      exact ⟨h.world, h.stopped, fun other hother => h.reports other (List.mem_of_mem_erase hother)⟩
  | lost r =>
      exact ⟨h.world, h.stopped, fun other hother => h.reports other (List.mem_of_mem_erase hother)⟩
  | exited hrunning hreturned =>
      exact ⟨h.world, stopped_update h.stopped fun hp => Or.inl (stopped_exit hp), h.reports⟩
  | heartbeat workerID now hids =>
      refine ⟨h.world, stopped_update h.stopped fun {id} hp => ?_, h.reports⟩
      refine (stopped_cancelAll hp).imp_right fun hid => ?_
      have hpending := List.mem_toFinset.mpr hid
      rw [hids] at hpending
      exact h.world.pending (pendingCancel_iff.mpr hpending)
  | registered conns workers => exact ⟨⟨h.world.states, h.world.pending⟩, h.stopped, h.reports⟩
  | restarted workerID capacity =>
      refine ⟨h.world, stopped_update h.stopped fun hp => ?_, h.reports⟩
      obtain ⟨e, he, -⟩ := hp
      exact absurd he List.not_mem_nil

/-- No job, nothing running at a worker, and nothing on its way. -/
structure Idle (s : Cluster) : Prop where
  store : s.world.store = .new
  pending : s.world.registry.pendingCancels = ∅
  processes : ∀ workerID, (s.processes workerID).running = []
  reports : s.reports = []

theorem honest_of_idle (hidle : Idle s) : Honest clients s where
  world := by
    constructor
    · intro id hstate
      have hnone : s.world.jobState id = none := by
        rw [World.jobState, hidle.store]
        exact congrArg (Option.map Job.state) (get?_empty id)
      rw [hnone] at hstate
      rcases hstate with h | h <;> cases h
    · rintro workerID id ⟨ids, hids, -⟩
      rw [hidle.pending, Finmap.lookup_empty] at hids
      cases hids
  stopped := by
    rintro workerID id ⟨e, he, -⟩
    rw [hidle.processes] at he
    exact absurd he List.not_mem_nil
  reports := by
    intro r hr
    rw [hidle.reports] at hr
    exact absurd hr List.not_mem_nil

/-- In every run in which the watchdog never stops an execution that is still under way, a
job is CANCELLED only after a client has called `cancelJob` for it. -/
theorem only_clients_cancel {start : Cluster} {labels : List Label} (hidle : Idle start)
    (hreach : Reaches cron cfg FindsNothingRunning start labels s) {id : String}
    (hcancelled : s.world.jobState id = some .cancelled) :
    ∃ label ∈ labels, label.cancels? = some id := by
  have hhonest : Honest (fun id => ∃ label ∈ labels, label.cancels? = some id) s := by
    clear hcancelled
    induction hreach with
    | start => exact honest_of_idle hidle
    | step hreach hnothing hstep ih =>
        refine honest_label (fun id hid => ?_) hnothing hstep (honest_mono ?_ ih)
        · exact ⟨_, List.mem_cons_self, hid⟩
        · rintro id ⟨label, hlabel, hid⟩
          exact ⟨label, List.mem_cons_of_mem _ hlabel, hid⟩
  exact hhonest.world.states (Or.inr hcancelled)

end Cluster

section Scenarios

/-- Steps for concrete runs: an operation, the end of an execution with its context, the
handling of the latest report. -/
inductive Move
  | operate (task : Task) (draws : List ClusterDraw)
  | finish (workerID : String) (serial : Nat) (now : Time)
  | report (draws : List ClusterDraw)

def move (cron : Cron) (cfg : SchedulerConfig) (s : Cluster) : Move → Option (Label × Cluster)
  | .operate task draws =>
      if isReport task then none
      else (cluster.exec (task.body cron cfg) s draws).map fun r => (.operation task draws, r.2)
  | .finish workerID serial now => do
      let e ← (s.processes workerID).running.find? fun e => e.serial = serial ∧ !e.returned
      let err ← e.context.errAt now
      let process := (s.processes workerID).markReturned e.serial
      let sent := report workerID e.request (ctxResult 0 err)
      return (.elsewhere,
        { s with
          processes := Function.update s.processes workerID process
          reports := sent :: s.reports })
  | .report draws => do
      let r ← s.reports.head?
      let handled ← cluster.exec ((reportResult r).body cron cfg)
        { s with reports := s.reports.erase r } draws
      return (.elsewhere, handled.2)

theorem step_of_move {cron : Cron} {cfg : SchedulerConfig} {s s' : Cluster} {m : Move}
    {label : Label} (hmove : move cron cfg s m = some (label, s')) :
    Step cron cfg s label s' := by
  cases m with
  | operate task draws =>
      simp only [move, Option.ite_none_left_eq_some] at hmove
      obtain ⟨htask, hmove⟩ := hmove
      obtain ⟨⟨outcome, t⟩, hexec, heq⟩ := Option.map_eq_some_iff.mp hmove
      obtain ⟨rfl, rfl⟩ := Prod.mk.inj heq
      exact .operation (by simpa using htask) (runs_of_exec hexec)
  | finish workerID serial now =>
      simp only [move, Option.bind_eq_bind, Option.bind_eq_some_iff] at hmove
      obtain ⟨e, he, err, herr, heq⟩ := hmove
      obtain ⟨rfl, rfl⟩ := Prod.mk.inj (Option.some.inj heq)
      have hfirst := List.find?_some he
      simp only [Bool.not_eq_true', Bool.decide_and, Bool.and_eq_true, decide_eq_true_eq] at hfirst
      refine .returned workerID now (List.mem_of_find?_eq_some he) hfirst.2 ?_
      rw [herr]
      exact .ended err 0
  | report draws =>
      simp only [move, Option.bind_eq_bind, Option.bind_eq_some_iff] at hmove
      obtain ⟨r, hr, handled, hexec, heq⟩ := hmove
      obtain ⟨rfl, rfl⟩ := Prod.mk.inj (Option.some.inj heq)
      exact .reported r (List.mem_of_head? hr) (runs_of_exec hexec)

variable (cron : Cron) (cfg : SchedulerConfig) (P : Label → Cluster → Prop)
  [∀ label s, Decidable (P label s)]

def play : List Move → List Label × Cluster → Option (List Label × Cluster)
  | [], reached => some reached
  | m :: rest, (labels, s) => do
      let (label, s') ← move cron cfg s m
      if P label s then play rest (label :: labels, s') else none

variable {cron cfg P} in
theorem reaches_of_play {start s s' : Cluster} {labels labels' : List Label}
    {moves : List Move} (hreach : Reaches cron cfg P start labels s)
    (hplay : play cron cfg P moves (labels, s) = some (labels', s')) :
    Reaches cron cfg P start labels' s' := by
  induction moves generalizing labels s with
  | nil =>
      obtain ⟨rfl, rfl⟩ := Prod.mk.inj (Option.some.inj hplay)
      exact hreach
  | cons m rest ih =>
      simp only [play, Option.bind_eq_bind, Option.bind_eq_some_iff] at hplay
      obtain ⟨⟨label, t⟩, hmove, hrest⟩ := hplay
      simp only [Option.ite_none_right_eq_some] at hrest
      exact ih (hreach.step hrest.1 (step_of_move hmove)) hrest.2

def idleCluster : Cluster where
  world := idleWorker
  processes := fun _ => .new 4
  reports := []

def networked (draws : List Draw) : List ClusterDraw :=
  draws.map fun d => { toDraw := d }

/-- The job is created and pushed.  The push reaches the worker a little after the clock
reading for `StartedAt`. -/
def movesToRunning : List Move :=
  [.operate (.createJob (some echoRequest)) (networked (createDraws 1 "job")),
    .operate (.handleQueuedJob echoMessage)
      (networked ((handleDraws 2 "execution").modify 7 fun d => { d with now := 4 }))]

def movesToReport (now : Time) : List Move :=
  [.finish "worker" 0 now, .report (networked (sweepDraws 7 now))]

/-- The watchdog stops an execution just before the worker's own deadline and puts the job
back for a retry; then the worker's report cancels the job. -/
theorem watchdog_cancels_job :
    ∃ (labels : List Label) (s : Cluster),
      Reaches utcOnly smallConfig (fun _ _ => True) idleCluster labels s ∧
      (∀ label ∈ labels, label.cancels? = none) ∧
      s.world.jobState "job" = some .cancelled := by
  let watched : Move :=
    .operate .watchdogTimeouts (networked (sweepDraws 12 (30 * second + 3)))
  let moves := movesToRunning ++ watched :: movesToReport (31 * second)
  have hplay : ∃ reached ∈ play utcOnly smallConfig (fun _ _ => True) moves ([], idleCluster),
      (∀ label ∈ reached.1, label.cancels? = none) ∧
        reached.2.world.jobState "job" = some .cancelled := by
    decide +kernel
  obtain ⟨⟨labels, s⟩, hreached, hlabels, hcancelled⟩ := hplay
  exact ⟨labels, s, reaches_of_play .start hreached, hlabels, hcancelled⟩

/-- A client cancels the running job, after a watchdog run that has found nothing late. -/
theorem client_cancels_job :
    ∃ (labels : List Label) (s : Cluster),
      Reaches utcOnly smallConfig FindsNothingRunning idleCluster labels s ∧
      labels.length = 7 ∧ s.world.jobState "job" = some .cancelled ∧
      ∃ label ∈ labels, label.cancels? = some "job" := by
  let moves := movesToRunning ++
    [.operate .watchdogTimeouts (networked (sweepDraws 2 5)),
      .operate (.cancelJob "job") (networked (sweepDraws 3 6)),
      .operate .pushPendingCancels (networked (sweepDraws 3 7))] ++ movesToReport 8
  have hplay : ∃ reached ∈ play utcOnly smallConfig FindsNothingRunning moves ([], idleCluster),
      reached.1.length = 7 ∧ reached.2.world.jobState "job" = some .cancelled := by
    decide +kernel
  obtain ⟨⟨labels, s⟩, hreached, hlength, hcancelled⟩ := hplay
  have hreach := reaches_of_play .start hreached
  have hidle : Idle idleCluster := ⟨rfl, rfl, fun _ => rfl, rfl⟩
  exact ⟨labels, s, hreach, hlength, hcancelled, only_clients_cancel hidle hreach hcancelled⟩

end Scenarios

end Chronos.ClientCancels
