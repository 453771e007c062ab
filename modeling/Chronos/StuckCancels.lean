import Chronos.InformedRuns
import Chronos.SuspectedWorkers
import Chronos.WorkerLoss

namespace Chronos.StuckCancels

open Chronos.Domain
open Chronos.InformedRuns
open Chronos.JobWrites (Creates Writes)
open Chronos.Library.CallMachine
open Chronos.Library.CallProgram
open Chronos.Library.KeyedTable
open Chronos.LifecycleGraph (Snapshot snapshot_collect)
open Chronos.MemoryStore
open Chronos.Operations
open Chronos.SchedulerCalls
open Chronos.SchedulerService
open Chronos.SharedState
open Chronos.WorkerLoss
open Chronos.WorkerRegistry (joins oneToken receiveRegister)

section Calls

/-- The calls that neither mark workers nor push a job to one. -/
def routine : Call → Bool
  | .markStaleWorkers _ _ | .executeJob _ _ => false
  | _ => true

abbrev Routine {α : Type} (p : Prog α) : Prop := p.CallsOnly fun c => routine c

theorem promoteDueJobs_routine (cfg : SchedulerConfig) : Routine (promoteDueJobs cfg) := by
  refine callsOnly_mono (promoteDueJobs_calls cfg) fun c hc => ?_
  cases c <;> first | rfl | exact hc.elim

theorem pushPendingCancels_routine (cfg : SchedulerConfig) :
    Routine (pushPendingCancels cfg) := by
  refine callsOnly_mono (pushPendingCancels_calls cfg) fun c hc => ?_
  cases c <;> first | rfl | exact hc.elim

theorem routine_resultCall {jobID : String} {c : Call} (hc : resultCall jobID c) :
    routine c := by
  cases c <;> first | rfl | exact hc.elim

theorem watchdogTimeouts_routine (cron : Cron) (cfg : SchedulerConfig) :
    Routine (watchdogTimeouts cron cfg) := by
  refine (callsOnly_perform ..).mpr ⟨rfl, fun _ => ?_⟩
  refine (callsOnly_perform ..).mpr ⟨rfl, fun listed => ?_⟩
  cases listed with
  | error e => trivial
  | ok jobs =>
      refine callsOnly_bind (callsOnly_forEach fun job _ => ?_) fun _ => trivial
      refine callsOnly_bind ?_ fun _ => callsOnly_bind ?_ fun _ => trivial
      · refine callsOnly_mono (stopExecution_calls job) fun c hc => ?_
        cases c <;> first | rfl | exact hc.elim
      · exact callsOnly_mono (handleResult_calls cron _ _ _ _ _) fun _ => routine_resultCall

theorem dropWorker_routine (workerID : String) : Routine (dropWorker workerID) := by
  refine (callsOnly_perform ..).mpr ⟨rfl, fun _ => ?_⟩
  refine (callsOnly_perform ..).mpr ⟨rfl, fun _ => ?_⟩
  refine callsOnly_bind (callsOnly_mono (recoverWorkerJobs_calls workerID) fun c hc => ?_)
    fun _ => trivial
  cases c <;> first | rfl | exact hc.elim

theorem workers_routine {α : Type} {p : Prog α} (hp : Routine p) (w : World) :
    (steady fun _ => True).Ensures p w fun _ w' => w'.store.workers = w.store.workers := by
  refine ensures_of_calls ?_ hp rfl
  intro c w₁ d hc _ hw₁
  rw [steady_step, workers_step ?_, hw₁]
  rintro timeout grace rfl
  cases hc

end Calls

section Stages

variable {cron : Cron} {cfg : SchedulerConfig} {task : Task} {w w' : World} {id : String}
  {job : Job}

/-- What the body of a task ensures, the operation itself ensures. -/
theorem ensures_of_body {α : Type} {p : Prog α} {f : α → Outcome} {Q : World → Prop}
    (hbody : (steady fun _ => True).Ensures (p >>= fun value => pure (f value)) w
      fun _ w' => Q w') :
    (steady fun _ => True).Ensures p w fun _ w' => Q w' := by
  intro ds value w' hrun
  exact hbody _ _ w' (runs_bind_iff.mpr ⟨ds, [], value, w', rfl, hrun, .ret _ _⟩)

theorem keys_informed (cron : Cron) (cfg : SchedulerConfig) (task : Task)
    (hcreates : ∀ job, ¬Creates task job) (w : World) :
    (steady fun _ => True).Ensures (task.body cron cfg) w fun _ w' =>
      w'.store.jobs.keys = w.store.jobs.keys := by
  refine steady_informed cron cfg ?_ rfl
  intro w₁ c d hinformed hsound hkeys
  rw [← hkeys]
  ext id
  rw [mem_keys, mem_keys]
  cases hjob : w₁.store.jobs.get? id with
  | none =>
      rcases informed_absent hinformed hjob with hnone | ⟨job, -, hnew, -⟩
      · rw [hnone]
      · exact absurd hnew (hcreates job)
  | some job =>
      refine iff_of_true ?_ ⟨job, rfl⟩
      exact stored_step ⟨job, hjob⟩ c d

theorem kept_informed (cron : Cron) (cfg : SchedulerConfig) (task : Task)
    (hwrites : ∀ state fields onlyFrom, ¬Writes task id job state fields onlyFrom)
    (hjob : w.store.jobs.get? id = some job) :
    (steady fun _ => True).Ensures (task.body cron cfg) w fun _ w' =>
      w'.store.jobs.get? id = some job := by
  refine steady_informed cron cfg ?_ hjob
  intro w₁ c d hinformed hsound hjob
  rcases informed_stored hinformed hsound hjob with hsame | ⟨_, _, _, hwrote, -⟩
  · exact hsame
  · exact absurd hwrote (hwrites _ _ _)

/-- One round of `pushPendingCancels`.  A job without a worker is cancelled; otherwise the
worker is asked to stop the job and, whatever it answers, the jobs stay as they are. -/
theorem pushCancel_round (other : Job) (w : World) :
    (steady fun _ => True).Ensures (pushCancel other) w fun _ w' =>
      (∀ id, id ≠ other.id ∨ other.workerID ≠ "" →
        w'.store.jobs.get? id = w.store.jobs.get? id) ∧
      (other.workerID = "" → w'.jobState other.id =
        (w.jobState other.id).map fun _ => .cancelled) := by
  unfold pushCancel
  split
  · rename_i hworker
    refine ensures_perform fun d₀ _ => ensures_perform fun d hd => ensures_perform fun d₁ _ => ?_
    refine ensures_ret ?_
    rw [steady_step]
    generalize hw' : (step (.emit _) _ d₁).2 = w'
    have hjobs : w'.store.jobs = (step (.updateJobStateIf other.id .cancelled
        { completedAt := some (step .timeNow w d₀).1 } []) w d).2.store.jobs := by
      rw [← hw', (quiet_step rfl _ _).1]
      rfl
    refine ⟨fun id hid => ?_, fun _ => ?_⟩
    · have hne := hid.resolve_right (not_not.mpr hworker)
      rcases step_jobs (.updateJobStateIf other.id .cancelled
          { completedAt := some (step .timeNow w d₀).1 } []) w d with
        hsame | ⟨_, hcreate, -⟩ | ⟨_, _, _, _, old, hupdate, hold, -, hput⟩
      · rw [hjobs, hsame]
      · cases hcreate
      · cases hupdate
        rw [hjobs, hput, get?_put_of_ne]
        rwa [applyUpdate_id, key_of_get? hold]
    · rw [World.jobState, hjobs]
      exact jobState_update (hd.2.1 rfl) w other.id .cancelled _
  · rename_i hworker
    refine ensures_perform fun d _ => ?_
    have hadd := (quiet_step (c := .addPendingCancel other.workerID other.id) rfl w d).1
    split
    · refine ensures_ret ⟨fun id _ => ?_, fun hempty => absurd hempty hworker⟩
      rw [steady_step, hadd]
    · refine ensures_perform fun d' _ => ensures_ret ⟨fun id _ => ?_, fun hempty =>
        absurd hempty hworker⟩
      rw [steady_step, (quiet_step rfl _ _).1, hadd]

theorem pushCancels_keep {jobs : List Job} (hworker : job.workerID ≠ "")
    (hlisted : ∀ other ∈ jobs, other.id = id → other = job)
    (hjob : w.store.jobs.get? id = some job) :
    (steady fun _ => True).Ensures (forEach jobs pushCancel) w fun _ w' =>
      w'.store.jobs.get? id = some job := by
  refine ensures_mono (ensures_forEach (I := fun rest (w' : World) =>
    (∀ other ∈ rest, other.id = id → other = job) ∧ w'.store.jobs.get? id = some job) ?_
    ⟨hlisted, hjob⟩) fun _ _ h => h.2
  rintro other rest w₁ ⟨hlisted, hjob⟩
  refine ensures_mono (pushCancel_round other w₁) ?_
  rintro _ w₂ ⟨hkept, -⟩
  refine ⟨fun next hnext => hlisted next (List.mem_cons_of_mem _ hnext), ?_⟩
  rw [hkept id ?_, hjob]
  by_cases hid : id = other.id
  · obtain rfl := hlisted other List.mem_cons_self hid.symm
    exact Or.inr hworker
  · exact Or.inl hid

theorem pushCancels_cancel {jobs : List Job} (hworker : job.workerID = "")
    (hlisted : ∀ other ∈ jobs, other.id = id → other = job) (hmem : job ∈ jobs)
    (hjob : w.store.jobs.get? id = some job) :
    (steady fun _ => True).Ensures (forEach jobs pushCancel) w fun _ w' =>
      w'.jobState id = some .cancelled := by
  have hid := key_of_get? hjob
  refine ensures_mono (ensures_forEach (I := fun rest (w' : World) =>
    (∀ other ∈ rest, other.id = id → other = job) ∧ (∃ state, w'.jobState id = some state) ∧
      (job ∈ rest ∨ w'.jobState id = some .cancelled)) ?_
    ⟨hlisted, ⟨job.state, by rw [World.jobState, hjob]; rfl⟩, Or.inl hmem⟩)
    fun _ _ h => h.2.2.resolve_left List.not_mem_nil
  rintro other rest w₁ ⟨hlisted, ⟨state, hstate⟩, hdone⟩
  refine ensures_mono (pushCancel_round other w₁) ?_
  rintro _ w₂ ⟨hkept, hcancelled⟩
  refine ⟨fun next hnext => hlisted next (List.mem_cons_of_mem _ hnext), ?_⟩
  by_cases hother : id = other.id
  · obtain rfl := hlisted other List.mem_cons_self hother.symm
    have hafter := hcancelled hworker
    rw [← hother, hstate, Option.map_some] at hafter
    exact ⟨⟨_, hafter⟩, Or.inr hafter⟩
  · have hsame : w₂.jobState id = w₁.jobState id := by
      rw [World.jobState, World.jobState, hkept id (Or.inl hother)]
    rw [hsame]
    refine ⟨⟨state, hstate⟩, hdone.imp_left fun hmem => ?_⟩
    refine (List.mem_cons.mp hmem).resolve_left ?_
    rintro rfl
    exact hother hid.symm

/-- The jobs that `pushPendingCancels` goes through are as they are stored. -/
theorem pushPendingCancels_rule {Q : World → Prop}
    (hpush : ∀ order, w.store.jobs.Enumerates order →
      (∀ other ∈ w.store.listCancelRequested order cfg.assignBatchSize,
        w.store.jobs.get? other.id = some other) →
      (steady fun _ => True).Ensures (forEach
        (w.store.listCancelRequested order cfg.assignBatchSize) pushCancel) w fun _ w' => Q w') :
    (steady fun _ => True).Ensures (pushPendingCancels cfg) w fun _ w' => Q w' := by
  refine ensures_perform fun d hd => ?_
  simp only [steady_step, step, guarded_of_none (hd.2.1 rfl)]
  have hsnapshot : Snapshot w.store.jobs (· = .cancelRequested)
      (w.store.listCancelRequested d.order cfg.assignBatchSize) :=
    snapshot_collect hd.1 (fun job hjob => by simpa using hjob) _
  exact ensures_return (hpush d.order hd.1 hsnapshot.stored)

/-- A job that has a worker is not touched by `pushPendingCancels`. -/
theorem pushPendingCancels_keeps (hworker : job.workerID ≠ "")
    (hjob : w.store.jobs.get? id = some job) :
    (steady fun _ => True).Ensures (pushPendingCancels cfg) w fun _ w' =>
      w'.store.jobs.get? id = some job := by
  refine pushPendingCancels_rule fun order _ hstored => pushCancels_keep hworker ?_ hjob
  rintro other hother rfl
  exact Option.some.inj ((hstored other hother).symm.trans hjob)

theorem pushPendingCancels_cancels
    (hlimit : (w.store.jobs.keys.card : Int) < cfg.assignBatchSize)
    (hworker : job.workerID = "") (hjob : w.store.jobs.get? id = some job)
    (hstate : job.state = .cancelRequested) :
    (steady fun _ => True).Ensures (pushPendingCancels cfg) w fun _ w' =>
      w'.jobState id = some .cancelled := by
  refine pushPendingCancels_rule fun order horder hstored => ?_
  refine pushCancels_cancel hworker ?_ ?_ hjob
  · rintro other hother rfl
    exact Option.some.inj ((hstored other hother).symm.trans hjob)
  · exact mem_collect horder hlimit.le hjob (by simpa using hstate)

/-- The markings that a poll asks the store for, with the draws they were answered by. -/
def Marking (cron : Cron) (cfg : SchedulerConfig) (w : World) (ds : List Draw) (d : Draw) :
    Prop :=
  (.markStaleWorkers cfg.heartbeatTimeout cfg.suspectGracePeriod, d) ∈
    (steady fun _ => True).trace (poll cron cfg) w ds

theorem checkWorkers_marks_once {d : Draw} {ds : List Draw} {result : Except Err Unit}
    (hrun : (steady fun _ => True).Runs (checkWorkers cfg) w (d :: ds) result w') (d' : Draw) :
    (.markStaleWorkers cfg.heartbeatTimeout cfg.suspectGracePeriod, d') ∈
      (steady fun _ => True).trace (checkWorkers cfg) w (d :: ds) ↔ d' = d := by
  obtain ⟨d, ds, ⟨⟩, hallowed, -⟩ := runs_perform_iff.mp hrun
  unfold checkWorkers
  rw [trace_perform]
  constructor
  · intro hmem
    rcases List.mem_cons.mp hmem with heq | hrest
    · exact (Prod.mk.inj heq).2
    · simp only [steady_step, step, guarded_of_none (hallowed.2.1 rfl)] at hrest
      have hloop : Routine (forEach (w.store.markStaleWorkers d.now cfg.heartbeatTimeout
          cfg.suspectGracePeriod d.order).1.2 dropWorker >>= fun _ =>
            (pure (.ok ()) : Prog (Except Err Unit))) :=
        callsOnly_bind (callsOnly_forEach fun id _ => dropWorker_routine id) fun _ => trivial
      cases calls_of_trace hloop hrest
  · rintro rfl
    exact List.mem_cons_self

/-- A poll up to its pass over the workers, for a job whose cancellation was requested. -/
theorem poll_stages {ds : List Draw} (hjob : w.store.jobs.get? id = some job)
    (hstate : job.state = .cancelRequested)
    (hlimit : (w.store.jobs.keys.card : Int) < cfg.assignBatchSize)
    (hrun : (steady fun _ => True).Runs (poll cron cfg) w ds () w') :
    ∃ w₃ d last result,
      (steady fun _ => True).Runs (checkWorkers cfg) w₃ (d :: last) result w' ∧
      w₃.store.workers = w.store.workers ∧ w₃.store.jobs.keys = w.store.jobs.keys ∧
      (job.workerID ≠ "" → w₃.store.jobs.get? id = some job) ∧
      (job.workerID = "" → w₃.jobState id = some .cancelled) ∧
      ∀ d', Marking cron cfg w ds d' ↔ d' = d := by
  obtain ⟨ds₁, rest, r₁, w₁, rfl, hpromote, hrun⟩ := runs_bind_iff.mp hrun
  obtain ⟨ds₂, rest, r₂, w₂, rfl, hpush, hrun⟩ := runs_bind_iff.mp hrun
  obtain ⟨ds₃, rest, r₃, w₃, rfl, hwatchdog, hrun⟩ := runs_bind_iff.mp hrun
  obtain ⟨ds₄, rest, r₄, w₄, rfl, hcheck, hret⟩ := runs_bind_iff.mp hrun
  obtain ⟨rfl, -, rfl⟩ := runs_ret_iff.mp hret
  obtain ⟨d, last, rfl, -⟩ := runs_perform_iff.mp hcheck
  have hkeys₁ := ensures_of_body
    (keys_informed cron cfg .promoteDueJobs (fun _ h => h.2.2.2.2) w) _ _ _ hpromote
  have hkeys₂ := ensures_of_body
    (keys_informed cron cfg .pushPendingCancels (fun _ h => h.2.2.2.2) w₁) _ _ _ hpush
  have hkeys₃ := ensures_of_body
    (keys_informed cron cfg .watchdogTimeouts (fun _ h => h.2.2.2.2) w₂) _ _ _ hwatchdog
  have hjob₁ := ensures_of_body (kept_informed cron cfg .promoteDueJobs
    (fun _ _ _ h => by simp [Writes, hstate] at h) hjob) _ _ _ hpromote
  rw [← hkeys₁] at hlimit
  have hkept (hworker : job.workerID ≠ "") : w₂.store.jobs.get? id = some job :=
    pushPendingCancels_keeps hworker hjob₁ _ _ _ hpush
  have hcancelled (hworker : job.workerID = "") : w₂.jobState id = some .cancelled :=
    pushPendingCancels_cancels hlimit hworker hjob₁ hstate _ _ _ hpush
  refine ⟨w₃, d, last, r₄, hcheck, ?_, hkeys₃.trans (hkeys₂.trans hkeys₁), fun hworker => ?_,
    fun hworker => ?_, fun d' => ?_⟩
  · rw [workers_routine (watchdogTimeouts_routine cron cfg) w₂ _ _ _ hwatchdog,
      workers_routine (pushPendingCancels_routine cfg) w₁ _ _ _ hpush,
      workers_routine (promoteDueJobs_routine cfg) w _ _ _ hpromote]
  · exact ensures_of_body (kept_informed cron cfg .watchdogTimeouts
      (fun _ _ _ h => by simp [Writes, hstate] at h) (hkept hworker)) _ _ _ hwatchdog
  · obtain ⟨job₂, hjob₂, hstate₂⟩ := Option.map_eq_some_iff.mp (hcancelled hworker)
    rw [World.jobState, ensures_of_body (kept_informed cron cfg .watchdogTimeouts
      (fun _ _ _ h => by simp [Writes, hstate₂] at h) hjob₂) _ _ _ hwatchdog, Option.map_some,
      hstate₂]
  · rw [← checkWorkers_marks_once hcheck d', Marking, poll, trace_bind hpromote,
      trace_bind hpush, trace_bind hwatchdog, trace_bind hcheck]
    simp only [List.mem_append]
    constructor
    · rintro (hmem | hmem | hmem | hmem | hmem)
      · cases calls_of_trace (promoteDueJobs_routine cfg) hmem
      · cases calls_of_trace (pushPendingCancels_routine cfg) hmem
      · cases calls_of_trace (watchdogTimeouts_routine cron cfg) hmem
      · exact hmem
      · exact absurd hmem List.not_mem_nil
    · intro hmem
      exact Or.inr (Or.inr (Or.inr (Or.inl hmem)))

end Stages

section Poll

variable {cron : Cron} {cfg : SchedulerConfig} {w w' : World} {id : String} {job : Job}
  {ds : List Draw}

theorem withinLimit_of_card {t : Time} (hlisted : w.store.jobs.keys.card ≤ 1000) :
    WithinLimit cfg w t := by
  intro state _
  refine Or.inl ((Finset.card_le_card fun id hid => ?_).trans hlisted)
  obtain ⟨job, hjob, -⟩ := mem_matching.mp hid
  exact mem_keys.mpr ⟨job, hjob⟩

/-- One poll cancels a job whose cancellation was requested just if the job has no worker or
the poll marks its worker UNAVAILABLE.  What the worker answers makes no difference. -/
theorem poll_cancels_iff (hjob : w.store.jobs.get? id = some job)
    (hstate : job.state = .cancelRequested)
    (hlimit : (w.store.jobs.keys.card : Int) < cfg.assignBatchSize)
    (hlisted : w.store.jobs.keys.card < 1000)
    (hrun : (steady fun _ => True).Runs (poll cron cfg) w ds () w') :
    w'.jobState id = some .cancelled ↔
      job.workerID = "" ∨ ∃ d, Marking cron cfg w ds d ∧ Marks cfg w d.now job.workerID := by
  obtain ⟨w₃, d, last, result, hcheck, hworkers, hkeys, hkept, hcancelled, hmarking⟩ :=
    poll_stages hjob hstate hlimit hrun
  have hmarks : ∀ t workerID, Marks cfg w₃ t workerID ↔ Marks cfg w t workerID := by
    intro t workerID
    rw [Marks, Marks, hworkers]
  by_cases hworker : job.workerID = ""
  · refine iff_of_true ?_ (Or.inl hworker)
    obtain ⟨job₃, hjob₃, hstate₃⟩ := Option.map_eq_some_iff.mp (hcancelled hworker)
    rcases checkWorkers_recovers hcheck hjob₃ with hsame | ⟨-, hactive, -⟩
    · rw [World.jobState, hsame, Option.map_some, hstate₃]
    · rw [hstate₃] at hactive
      cases hactive
  · have hjob₃ := hkept hworker
    constructor
    · intro hdone
      refine Or.inr ⟨d, (hmarking d).mpr rfl, ?_⟩
      rcases checkWorkers_recovers hcheck hjob₃ with hsame | ⟨hmarked, -, -⟩
      · rw [World.jobState, hsame, Option.map_some, hstate] at hdone
        cases hdone
      · exact (hmarks _ _).mp hmarked
    · rintro (hempty | ⟨d', hd', hmarked⟩)
      · exact absurd hempty hworker
      · obtain rfl := (hmarking d').mp hd'
        have hcomplete : RecoveryComplete cfg w₃ d'.now :=
          recoveryComplete_of_withinLimit (withinLimit_of_card (by rw [hkeys]; exact hlisted.le))
        have hrecovered := hcomplete hcheck rfl id job hjob₃ (by rw [hstate]; rfl)
          ((hmarks _ _).mpr hmarked)
        rw [← key_of_get? hjob₃, hrecovered.state, recoveredState, if_pos hstate]

end Poll

/-- The worker refuses the push, so that it runs no execution of the job and has nothing to
report.  The client cancels the job, and a poll leaves it CANCEL_REQUESTED. -/
theorem refused_push_stays_requested :
    ∃ w₁ w₂ w₃ w₄ message ds w',
      receiveRegister oneToken .empty joins {} = (⟨true, "registered"⟩, w₁) ∧
      Performs utcOnly smallConfig memory (.createJob (some echoRequest)) w₁ w₂ ∧
      w₂.queue.items = [message] ∧
      Performs utcOnly smallConfig memory (.handleQueuedJob message) w₂ w₃ ∧
      Performs utcOnly smallConfig memory (.cancelJob "job") w₃ w₄ ∧
      w₄.jobState "job" = some .cancelRequested ∧ w₄.accepted = [] ∧
      (w₄.store.workers.get? "worker").map Worker.status = some .healthy ∧
      (w₄.store.jobs.keys.card : Int) < smallConfig.assignBatchSize ∧
      (steady fun _ => True).Runs (poll utcOnly smallConfig) w₄ ds () w' ∧
      w'.jobState "job" = some .cancelRequested ∧
      (w'.store.workers.get? "worker").map Worker.status = some .healthy := by
  let w₁ := (receiveRegister oneToken .empty joins {}).2
  let w₂ := (perform utcOnly smallConfig memory (.createJob (some echoRequest))
    (createDraws 1 "job") w₁).get (by decide +kernel)
  let message := w₂.queue.items.head (by decide +kernel)
  let refused : List Draw := ((handleDraws 2 "first").take 8).map fun d =>
    { d with reply := .ok (some { accepted := false }) }
  let w₃ := (perform utcOnly smallConfig memory (.handleQueuedJob message) refused w₂).get
    (by decide +kernel)
  let w₄ := (perform utcOnly smallConfig memory (.cancelJob "job")
    (List.replicate 3 { now := 3 }) w₃).get (by decide +kernel)
  let ds : List Draw := sweepDraws 6 4 ++ [{ now := 4, order := ["worker"] }]
  let r := ((steady fun _ => True).exec (poll utcOnly smallConfig) w₄ ds).get (by decide +kernel)
  have hrun : (steady fun _ => True).Runs (poll utcOnly smallConfig) w₄ ds r.1 r.2 :=
    runs_of_get _
  rw [Subsingleton.elim r.1 ()] at hrun
  exact ⟨w₁, w₂, w₃, w₄, message, ds, r.2, rfl, performs_of_get _ _ _, by decide +kernel,
    performs_of_get _ _ _, performs_of_get _ _ _, by decide +kernel, by decide +kernel,
    by decide +kernel, by decide +kernel, hrun, by decide +kernel, by decide +kernel⟩

/-- A job that is to be cancelled on a worker last heard of at time 0. -/
def lostJob : Job := { echoJob .cancelRequested with attempt := 1, workerID := "worker" }

def silentWorker : World :=
  { World.empty with
    store :=
      { Store.putJob .new lostJob with
        workers := Table.empty.put { id := "worker", capacity := 4, lastHeartbeat := 0 } } }

theorem lost_worker_cancels :
    ∃ ds w', (steady fun _ => True).Runs (poll utcOnly smallConfig) silentWorker ds () w' ∧
      w'.jobState "job" = some .cancelled := by
  let mark : Draw := { now := 60 * second, order := ["worker"] }
  let ds : List Draw := sweepDraws 5 (60 * second) ++ mark :: sweepDraws 9 (60 * second)
  let r := ((steady fun _ => True).exec (poll utcOnly smallConfig) silentWorker ds).get
    (by decide +kernel)
  have hrun : (steady fun _ => True).Runs (poll utcOnly smallConfig) silentWorker ds r.1 r.2 :=
    runs_of_get _
  rw [Subsingleton.elim r.1 ()] at hrun
  have hjob : silentWorker.store.jobs.get? "job" = some lostJob := get?_put_self _ _
  have hmarks : Marks smallConfig silentWorker mark.now lostJob.workerID :=
    ⟨_, get?_put_self _ _, by decide⟩
  have hmarking : Marking utcOnly smallConfig silentWorker ds mark :=
    List.mem_of_getElem? (i := 5) rfl
  refine ⟨ds, r.2, hrun, (poll_cancels_iff hjob rfl ?_ ?_ hrun).mpr
    (Or.inr ⟨mark, hmarking, hmarks⟩)⟩
  · decide +kernel
  · decide +kernel

end Chronos.StuckCancels
