import Chronos.RetryBudget.Delivery

namespace Chronos.FailedDispatch

open Chronos.Domain
open Chronos.Library.CallProgram
open Chronos.Library.CallMachine
open Chronos.Library.KeyedTable
open Chronos.MemoryStore
open Chronos.Operations
open Chronos.RetryBudget (accepting accepting_step assignJob_accepted)
open Chronos.SchedulerService
open Chronos.SharedState

/-- A delivery fails before its push: the job cannot be read, no worker can be picked, or
the store refuses the execution or the update to ASSIGNED. -/
def FailsBeforePush (w : World) (ds : List Draw) : Prop :=
  (∃ d ∈ ds[0]?, d.fault.isSome) ∨
    (∃ d ∈ ds[1]?, pickWorker (w.registry.workers.inOrder d.order) = none) ∨
    (∃ d ∈ ds[3]?, d.fault.isSome) ∨ ∃ d ∈ ds[5]?, d.fault.isSome

instance (w : World) (ds : List Draw) : Decidable (FailsBeforePush w ds) :=
  inferInstanceAs (Decidable (_ ∨ _))

/-- A world in which a delivery can succeed: the job is as the failed delivery left it,
and a registered worker has a free slot.  Everything else may have changed. -/
structure Ready (jobID : String) (w w' : World) : Prop where
  job : w'.store.jobs.get? jobID = w.store.jobs.get? jobID
  worker : ∃ id wc, w'.registry.workers.get? id = some wc ∧ wc.info.isAssignable

/-- The same message, delivered again where the push is accepted and the store does not
fail, starts the job. -/
def Restarts (message : QueuedJob) (w : World) : Prop :=
  ∀ {w₁ ds result w₂}, Ready message.jobID w w₁ →
    accepting.Runs (handleQueuedJob message) w₁ ds result w₂ →
    result = .ok () ∧ w₂.jobState message.jobID = some .running

section FirstDelivery

variable {message : QueuedJob} {w : World} {job : Job}

/-- Once the job is ASSIGNED, no failure takes that back. -/
theorem pushJob_failed (message : QueuedJob) (wc : WorkerConn) (executionID : String) (now : Time)
    (hjob : w.store.jobs.get? message.jobID = some job) :
    failing.Ensures (pushJob message wc executionID now) w fun result w' =>
      result ≠ .ok () → w'.store.jobs = w.store.jobs := by
  refine ensures_perform fun d _ => ?_
  simp only [failing_step, step]
  split
  · exact ensures_ret fun _ => by rw [acceptedPush_store]
  · refine ensures_perform fun d₁ _ => ?_
    have hstored : (acceptedPush w wc.info.id (executeJobRequest message executionID)
        d.reply).store.jobs.get? message.jobID = some job := by simpa using hjob
    simp only [failing_step, step]
    cases hfault : d₁.fault with
    | some e =>
        rw [guarded_of_some hfault]
        exact ensures_ret fun _ => by rw [acceptedPush_store]
    | none =>
        rw [guarded_of_none hfault, updateJobStateIf_of_some hstored _ _ (Or.inl rfl)]
        exact ensures_perform fun _ _ => ensures_perform fun _ _ =>
          ensures_ret fun hne => absurd rfl hne

theorem assignJob_failed (wc : WorkerConn) {ds : List Draw} {e : Err} {w' : World}
    (hjob : w.store.jobs.get? message.jobID = some job)
    (hrun : failing.Runs (assignJob message wc) w ds (.error e) w') :
    if (∃ d ∈ ds[1]?, d.fault.isSome) ∨ ∃ d ∈ ds[3]?, d.fault.isSome then
      w'.store.jobs = w.store.jobs
    else w'.jobState message.jobID = some .assigned := by
  obtain ⟨d, ds, rfl, -, hrun⟩ := runs_perform_iff.mp hrun
  obtain ⟨d₁, ds, rfl, -, hrun⟩ := runs_perform_iff.mp hrun
  simp only [failing_step, step] at hrun
  cases hfault : d₁.fault with
  | some e₁ =>
      rw [guarded_of_some hfault] at hrun
      obtain ⟨-, -, rfl⟩ := runs_ret_iff.mp hrun
      simp [hfault]
  | none =>
      rw [guarded_of_none hfault] at hrun
      obtain ⟨d₂, ds, rfl, -, hrun⟩ := runs_perform_iff.mp hrun
      obtain ⟨d₃, ds, rfl, -, hrun⟩ := runs_perform_iff.mp hrun
      simp only [failing_step, step] at hrun
      cases hfault₃ : d₃.fault with
      | some e₃ =>
          rw [guarded_of_some hfault₃] at hrun
          obtain ⟨-, -, rfl⟩ := runs_ret_iff.mp hrun
          simp [hfault₃, Store.createExecution]
      | none =>
          rw [guarded_of_none hfault₃,
            updateJobStateIf_of_some (s := Store.createExecution ..) hjob _ _ (Or.inl rfl)] at hrun
          obtain ⟨d₄, ds, rfl, -, hrun⟩ := runs_perform_iff.mp hrun
          have hassigned := get?_put_applyUpdate hjob .assigned
            { workerID := some wc.info.id, executionID := some d.uuid,
              attempt := some (message.attempt + 1) } d₃.now
          have hkept := pushJob_failed { message with
            attempt := message.attempt + 1, executionID := d.uuid } wc d.uuid d₂.now
            (by rw [failing_step, (quiet_step rfl _ _).1]; exact hassigned) _ _ _ hrun
            (by simp)
          rw [failing_step, (quiet_step rfl _ _).1] at hkept
          rw [if_neg (by simp [hfault, hfault₃]), World.jobState, hkept]
          exact congrArg (Option.map Job.state) hassigned

/-- What a failed delivery leaves: the job table as it was, or the job ASSIGNED. -/
theorem handleQueuedJob_failed {ds : List Draw} {e : Err} {w' : World}
    (hjob : w.store.jobs.get? message.jobID = some job) (hstate : job.state.queueable)
    (hrun : failing.Runs (handleQueuedJob message) w ds (.error e) w') :
    if FailsBeforePush w ds then w'.store.jobs = w.store.jobs
    else w'.jobState message.jobID = some .assigned := by
  obtain ⟨d₀, ds, rfl, -, hrun⟩ := runs_perform_iff.mp hrun
  simp only [failing_step, step] at hrun
  cases hfault : d₀.fault with
  | some e₀ =>
      rw [guarded_of_some hfault] at hrun
      obtain ⟨-, -, rfl⟩ := runs_ret_iff.mp hrun
      simp [FailsBeforePush, hfault]
  | none =>
      simp only [guarded_of_none hfault, getJob_of_some hjob, hstate, if_true] at hrun
      obtain ⟨d₁, ds, rfl, -, hrun⟩ := runs_perform_iff.mp hrun
      simp only [failing_step, step] at hrun
      split at hrun
      · rename_i hpick
        obtain ⟨-, -, rfl⟩ := runs_ret_iff.mp hrun
        simp [FailsBeforePush, hpick]
      · rename_i wc hpick
        have hleft := assignJob_failed wc hjob hrun
        simpa [FailsBeforePush, hfault, hpick] using hleft

end FirstDelivery

section SecondDelivery

variable {message : QueuedJob} {w : World} {job : Job}

theorem handleQueuedJob_ready (hjob : w.store.jobs.get? message.jobID = some job)
    (hstate : job.state.queueable)
    (hworker : ∃ id wc, w.registry.workers.get? id = some wc ∧ wc.info.isAssignable) :
    accepting.Ensures (handleQueuedJob message) w fun result w' =>
      result.isOk ∧ w'.jobState message.jobID = some .running := by
  refine ensures_perform fun d hd => ?_
  simp only [accepting_step, step, guarded_of_none (hd.1.2.1 rfl), getJob_of_some hjob, hstate,
    if_true]
  refine ensures_perform fun d₁ hd₁ => ?_
  simp only [accepting_step, step]
  split
  · rename_i hnone
    obtain ⟨id, wc, hwc, hassignable⟩ := hworker
    obtain rfl := key_of_get? hwc
    have horder : w.registry.workers.Enumerates d₁.order := hd₁.1.1
    have hmem := (Enumerates.mem_inOrder horder).mpr hwc
    exact absurd hnone (pickWorker_ne_none hmem hassignable)
  · exact assignJob_accepted _ hjob

/-- A delivery that finds the job in no state to start from acknowledges the message. -/
theorem handleQueuedJob_skips (hjob : w.store.jobs.get? message.jobID = some job)
    (hstate : job.state.queueable = false) :
    accepting.Runs (handleQueuedJob message) w [{}] (.ok ()) w := by
  refine runs_perform_iff.mpr ⟨{}, [], rfl, ⟨⟨trivial, fun _ => rfl, trivial⟩, rfl⟩, ?_⟩
  simp only [accepting_step, step, guarded_of_none, getJob_of_some hjob, hstate,
    Bool.false_eq_true, if_false]
  exact .ret _ _

end SecondDelivery

/-- After a delivery that failed, the same message starts the job just if the failure came
before the push. -/
theorem failed_dispatch_restarts_iff {message : QueuedJob} {w w' : World} {job : Job}
    {ds : List Draw} {e : Err} (hjob : w.store.jobs.get? message.jobID = some job)
    (hstate : job.state.queueable)
    (hrun : failing.Runs (handleQueuedJob message) w ds (.error e) w') :
    Restarts message w' ↔ FailsBeforePush w ds := by
  have hleft := handleQueuedJob_failed hjob hstate hrun
  constructor
  · intro hrestarts
    by_contra hafter
    rw [if_neg hafter] at hleft
    obtain ⟨left, hfound, hassigned⟩ := Option.map_eq_some_iff.mp hleft
    let w₁ : World := { w' with registry := idleWorker.registry }
    have hready : Ready message.jobID w' w₁ := ⟨rfl, "worker", _, rfl, by decide⟩
    have hskips := handleQueuedJob_skips (w := w₁) hfound (by rw [hassigned]; rfl)
    have hrunning := (hrestarts hready hskips).2
    rw [World.jobState, hfound, Option.map_some, hassigned] at hrunning
    cases hrunning
  · intro hbefore w₁ ds₁ result w₂ hready hagain
    rw [if_pos hbefore] at hleft
    have hfound : w₁.store.jobs.get? message.jobID = some job := by
      rw [hready.job, hleft, hjob]
    obtain ⟨hok, hrunning⟩ := handleQueuedJob_ready hfound hstate hready.worker _ _ _ hagain
    refine ⟨?_, hrunning⟩
    cases result with
    | error e => cases hok
    | ok _ => rfl

def pushRefused : List Draw :=
  { now := 2 } :: { order := ["worker"] } :: { uuid := "first" } ::
    List.replicate 4 { now := 2 } ++ [{ reply := .error (.external "connection refused") }]

/-- The connection to the worker is refused after the job is ASSIGNED.  The message comes
back, and is acknowledged without a push. -/
theorem refused_push_acknowledged :
    ∃ w₁ w₂ : World,
      failing.Runs (handleQueuedJob echoMessage) (oneWorker (echoJob .queued) []) pushRefused
        (.error (.external "connection refused")) w₁ ∧
      Ready "job" w₁ w₁ ∧
      accepting.Runs (handleQueuedJob echoMessage) w₁ [{}] (.ok ()) w₂ ∧
      w₂.jobState "job" = some .assigned ∧ w₂.accepted = [] := by
  let w₁ := ((failing.exec (handleQueuedJob echoMessage) (oneWorker (echoJob .queued) [])
    pushRefused).get (by decide +kernel)).2
  let w₂ := ((accepting.exec (handleQueuedJob echoMessage) w₁ [{}]).get (by decide +kernel)).2
  have hrefused : failing.Runs (handleQueuedJob echoMessage) (oneWorker (echoJob .queued) [])
      pushRefused (.error (.external "connection refused")) w₁ :=
    runs_of_get (M := failing) (by decide +kernel)
  have hagain : accepting.Runs (handleQueuedJob echoMessage) w₁ [{}] (.ok ()) w₂ :=
    runs_of_get (M := accepting) (by decide +kernel)
  exact ⟨w₁, w₂, hrefused, ⟨rfl, "worker", _, rfl, by decide⟩, hagain, by decide +kernel,
    by decide +kernel⟩

theorem delivery_without_worker_restarts :
    ∃ w' : World,
      failing.Runs (handleQueuedJob echoMessage)
        { oneWorker (echoJob .queued) [] with registry := .new } [{}, {}] (.error .noWorker) w' ∧
      Restarts echoMessage w' := by
  let w : World := { oneWorker (echoJob .queued) [] with registry := .new }
  have hrun : failing.Runs (handleQueuedJob echoMessage) w [{}, {}] (.error .noWorker) w :=
    runs_of_get (M := failing) (by decide +kernel)
  have hjob : w.store.jobs.get? echoMessage.jobID = some (echoJob .queued) := rfl
  exact ⟨w, hrun, (failed_dispatch_restarts_iff hjob rfl hrun).mpr (by decide +kernel)⟩

end Chronos.FailedDispatch
