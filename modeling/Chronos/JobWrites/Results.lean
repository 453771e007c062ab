import Chronos.JobWrites

namespace Chronos.JobWrites

open Chronos.Domain
open Chronos.Library.CallProgram
open Chronos.MemoryStore
open Chronos.Operations
open Chronos.SchedulerCalls (handleResult_calls promoteJob_calls pushCancel_calls
  stopExecution_calls withReason_success)
open Chronos.SchedulerService
open Chronos.SharedState

section Walks

variable {task : Task} {φ : Told}

theorem closeExecution_follows (executionID : String) (state : ExecutionState)
    (result : ExecutionResult) (hcalm : φ.completing = none) :
    (closeExecution executionID state result).Follows (informed task) (fun ψ _ => ψ = φ) φ := by
  unfold closeExecution
  split
  · exact rfl
  · exact (follows_perform ..).mpr ⟨hcalm, fun _ => rfl⟩

theorem scheduleRetry_follows {job : Job} {jobID executionID workerID : String}
    {attempt : Int} {now : Time} {lastError : String} (hcalm : φ.completing = none)
    (hwrites : ∀ nextRetryAt, φ.Knows jobID fun job => Writes task jobID job .retrying
      { nextRetryAt := some nextRetryAt, lastError := some lastError, workerID := some "",
        executionID := some "" } []) :
    (scheduleRetry job jobID executionID workerID attempt now lastError).Follows
      (informed task) Calm φ := by
  have hdelay : (backoffDelay job.retryPolicy attempt).Follows (informed task)
      (fun ψ _ => ψ = φ) φ := by
    unfold backoffDelay
    split
    · exact (follows_perform ..).mpr ⟨hcalm, fun _ => rfl⟩
    · exact rfl
  refine follows_bind hdelay ?_
  rintro _ delay rfl
  refine update_follows hcalm rfl (Or.inr ⟨rfl, rfl, Or.inr rfl⟩) JobState.noConfusion
    (hwrites _) fun _ => ?_
  exact emit_follows rfl EventType.noConfusion fun _ => rfl

theorem maybeRescheduleRecurring_follows (cron : Cron) (job : Job) (start : Time)
    (hcalm : φ.completing = none)
    (hcreates : ∀ child, child.state = .scheduled → child.scheduledAt.isSome →
      child.attempt = 0 → child.executionID = "" → child.id = "" →
      child.idempotencyKey = "" → Creates task child) :
    (maybeRescheduleRecurring cron job start).Follows (informed task) Calm φ := by
  unfold maybeRescheduleRecurring
  split
  · exact hcalm
  split
  · exact hcalm
  · refine (follows_perform ..).mpr ⟨⟨hcalm, ?_, Or.inl rfl⟩, fun created => ?_⟩
    · exact hcreates _ rfl rfl rfl rfl rfl rfl
    · cases created with
      | error e => exact hcalm
      | ok child => exact emit_follows hcalm EventType.noConfusion fun _ => rfl

theorem settle_follows {job : Job} {jobID : String} {attempt : Int} {result : ExecutionResult}
    {state : JobState} {fields : Fields} {f : Except Err Unit → Prog Unit}
    {final : Told → Unit → Prop} (hcalm : φ.completing = none)
    (hwrites : ∀ state fields, Settles job attempt result state fields →
      φ.Knows jobID fun job => Writes task jobID job state fields [])
    (hsettles : Settles job attempt result state fields) (hsets : φ.Sets fields state)
    (hf : ∀ answer, (f answer).Follows (informed task) final (φ.wrote jobID state answer)) :
    (ask (.updateJobStateIf jobID state fields []) >>= f).Follows (informed task) final φ := by
  refine update_follows hcalm hsets (Or.inr hsettles.2.1) ?_ (hwrites _ _ hsettles) hf
  rintro rfl
  exact hsettles.2.2

theorem settleResult_follows (cron : Cron) {job : Job} {jobID executionID workerID : String}
    {attempt : Int} {result : ExecutionResult} (now : Time) (hcalm : φ.completing = none)
    (hlive : job.state.terminal = false)
    (hwrites : ∀ state fields, Settles job attempt result state fields →
      φ.Knows jobID fun job => Writes task jobID job state fields [])
    (hcreates : result.success → ∀ child, child.state = .scheduled →
      child.scheduledAt.isSome → child.attempt = 0 → child.executionID = "" →
      child.id = "" → child.idempotencyKey = "" → Creates task child) :
    (settleResult cron job jobID executionID workerID attempt result now).Follows
      (informed task) Calm φ := by
  have hclose : ∀ state, (closeExecution executionID state result).Follows (informed task)
      (fun ψ _ => ψ = φ) φ :=
    fun state => closeExecution_follows executionID state result hcalm
  unfold settleResult
  split
  · rename_i hcancel
    refine follows_bind (hclose _) ?_
    rintro _ _ rfl
    refine settle_follows hcalm hwrites ⟨hlive, ⟨rfl, rfl, Or.inl ⟨rfl, rfl⟩⟩, hcancel⟩ rfl
      fun _ => ?_
    exact emit_follows rfl EventType.noConfusion fun _ => rfl
  · rename_i hcancel
    rw [not_or] at hcancel
    split
    · rename_i hsuccess
      refine follows_bind (hclose _) ?_
      rintro _ _ rfl
      refine settle_follows hcalm hwrites
        ⟨hlive, ⟨rfl, rfl, Or.inl ⟨rfl, rfl⟩⟩, hcancel.2, hsuccess⟩ rfl fun _ => ?_
      refine (follows_perform ..).mpr ⟨⟨rfl, rfl⟩, fun _ => ?_⟩
      exact maybeRescheduleRecurring_follows cron job now rfl (hcreates hsuccess)
    split
    · refine follows_bind (hclose _) ?_
      rintro _ _ rfl
      refine emit_follows hcalm EventType.noConfusion fun _ => ?_
      split
      · rename_i hattempt
        exact scheduleRetry_follows rfl fun _ =>
          hwrites _ _ ⟨hlive, ⟨rfl, rfl, Or.inr rfl⟩, hcancel.2, hattempt, rfl⟩
      · exact settle_follows rfl hwrites ⟨hlive, ⟨rfl, rfl, Or.inl ⟨rfl, rfl⟩⟩, hcancel.2⟩ rfl
          fun _ => rfl
    · refine follows_bind (hclose _) ?_
      rintro _ _ rfl
      refine emit_follows hcalm EventType.noConfusion fun _ => ?_
      split
      · rename_i hattempt
        exact scheduleRetry_follows rfl fun _ =>
          hwrites _ _ ⟨hlive, ⟨rfl, rfl, Or.inr rfl⟩, hcancel.2, hattempt.2, rfl⟩
      · exact settle_follows rfl hwrites ⟨hlive, ⟨rfl, rfl, Or.inl ⟨rfl, rfl⟩⟩, hcancel.2⟩ rfl
          fun _ => rfl

/-- `HandleResult` writes what its task allows over whatever record agrees with the facts
already known. -/
theorem handleResult_follows (cron : Cron) {jobID executionID workerID : String}
    {attempt : Int} {result : ExecutionResult} (hcalm : φ.completing = none)
    (hwrites : ∀ job, ¬ φ.stale → (∀ entry ∈ φ.known, entry.1 = jobID → entry.2 job) →
      ∀ state fields, Settles job attempt (withReason result) state fields →
      Writes task jobID job state fields [])
    (hcreates : result.success → ∀ child, child.state = .scheduled →
      child.scheduledAt.isSome → child.attempt = 0 → child.executionID = "" →
      child.id = "" → child.idempotencyKey = "" → Creates task child) :
    (handleResult cron jobID executionID workerID attempt result).Follows
      (informed task) Calm φ := by
  refine (follows_perform ..).mpr ⟨hcalm, fun _ => ?_⟩
  refine (follows_perform ..).mpr ⟨hcalm, fun _ => ?_⟩
  refine (follows_perform ..).mpr ⟨hcalm, fun read => ?_⟩
  cases read with
  | error e => exact hcalm
  | ok job =>
      dsimp only
      split
      · exact hcalm
      · rename_i hlive
        refine (follows_perform ..).mpr ⟨hcalm, fun now => ?_⟩
        refine follows_bind (settleResult_follows cron now hcalm (by simpa using hlive) ?_ ?_)
          fun _ _ hψ => hψ
        · intro state fields hsettles
          exact knows_learn fun hfresh hagrees => hwrites job hfresh hagrees state fields hsettles
        · rw [withReason_success]
          exact hcreates

theorem stopExecution_follows {job : Job} (hcalm : φ.completing = none)
    (hstops : φ.Knows job.id (Stops task)) :
    (stopExecution job).Follows (informed task) (fun ψ _ => ψ = φ) φ := by
  unfold stopExecution
  split
  · exact rfl
  · refine (follows_perform ..).mpr ⟨hcalm, fun found => ?_⟩
    cases found with
    | none => exact rfl
    | some wc => exact (follows_perform ..).mpr ⟨⟨hcalm, hstops⟩, fun _ => rfl⟩

theorem watchdogTimeout_follows (cron : Cron) {job : Job} (hcalm : φ.completing = none)
    (hknows : φ.Knows job.id fun found =>
      found = job ∧ (job.state = .running ∨ job.state = .assigned)) :
    (watchdogTimeout cron job).Follows (informed .watchdogTimeouts) Calm φ := by
  have hstops : φ.Knows job.id (Stops .watchdogTimeouts) := by
    refine knows_imp hknows ?_
    rintro _ ⟨rfl, hstate⟩
    exact hstate
  refine follows_bind (stopExecution_follows hcalm hstops) ?_
  rintro _ _ rfl
  refine follows_bind (handleResult_follows cron hcalm ?_ ?_) fun _ _ hψ => hψ
  · intro found hfresh hagrees state fields hsettles
    obtain ⟨Q, hQ, himplies⟩ := hknows hfresh
    obtain ⟨rfl, hstate⟩ := himplies found (hagrees _ hQ rfl)
    exact ⟨hstate, rfl, hsettles⟩
  · exact fun hsuccess => absurd hsuccess Bool.false_ne_true

theorem watchdogTimeout_touches (cron : Cron) (job : Job) :
    (watchdogTimeout cron job).CallsOnly (touches job.id) := by
  have hstop : (stopExecution job).CallsOnly (touches job.id) := by
    refine callsOnly_mono (stopExecution_calls job) fun c hc => ?_
    cases c <;> trivial
  refine callsOnly_bind hstop fun _ => callsOnly_bind ?_ fun _ => trivial
  refine callsOnly_mono (handleResult_calls ..) fun c hc => ?_
  cases c with
  | updateJobStateIf id state fields onlyFrom => exact hc.1
  | _ => trivial

theorem watchdogTimeouts_follows (cron : Cron) (cfg : SchedulerConfig) :
    (watchdogTimeouts cron cfg).Follows (informed .watchdogTimeouts) Calm {} := by
  refine (follows_perform ..).mpr ⟨rfl, fun now => ?_⟩
  refine (follows_perform ..).mpr ⟨rfl, fun listed => ?_⟩
  cases listed with
  | error e => exact rfl
  | ok jobs =>
      have hready : Ready (fun state => state = .running ∨ state = .assigned) jobs
        (Told.learnAll {} _ jobs) := ready_learnAll rfl jobs
      exact follows_bind (forEach_follows (fun _ _ => watchdogTimeout_follows cron)
        (watchdogTimeout_touches cron) hready) fun _ _ h => h.calm

end Walks

end Chronos.JobWrites
