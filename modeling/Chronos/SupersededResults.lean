import Chronos.Operations
import Chronos.SchedulerRuns

namespace Chronos.SupersededResults

open Chronos.Domain
open Chronos.Library.CallProgram
open Chronos.Library.CallMachine
open Chronos.Library.KeyedTable
open Chronos.MemoryStore
open Chronos.Operations
open Chronos.SchedulerCalls
open Chronos.SchedulerRuns
open Chronos.SchedulerService
open Chronos.SharedState

def jobWritten (jobID : String) : (c : Call) → Answer c → Prop
  | .updateJobStateIf id _ _ onlyFrom, _ => id = jobID ∧ onlyFrom = []
  | _, _ => False

theorem closeExecution_bind_owes {jobID executionID : String} {state : ExecutionState}
    {result : ExecutionResult} {f : Unit → Prog Unit}
    (hf : (f ()).Owes (jobWritten jobID) fun _ => False) :
    (closeExecution executionID state result >>= f).Owes (jobWritten jobID)
      fun _ => False := by
  unfold closeExecution
  split
  · exact hf
  · exact fun _ => Or.inr hf

theorem scheduleRetry_owes (job : Job) (jobID executionID workerID : String) (attempt : Int)
    (now : Time) (lastError : String) :
    (scheduleRetry job jobID executionID workerID attempt now lastError).Owes
      (jobWritten jobID) fun _ => False := by
  have hwrite : ∀ delay, (do
      let _ ← ask (.updateJobStateIf jobID .retrying
        { nextRetryAt := some (now + delay), lastError := some lastError,
          workerID := some "", executionID := some "" } [])
      let _ ← emit .jobRetryScheduled jobID executionID workerID attempt
      return () : Prog Unit).Owes (jobWritten jobID) fun _ => False :=
    fun delay _ => Or.inl ⟨rfl, rfl⟩
  unfold scheduleRetry backoffDelay
  split
  · exact fun _ => Or.inr (hwrite _)
  · exact hwrite _

theorem settleResult_owes (cron : Cron) (job : Job) (jobID executionID workerID : String)
    (attempt : Int) (result : ExecutionResult) (now : Time) :
    (settleResult cron job jobID executionID workerID attempt result now).Owes
      (jobWritten jobID) fun _ => False := by
  unfold settleResult
  split
  · exact closeExecution_bind_owes fun _ => Or.inl ⟨rfl, rfl⟩
  split
  · exact closeExecution_bind_owes fun _ => Or.inl ⟨rfl, rfl⟩
  split
  · refine closeExecution_bind_owes ((owes_perform ..).mpr fun _ => Or.inr ?_)
    split
    · exact scheduleRetry_owes job jobID executionID workerID attempt now _
    · exact fun _ => Or.inl ⟨rfl, rfl⟩
  · refine closeExecution_bind_owes ((owes_perform ..).mpr fun _ => Or.inr ?_)
    split
    · exact scheduleRetry_owes job jobID executionID workerID attempt now _
    · exact fun _ => Or.inl ⟨rfl, rfl⟩

def WrittenAt (jobID : String) (t : Time) (w : World) : Prop :=
  ∃ job, w.store.jobs.get? jobID = some job ∧ job.updatedAt = t

theorem writtenAt_step {jobID : String} {w : World} {d : Draw} (hw : WrittenAt jobID d.now w)
    (c : Call) : WrittenAt jobID d.now (step c w d).2 := by
  obtain ⟨job, hjob, ht⟩ := hw
  unfold WrittenAt
  rcases step_jobs c w d with hsame | ⟨created, -, hput⟩ | ⟨_, _, _, _, old, -, -, -, hput⟩
  · rw [hsame]
    exact ⟨job, hjob, ht⟩
  all_goals
    rw [hput, get?_put]
    split
    · exact ⟨_, rfl, rfl⟩
    · exact ⟨job, hjob, ht⟩

theorem settleResult_writes (cron : Cron) (job : Job) (jobID executionID workerID : String)
    (attempt : Int) (result : ExecutionResult) (now t : Time) {w : World}
    (hw : ∃ job, w.store.jobs.get? jobID = some job) :
    (steady fun now => now = t).Ensures
      (settleResult cron job jobID executionID workerID attempt result now) w
      fun _ w' => WrittenAt jobID t w' := by
  refine ensures_mono (ensures_of_owes
    (K := fun w => ∃ job, w.store.jobs.get? jobID = some job) ?_ ?_ ?_
    (settleResult_calls cron job jobID executionID workerID attempt result now)
    (settleResult_owes cron job jobID executionID workerID attempt result now) hw)
    fun _ _ hpaid => hpaid.resolve_left not_false
  · exact fun c w d _ _ hw => stored_step hw c d
  · rintro c w d hdue ⟨-, hstore, rfl⟩ ⟨stored, hstored⟩
    cases c with
    | updateJobStateIf id state fields onlyFrom =>
        obtain ⟨rfl, rfl⟩ := hdue
        change WrittenAt id d.now (step _ w d).2
        refine ⟨applyUpdate stored state fields d.now, ?_, rfl⟩
        simp only [step, guarded_of_none (hstore rfl),
          updateJobStateIf_of_some hstored state fields (Or.inl rfl), putJob_jobs]
        exact get?_put_applyUpdate hstored state fields d.now
    | _ => exact hdue.elim
  · rintro c w d _ ⟨-, -, rfl⟩ hw
    exact writtenAt_step hw c

/-- Every run of `HandleResult` leaves all jobs and executions alone exactly if
the job is terminal; the execution that the result names plays no part. -/
theorem handleResult_ignored_iff (cron : Cron) {w : World} {job : Job} {jobID : String}
    (executionID workerID : String) (attempt : Int) (result : ExecutionResult)
    (hjob : w.store.jobs.get? jobID = some job) :
    (memory.Ensures (handleResult cron jobID executionID workerID attempt result) w
      fun _ w' => w'.store.jobs = w.store.jobs ∧
        w'.store.executions = w.store.executions) ↔ job.state.terminal := by
  constructor
  · intro hignored
    by_contra hlive
    -- a run whose clocks do not read the time of the last write
    obtain ⟨t, ht⟩ : ∃ t, job.updatedAt ≠ t := ⟨_, (lt_add_one job.updatedAt).ne⟩
    have hwrites : (steady fun now => now = t).Ensures
        (handleResult cron jobID executionID workerID attempt result) w
        fun _ w' => WrittenAt jobID t w' := by
      refine handleResult_ensures cron ?_ ?_ ?_
      · intro hmissing
        simp [hjob] at hmissing
      · intro _ hsame hterminal
        rw [hjob, Option.some.injEq] at hsame
        exact absurd (hsame ▸ hterminal) hlive
      · intro live _ _ registry now
        exact settleResult_writes cron live jobID executionID workerID attempt _ now t
          ⟨job, hjob⟩
    obtain ⟨ds, outcome, w', hmemory, hclock⟩ := exists_runs_at t
      (handleResult cron jobID executionID workerID attempt result) w
    obtain ⟨written, hwritten, htime⟩ := hwrites ds outcome w' hclock
    rw [(hignored ds outcome w' hmemory).1, hjob, Option.some.injEq] at hwritten
    subst hwritten
    exact ht htime
  · intro hterminal
    refine ensures_memory (handleResult_ensures cron ?_ ?_ ?_)
    · exact fun _ _ => ⟨rfl, rfl⟩
    · exact fun _ _ _ _ => ⟨rfl, rfl⟩
    · intro live hsame hlive
      rw [hjob, Option.some.injEq] at hsame
      simp [hsame, hlive] at hterminal

/-- A result of an execution that is not the current one of its job is ignored,
for every clock, exactly if the job is terminal. -/
theorem superseded_ignored_iff (cron : Cron) {w : World} {job : Job}
    {jobID : String} (executionID workerID : String) (attempt : Int)
    (result : ExecutionResult) (hjob : w.store.jobs.get? jobID = some job) :
    (executionID ≠ job.executionID →
      memory.Ensures (handleResult cron jobID executionID workerID attempt result) w
        fun _ w' => w'.store.jobs = w.store.jobs ∧
          w'.store.executions = w.store.executions) ↔
      executionID = job.executionID ∨ job.state.terminal := by
  rw [handleResult_ignored_iff cron executionID workerID attempt result hjob, or_iff_not_imp_left]

/-- The first execution times out and the job is run again; when the worker
reports the first one late, the job is completed while the second runs. -/
theorem late_result_completes_job :
    ∃ w₀ w₁ w₂ w₃ w₄ w₅ : World,
      Performs utcOnly smallConfig memory (.createJob (some echoRequest)) idleWorker w₀ ∧
      (∃ message ∈ w₀.queue.items,
        Performs utcOnly smallConfig memory (.handleQueuedJob message) w₀ w₁) ∧
      Performs utcOnly smallConfig memory .watchdogTimeouts w₁ w₂ ∧
      Performs utcOnly smallConfig memory .promoteDueJobs w₂ w₃ ∧
      (∃ message ∈ w₃.queue.items,
        Performs utcOnly smallConfig memory (.handleQueuedJob message) w₃ w₄) ∧
      (w₄.store.jobs.get? "job").map (fun job => (job.state, job.executionID)) =
        some (.running, "second") ∧
      (∃ push ∈ w₄.accepted, push.request.executionID = "first") ∧
      Performs utcOnly smallConfig memory (.handleResult "job" "first" "worker" 1 succeeded) w₄ w₅ ∧
      w₅.jobState "job" = some .completed ∧
      (w₄.store.executions.get? "first").map JobExecution.state = some .timeout ∧
      (w₅.store.executions.get? "first").map JobExecution.state = some .completed := by
  let w₀ := (perform utcOnly smallConfig memory (.createJob (some echoRequest))
    (createDraws 1 "job") idleWorker).get (by decide +kernel)
  let w₁ := (perform utcOnly smallConfig memory (.handleQueuedJob echoMessage)
    (handleDraws 2 "first") w₀).get (by decide +kernel)
  let w₂ := (perform utcOnly smallConfig memory .watchdogTimeouts
    (sweepDraws 12 (31 * second)) w₁).get (by decide +kernel)
  let w₃ := (perform utcOnly smallConfig memory .promoteDueJobs
    (sweepDraws 6 (33 * second)) w₂).get (by decide +kernel)
  let message : QueuedJob := { echoMessage with attempt := 1, enqueuedAt := 33 * second }
  let w₄ := (perform utcOnly smallConfig memory (.handleQueuedJob message)
    (handleDraws (34 * second) "second") w₃).get (by decide +kernel)
  let w₅ := (perform utcOnly smallConfig memory (.handleResult "job" "first" "worker" 1 succeeded)
    (List.replicate 7 { now := 35 * second }) w₄).get (by decide +kernel)
  exact ⟨w₀, w₁, w₂, w₃, w₄, w₅, performs_of_get _ _ _,
    ⟨echoMessage, by decide +kernel, performs_of_get _ _ _⟩, performs_of_get _ _ _,
    performs_of_get _ _ _, ⟨message, by decide +kernel, performs_of_get _ _ _⟩,
    by decide +kernel, by decide +kernel, performs_of_get _ _ _, by decide +kernel,
    by decide +kernel, by decide +kernel⟩

theorem late_result_on_cancelled_ignored :
    "first" ≠ (echoJob .cancelled).executionID ∧
      memory.Ensures (handleResult utcOnly "job" "first" "worker" 1 succeeded)
        (oneWorker (echoJob .cancelled) []) fun _ w' =>
          w'.store.jobs = (oneWorker (echoJob .cancelled) []).store.jobs ∧
            w'.store.executions = (oneWorker (echoJob .cancelled) []).store.executions :=
  ⟨by decide, (superseded_ignored_iff utcOnly "first" "worker" 1 succeeded
    (get?_put_self _ (echoJob .cancelled))).mpr (Or.inr rfl) (by decide)⟩

end Chronos.SupersededResults
