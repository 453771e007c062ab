import Chronos.SchedulerCalls
import Chronos.SharedState.Steps

namespace Chronos.SchedulerRuns

open Chronos.Domain
open Chronos.Library.CallProgram
open Chronos.Library.CallMachine
open Chronos.Library.KeyedTable
open Chronos.MemoryStore
open Chronos.SchedulerCalls
open Chronos.SchedulerService
open Chronos.SharedState

variable {clock : Time → Prop}

/-- What is left to show of `HandleResult` once it has read the job: the job is
missing, terminal or settled, and so far only the registry has changed. -/
theorem handleResult_ensures (cron : Cron) {jobID executionID workerID : String}
    {attempt : Int} {result : ExecutionResult} {w : World}
    {Q : Except Err Unit → World → Prop}
    (hmissing : w.store.jobs.get? jobID = none →
      ∀ registry, Q (.error .notFound) { w with registry := registry })
    (hterminal : ∀ job, w.store.jobs.get? jobID = some job → job.state.terminal →
      ∀ registry, Q (.ok ()) { w with registry := registry })
    (hsettle : ∀ job, w.store.jobs.get? jobID = some job → job.state.terminal = false →
      ∀ registry now, (steady clock).Ensures
        (settleResult cron job jobID executionID workerID attempt (withReason result) now)
        { w with registry := registry } fun _ w' => Q (.ok ()) w') :
    (steady clock).Ensures (handleResult cron jobID executionID workerID attempt result)
      w Q := by
  refine ensures_perform fun _ _ => ensures_perform fun _ _ => ensures_perform fun d hd => ?_
  simp only [steady_step, step, guarded_of_none (hd.2.1 rfl)]
  cases hjob : w.store.jobs.get? jobID with
  | none =>
      rw [getJob_of_none hjob]
      exact ensures_ret (hmissing hjob _)
  | some job =>
      rw [getJob_of_some hjob]
      cases hstate : job.state.terminal with
      | true =>
          simp only [hstate, if_true]
          exact ensures_ret (hterminal job hjob hstate _)
      | false =>
          simp only [hstate, Bool.false_eq_true, if_false]
          refine ensures_perform fun d _ => ensures_bind ?_
          simp only [steady_step, step]
          exact ensures_mono (hsettle job hjob hstate _ _) fun _ _ hQ => ensures_ret hQ

theorem ensures_quiet {α : Type} {p : Prog α} (hp : p.CallsOnly fun c => c.quiet) (w : World) :
    (steady clock).Ensures p w fun _ w' =>
      w'.store.jobs = w.store.jobs ∧ w'.store.executions = w.store.executions := by
  refine ensures_of_calls ?_ hp ⟨rfl, rfl⟩
  intro c w₁ d hc _ hw₁
  exact ⟨(quiet_step hc w₁ d).1.trans hw₁.1, (quiet_step hc w₁ d).2.trans hw₁.2⟩

theorem pushJob_ensures {message : QueuedJob} (wc : WorkerConn) (executionID : String)
    (now : Time) {w : World} (job : Job)
    (hjob : w.store.jobs.get? message.jobID = some job) :
    (steady clock).Ensures (pushJob message wc executionID now) w fun _ w' =>
      w'.store.executions = w.store.executions ∧
        (w'.store.jobs = w.store.jobs ∨ ∃ updatedAt, w'.store.jobs = w.store.jobs.put
          (applyUpdate job .running { startedAt := some now } updatedAt)) := by
  refine ensures_perform fun d _ => ?_
  simp only [steady_step, step]
  split
  · exact ensures_ret ⟨by simp, by simp⟩
  · refine ensures_perform fun d' hd' => ?_
    have hstored : (acceptedPush w wc.info.id (executeJobRequest message executionID)
        d.reply).store.jobs.get? message.jobID = some job := by simpa using hjob
    simp only [steady_step, step, guarded_of_none (hd'.2.1 rfl),
      updateJobStateIf_of_some hstored .running { startedAt := some now } (Or.inl rfl)]
    refine ensures_mono (ensures_quiet ?_ _) ?_
    · refine (callsOnly_perform ..).mpr ⟨rfl, fun _ => ?_⟩
      exact (callsOnly_perform ..).mpr ⟨rfl, fun _ => trivial⟩
    · rintro _ w' ⟨hjobs, hexecutions⟩
      refine ⟨by simpa using hexecutions, Or.inr ⟨d'.now, by simpa using hjobs⟩⟩

/-- `handleQueuedJob` has created the execution `ex` for the stored `job` and has
written `job'` over it. -/
structure Dispatch (message : QueuedJob) (w w' : World) (job job' : Job)
    (ex : JobExecution) : Prop where
  stored : w.store.jobs.get? message.jobID = some job
  queueable : job.state.queueable
  jobs : w'.store.jobs = w.store.jobs.put job'
  id : job'.id = job.id
  state : job'.state = .assigned ∨ job'.state = .running
  attempt : job'.attempt = message.attempt + 1
  maxAttempts : job'.maxAttempts = job.maxAttempts
  executionID : job'.executionID = ex.id
  executions : w'.store.executions = w.store.executions.put ex
  fresh : Fresh w ex.id
  exJobID : ex.jobID = message.jobID
  exAttempt : ex.attempt = message.attempt + 1

theorem assignJob_ensures {message : QueuedJob} (wc : WorkerConn) {w : World} {job : Job}
    (hjob : w.store.jobs.get? message.jobID = some job) (hstate : job.state.queueable) :
    (steady clock).Ensures (assignJob message wc) w fun _ w' =>
      ∃ job' ex, Dispatch message w w' job job' ex ∧ clock ex.createdAt := by
  refine ensures_perform fun d hd => ensures_perform fun d₁ hd₁ => ?_
  simp only [steady_step, step, guarded_of_none (hd₁.2.1 rfl)]
  refine ensures_perform fun d₂ _ => ensures_perform fun d₃ hd₃ => ?_
  simp only [steady_step, step, guarded_of_none (hd₃.2.1 rfl)]
  rw [updateJobStateIf_of_some (s := Store.createExecution ..) hjob .assigned _ (Or.inl rfl)]
  refine ensures_perform fun d₄ _ => ?_
  have hfresh : Fresh w d.uuid := hd.1
  let assigned := applyUpdate job .assigned
    { workerID := some wc.info.id, executionID := some d.uuid,
      attempt := some (message.attempt + 1) } d₃.now
  let ex : JobExecution :=
    { id := d.uuid, jobID := message.jobID, workerID := wc.info.id,
      attempt := message.attempt + 1, state := .pending, createdAt := d₁.now }
  have hex : stampExecution { ex with createdAt := zeroTime } d₁.uuid d₁.now = ex := by
    simp [stampExecution, ex, hfresh.1]
  refine ensures_mono (pushJob_ensures wc d.uuid d₂.now assigned ?_) ?_
  · rw [steady_step, (quiet_step rfl _ _).1]
    exact get?_put_applyUpdate hjob _ _ _
  · rintro _ w' ⟨hexecutions, hjobs⟩
    rw [steady_step, (quiet_step rfl _ _).2] at hexecutions
    rw [steady_step, (quiet_step rfl _ _).1] at hjobs
    have hwritten : ∃ job', w'.store.jobs = w.store.jobs.put job' ∧ job'.id = job.id ∧
        (job'.state = .assigned ∨ job'.state = .running) ∧
        job'.attempt = message.attempt + 1 ∧ job'.maxAttempts = job.maxAttempts ∧
        job'.executionID = d.uuid := by
      rcases hjobs with hsame | ⟨updatedAt, hrunning⟩
      · exact ⟨assigned, hsame, rfl, Or.inl rfl, rfl, rfl, rfl⟩
      · refine ⟨_, hrunning.trans (put_put ?_), rfl, Or.inr rfl, rfl, rfl, rfl⟩
        rfl
    obtain ⟨job', hput, hid, hstate', hattempt, hmaxAttempts, hexecutionID⟩ := hwritten
    refine ⟨job', ex, ⟨hjob, hstate, hput, hid, hstate', hattempt, hmaxAttempts, hexecutionID,
      ?_, hfresh, rfl, rfl⟩, hd₁.2.2⟩
    rw [hexecutions, ← hex]
    rfl

/-- What is left to show of `handleQueuedJob`: it leaves without a call that writes, or
goes on to assign a job it has found queueable. -/
theorem handleQueuedJob_rule {M : Machine Call Answer World Draw} (hstep : M.step = step)
    (hstore : ∀ {w c d}, M.Allowed w c d → c.ofStore → d.fault = none) {message : QueuedJob}
    {w : World} {Q : Except Err Unit → World → Prop} (hleaves : ∀ result, Q result w)
    (hassign : ∀ wc job, w.store.jobs.get? message.jobID = some job → job.state.queueable →
      M.Ensures (assignJob message wc) w Q) :
    M.Ensures (handleQueuedJob message) w Q := by
  refine ensures_perform fun d hd => ?_
  simp only [hstep, step, guarded_of_none (hstore hd rfl)]
  cases hjob : w.store.jobs.get? message.jobID with
  | none =>
      rw [getJob_of_none hjob]
      exact ensures_ret (hleaves _)
  | some job =>
      rw [getJob_of_some hjob]
      cases hstate : job.state.queueable with
      | false =>
          simp only [hstate, Bool.false_eq_true, if_false]
          exact ensures_ret (hleaves _)
      | true =>
          simp only [hstate, if_true]
          refine ensures_perform fun d _ => ?_
          simp only [hstep, step]
          split
          · exact ensures_ret (hleaves _)
          · exact hassign _ job hjob hstate

theorem handleQueuedJob_ensures (message : QueuedJob) (w : World) :
    (steady clock).Ensures (handleQueuedJob message) w fun _ w' =>
      (w'.store.jobs = w.store.jobs ∧ w'.store.executions = w.store.executions) ∨
        ∃ job job' ex, Dispatch message w w' job job' ex ∧ clock ex.createdAt := by
  have hstore : ∀ {w c d}, (steady clock).Allowed w c d → c.ofStore → d.fault = none :=
    fun hd => hd.2.1
  refine handleQueuedJob_rule rfl hstore (fun _ => Or.inl ⟨rfl, rfl⟩) ?_
  intro wc job hjob hstate
  refine ensures_mono (assignJob_ensures wc hjob hstate) fun _ _ hdispatch => ?_
  exact Or.inr ⟨job, hdispatch⟩

end Chronos.SchedulerRuns
