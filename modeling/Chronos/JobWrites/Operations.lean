import Chronos.JobWrites.Results

namespace Chronos.JobWrites

open Chronos.ApiServer (newJob enqueueJob announceJob submitJob cancelRefused)
open Chronos.Domain
open Chronos.Library.CallProgram
open Chronos.Operations
open Chronos.SchedulerCalls (handleResult_calls promoteJob_calls pushCancel_calls
  stopExecution_calls withReason_success)
open Chronos.SchedulerService
open Chronos.SharedState

section Walks

variable {task : Task} {φ : Told}

theorem promoteJob_follows {job : Job} (hcalm : φ.completing = none)
    (hknows : φ.Knows job.id fun found =>
      found = job ∧ (job.state = .scheduled ∨ job.state = .retrying)) :
    (promoteJob job).Follows (informed .promoteDueJobs) Calm φ := by
  refine (follows_perform ..).mpr ⟨hcalm, fun enqueuedAt => ?_⟩
  refine (follows_perform ..).mpr ⟨⟨hcalm, trivial, knows_imp hknows ?_⟩, fun enqueued => ?_⟩
  · rintro _ ⟨rfl, hstate⟩
    exact ⟨⟨enqueuedAt, rfl⟩, or_assoc.mp (Or.inl hstate)⟩
  · cases enqueued with
    | error e => exact hcalm
    | ok _ =>
        refine (follows_perform ..).mpr ⟨hcalm, fun now => ?_⟩
        refine (follows_perform ..).mpr
          ⟨⟨hcalm, ⟨rfl, Or.inr ⟨rfl, rfl, Or.inl ⟨rfl, rfl⟩⟩⟩,
            fun _ => ⟨rfl, fun h => absurd h (List.cons_ne_nil _ _)⟩, knows_imp hknows ?_⟩,
            fun _ => ?_⟩
        · rintro _ ⟨rfl, hstate⟩
          exact ⟨rfl, hstate, ⟨rfl, rfl, Or.inl ⟨rfl, rfl⟩⟩, rfl⟩
        · exact emit_follows rfl EventType.noConfusion fun _ => rfl

theorem promoteJob_touches (job : Job) : (promoteJob job).CallsOnly (touches job.id) := by
  refine callsOnly_mono (promoteJob_calls job) fun c hc => ?_
  cases c with
  | updateJobStateIf => exact hc.1
  | _ => trivial

theorem promoteDueJobs_follows (cfg : SchedulerConfig) :
    (promoteDueJobs cfg).Follows (informed .promoteDueJobs) Calm {} := by
  refine (follows_perform ..).mpr ⟨rfl, fun listed => ?_⟩
  cases listed with
  | error e => exact rfl
  | ok jobs =>
      have hready : Ready (fun state => state = .scheduled ∨ state = .retrying) jobs
        (Told.learnAll {} _ jobs) := ready_learnAll rfl jobs
      exact follows_bind (forEach_follows (fun _ _ => promoteJob_follows) promoteJob_touches
        hready) fun _ _ h => h.calm

theorem enqueueJob_follows {body : Option CreateJobRequest} {job : Job}
    (hcalm : φ.completing = none) (hcreated : φ.created = some job.id)
    (hknows : φ.Knows job.id (· = job)) :
    (enqueueJob job).Follows (informed (.createJob body)) Calm φ := by
  refine (follows_perform ..).mpr ⟨hcalm, fun now => ?_⟩
  refine (follows_perform ..).mpr ⟨⟨hcalm, trivial, knows_imp hknows ?_⟩, fun enqueued => ?_⟩
  · rintro _ rfl
    exact ⟨⟨now, rfl⟩, Or.inr (Or.inr hcreated)⟩
  · cases enqueued with
    | error e => exact hcalm
    | ok _ =>
        refine emit_follows hcalm EventType.noConfusion fun _ => ?_
        refine (follows_perform ..).mpr
          ⟨⟨rfl, ⟨rfl, Or.inr ⟨rfl, rfl, Or.inl ⟨rfl, rfl⟩⟩⟩,
            fun _ => ⟨rfl, fun _ => hcreated⟩, knows_imp hknows ?_⟩, ?_⟩
        · exact fun _ _ => ⟨rfl, ⟨rfl, rfl, Or.inl ⟨rfl, rfl⟩⟩, rfl⟩
        · rintro (e | _) <;> exact rfl

theorem createJob_follows (cron : Cron) (body : Option CreateJobRequest) :
    (ApiServer.createJob cron body).Follows (informed (.createJob body)) Calm {} := by
  cases body with
  | none => exact rfl
  | some req =>
      refine (follows_perform ..).mpr ⟨rfl, fun checkedAt => ?_⟩
      split
      · exact rfl
      · rename_i checked hvalid
        refine (follows_perform ..).mpr ⟨rfl, fun now => ?_⟩
        refine (follows_perform ..).mpr ⟨rfl, fun id => ?_⟩
        split
        · exact rfl
        · rename_i scheduledAt _
          refine (follows_perform ..).mpr ⟨⟨rfl, ?_, Or.inr ⟨List.mem_cons_self, rfl⟩⟩, ?_⟩
          · exact ⟨rfl, rfl, rfl, rfl, ApiServer.checkRequest_key hvalid⟩
          · rintro (e | job)
            · exact rfl
            · refine emit_follows rfl EventType.noConfusion fun _ => ?_
              refine emit_follows rfl EventType.noConfusion fun _ => ?_
              split
              · refine follows_bind (enqueueJob_follows rfl rfl fun _ => ?_) ?_
                · exact ⟨_, List.mem_cons_self, fun _ hjob => hjob⟩
                · rintro ψ (e | job) hψ <;> exact hψ
              · exact rfl

theorem cancelJob_follows (id : String) :
    (ApiServer.cancelJob id).Follows (informed (.cancelJob id)) Calm {} := by
  refine (follows_perform ..).mpr ⟨rfl, fun read => ?_⟩
  rcases read with (_ | _ | _ | _ | _) | job
  case ok =>
    dsimp only
    split
    · exact rfl
    rename_i hrefused
    split
    · rename_i hactive
      have hkeeps : KeepsExecution {} := ⟨rfl, rfl, Or.inl ⟨rfl, rfl⟩⟩
      refine update_follows rfl trivial (Or.inr hkeeps) JobState.noConfusion
        (knows_learn fun _ _ => ?_) fun _ => ?_
      · exact ⟨rfl, by simpa using hrefused, hkeeps, rfl, by rw [if_pos hactive]⟩
      · exact emit_follows rfl EventType.noConfusion fun _ => rfl
    · rename_i hactive
      refine (follows_perform ..).mpr ⟨rfl, fun now => ?_⟩
      have hkeeps : KeepsExecution { completedAt := some now } := ⟨rfl, rfl, Or.inl ⟨rfl, rfl⟩⟩
      refine update_follows rfl rfl (Or.inr hkeeps) JobState.noConfusion
        (knows_learn fun _ _ => ?_) fun _ => ?_
      · exact ⟨rfl, by simpa using hrefused, hkeeps, rfl, by rw [if_neg hactive]⟩
      · exact emit_follows rfl EventType.noConfusion fun _ => rfl
  all_goals exact rfl

theorem pushCancel_follows {job : Job} (hcalm : φ.completing = none)
    (hknows : φ.Knows job.id fun found => found = job ∧ job.state = .cancelRequested) :
    (pushCancel job).Follows (informed .pushPendingCancels) Calm φ := by
  unfold pushCancel
  split
  · refine (follows_perform ..).mpr ⟨hcalm, fun now => ?_⟩
    have hkeeps : KeepsExecution { completedAt := some now } := ⟨rfl, rfl, Or.inl ⟨rfl, rfl⟩⟩
    refine update_follows hcalm rfl (Or.inr hkeeps) JobState.noConfusion
      (knows_imp hknows ?_) fun _ => ?_
    · rintro _ ⟨rfl, hstate⟩
      exact ⟨hstate, rfl, hkeeps, rfl⟩
    · exact emit_follows rfl EventType.noConfusion fun _ => rfl
  · have hstops : φ.Knows job.id (Stops .pushPendingCancels) := by
      refine knows_imp hknows ?_
      rintro _ ⟨rfl, hstate⟩
      exact hstate
    refine (follows_perform ..).mpr ⟨⟨hcalm, rfl, hstops⟩, fun found => ?_⟩
    cases found with
    | none => exact hcalm
    | some wc => exact (follows_perform ..).mpr ⟨⟨hcalm, hstops⟩, fun _ => hcalm⟩

theorem pushCancel_touches (job : Job) : (pushCancel job).CallsOnly (touches job.id) := by
  refine callsOnly_mono (pushCancel_calls job) fun c hc => ?_
  cases c with
  | updateJobStateIf => exact hc.1
  | _ => trivial

theorem pushPendingCancels_follows (cfg : SchedulerConfig) :
    (pushPendingCancels cfg).Follows (informed .pushPendingCancels) Calm {} := by
  refine (follows_perform ..).mpr ⟨rfl, fun listed => ?_⟩
  cases listed with
  | error e => exact rfl
  | ok jobs =>
      have hready : Ready (· = .cancelRequested) jobs (Told.learnAll {} _ jobs) :=
        ready_learnAll rfl jobs
      exact follows_bind (forEach_follows (fun _ _ => pushCancel_follows) pushCancel_touches
        hready) fun _ _ h => h.calm

theorem recoverJob_follows {workerID : String} {now : Time} {job : Job}
    (hcalm : φ.completing = none)
    (hknows : φ.Knows job.id fun found => found = job ∧
      ((job.state = .running ∨ job.state = .assigned) ∨ job.state = .cancelRequested)) :
    (recoverJob workerID now job).Follows (informed .checkWorkers) Calm φ := by
  have hwrites : ∀ state fields,
      (job.state.terminal = false → Settles job job.attempt lostResult state fields) →
      φ.Knows job.id fun found => Writes .checkWorkers job.id found state fields [] := by
    intro state fields hsettles
    refine knows_imp hknows ?_
    rintro _ ⟨rfl, hstate⟩
    refine ⟨or_assoc.mp hstate, rfl, hsettles ?_⟩
    rcases hstate with (h | h) | h <;> rw [h] <;> rfl
  refine follows_bind (closeExecution_follows _ _ _ hcalm) ?_
  rintro _ _ rfl
  split
  · rename_i hstate
    refine update_follows hcalm rfl (Or.inr ⟨rfl, rfl, Or.inl ⟨rfl, rfl⟩⟩)
      JobState.noConfusion (hwrites _ _ fun hlive => ?_) ?_
    · exact ⟨hlive, ⟨rfl, rfl, Or.inl ⟨rfl, rfl⟩⟩, Or.inr hstate⟩
    · exact fun _ => emit_follows rfl EventType.noConfusion fun _ => rfl
  · rename_i hstate
    split
    · rename_i hattempt
      refine update_follows hcalm rfl (Or.inr ⟨rfl, rfl, Or.inr rfl⟩)
        JobState.noConfusion (hwrites _ _ fun hlive => ?_) ?_
      · exact ⟨hlive, ⟨rfl, rfl, Or.inr rfl⟩, hstate, hattempt, rfl⟩
      · exact fun _ => emit_follows rfl EventType.noConfusion fun _ => rfl
    · refine update_follows hcalm rfl (Or.inr ⟨rfl, rfl, Or.inl ⟨rfl, rfl⟩⟩)
        JobState.noConfusion (hwrites _ _ fun hlive => ?_) ?_
      · exact ⟨hlive, ⟨rfl, rfl, Or.inl ⟨rfl, rfl⟩⟩, hstate⟩
      · exact fun _ => emit_follows rfl EventType.noConfusion fun _ => rfl

theorem recoverJob_touches (workerID : String) (now : Time) (job : Job) :
    (recoverJob workerID now job).CallsOnly (touches job.id) := by
  have hclose : (closeExecution job.executionID .failed lostResult).CallsOnly
      (touches job.id) := by
    unfold closeExecution
    split
    · trivial
    · exact (callsOnly_perform ..).mpr ⟨trivial, fun _ => trivial⟩
  have hwrite : ∀ {state fields event},
      (ask (.updateJobStateIf job.id state fields []) >>= fun _ =>
        ask (.emit event) >>= fun _ => (pure () : Prog Unit)).CallsOnly (touches job.id) :=
    (callsOnly_perform ..).mpr
      ⟨rfl, fun _ => (callsOnly_perform ..).mpr ⟨trivial, fun _ => trivial⟩⟩
  refine callsOnly_bind hclose fun _ => ?_
  split
  · exact hwrite
  · split
    · exact hwrite
    · exact hwrite

theorem recoverWorkerJobs_follows (workerID : String) (hcalm : φ.completing = none) :
    (recoverWorkerJobs workerID).Follows (informed .checkWorkers) Calm φ := by
  refine (follows_perform ..).mpr ⟨hcalm, fun running => ?_⟩
  cases running with
  | error e => exact hcalm
  | ok running =>
      refine (follows_perform ..).mpr ⟨hcalm, fun assigned => ?_⟩
      cases assigned with
      | error e => exact hcalm
      | ok assigned =>
          refine (follows_perform ..).mpr ⟨hcalm, fun cancelReq => ?_⟩
          cases cancelReq with
          | error e => exact hcalm
          | ok cancelReq =>
              refine (follows_perform ..).mpr ⟨hcalm, fun now => ?_⟩
              have hrunning : Ready (· = .running) running (φ.learnAll _ running) :=
                ready_learnAll hcalm running
              have hassigned := ready_append (Q := (· = .assigned)) hrunning
                (by rintro _ rfl; exact JobState.noConfusion) assigned
              have hcancelReq := ready_append (Q := (· = .cancelRequested)) hassigned
                (by rintro _ (rfl | rfl) <;> exact JobState.noConfusion) cancelReq
              refine follows_bind (forEach_follows ?_ ?_ hcancelReq) ?_
              · intro job ψ hψ hknows
                split
                · exact hψ
                · exact recoverJob_follows hψ hknows
              · intro job
                split
                · trivial
                · exact recoverJob_touches workerID now job
              · exact fun ψ _ hψ => (follows_perform ..).mpr ⟨hψ.calm, fun _ => hψ.calm⟩

theorem checkWorkers_follows (cfg : SchedulerConfig) :
    (checkWorkers cfg).Follows (informed .checkWorkers) Calm {} := by
  refine (follows_perform ..).mpr ⟨rfl, fun marked => ?_⟩
  rcases marked with e | ⟨suspected, unavailable⟩
  · exact rfl
  · have hloop : (forEach unavailable dropWorker).Follows (informed .checkWorkers) Calm {} := by
      refine follows_forEach (I := fun _ (ψ : Told) => ψ.completing = none) ?_ rfl
      intro workerID _ ψ hψ
      refine (follows_perform ..).mpr ⟨hψ, fun _ => ?_⟩
      refine emit_follows hψ EventType.noConfusion fun _ => ?_
      exact follows_bind (recoverWorkerJobs_follows workerID rfl) fun _ _ h => h
    exact follows_bind hloop fun _ _ h => h

theorem pushJob_follows {message job : QueuedJob} (wc : WorkerConn) (executionID : String)
    (now : Time) (hcalm : φ.completing = none) (hid : job.jobID = message.jobID)
    (hknows : φ.Knows job.jobID fun found => found.state = .assigned) :
    (pushJob job wc executionID now).Follows (informed (.handleQueuedJob message)) Calm φ := by
  refine (follows_perform ..).mpr ⟨hcalm, fun reply => ?_⟩
  split
  · exact hcalm
  · refine update_follows hcalm rfl (Or.inl trivial) JobState.noConfusion
      (knows_imp hknows ?_) fun updated => ?_
    · exact fun _ hstate => ⟨hid, rfl, Or.inr ⟨rfl, hstate⟩⟩
    · cases updated with
      | error e => exact rfl
      | ok _ =>
          refine emit_follows rfl EventType.noConfusion fun _ => ?_
          exact (follows_perform ..).mpr ⟨rfl, fun _ => rfl⟩

theorem handleQueuedJob_follows (message : QueuedJob) :
    (handleQueuedJob message).Follows (informed (.handleQueuedJob message)) Calm {} := by
  refine (follows_perform ..).mpr ⟨rfl, fun read => ?_⟩
  cases read with
  | error e => exact rfl
  | ok existing =>
      dsimp only
      split
      · rename_i hqueueable
        refine (follows_perform ..).mpr ⟨rfl, fun picked => ?_⟩
        cases picked with
        | none => exact rfl
        | some wc =>
            refine (follows_perform ..).mpr ⟨rfl, fun executionID => ?_⟩
            refine (follows_perform ..).mpr ⟨⟨rfl, message, rfl⟩, fun created => ?_⟩
            cases created with
            | error e => exact rfl
            | ok _ =>
                refine (follows_perform ..).mpr ⟨rfl, fun now => ?_⟩
                refine update_follows rfl ?_ (Or.inl trivial) JobState.noConfusion ?_
                  fun assigned => ?_
                · exact ⟨⟨wc, List.mem_cons_self, rfl⟩, executionID, List.mem_cons_self, rfl⟩
                · exact knows_learn fun _ _ => ⟨rfl, rfl, Or.inl ⟨rfl, hqueueable⟩⟩
                · cases assigned with
                  | error e => exact rfl
                  | ok _ =>
                      refine emit_follows rfl EventType.noConfusion fun _ => ?_
                      exact pushJob_follows wc executionID now rfl rfl
                        fun _ => ⟨_, List.mem_cons_self, fun _ h => h⟩
      · exact rfl

theorem body_follows (cron : Cron) (cfg : SchedulerConfig) (task : Task) :
    (task.body cron cfg).Follows (informed task) Calm {} := by
  cases task with
  | createJob body => exact follows_bind (createJob_follows cron body) fun _ _ h => h
  | cancelJob id => exact follows_bind (cancelJob_follows id) fun _ _ h => h
  | promoteDueJobs => exact follows_bind (promoteDueJobs_follows cfg) fun _ _ h => h
  | handleQueuedJob job => exact follows_bind (handleQueuedJob_follows job) fun _ _ h => h
  | handleResult jobID executionID workerID attempt result =>
      refine follows_bind (handleResult_follows cron rfl ?_ ?_) fun _ _ h => h
      · exact fun job _ _ state fields hsettles => ⟨rfl, rfl, hsettles⟩
      · intro hsuccess child hstate hscheduled hattempt hexecution hid hkey
        exact ⟨hstate, hscheduled, hattempt, hexecution, hsuccess, hid, hkey⟩
  | pushPendingCancels => exact follows_bind (pushPendingCancels_follows cfg) fun _ _ h => h
  | watchdogTimeouts => exact follows_bind (watchdogTimeouts_follows cron cfg) fun _ _ h => h
  | checkWorkers => exact follows_bind (checkWorkers_follows cfg) fun _ _ h => h

end Walks

end Chronos.JobWrites
