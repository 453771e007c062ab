import Chronos.Operations
import Chronos.SchedulerRuns

namespace Chronos.LifecycleGraph

open Chronos.Domain
open Chronos.Library.CallProgram
open Chronos.Library.CallMachine
open Chronos.Library.KeyedTable
open Chronos.MemoryStore
open Chronos.Operations
open Chronos.SchedulerCalls
open Chronos.SchedulerRuns
open Chronos.SchedulerService
open Chronos.SharedState

def Promotes (job job' : Job) : Prop :=
  (job.state = .scheduled ∨ job.state = .retrying) ∧ job'.state = .queued

def Dispatches (job job' : Job) : Prop :=
  job.state.queueable ∧ (job'.state = .assigned ∨ job'.state = .running)

def Settles (job job' : Job) : Prop :=
  job.state.terminal = false ∧ settledState job.state job'.state

theorem promotes_trans (a b c : Job) (h : Promotes a b) (h' : Promotes b c) :
    Promotes a c := by
  obtain ⟨-, hb⟩ := h
  rcases h'.1 with hb' | hb' <;> simp [hb] at hb'

theorem settledState_live {found state : JobState} (h : settledState found state)
    (hlive : state.terminal = false) : found ≠ .cancelRequested ∧ state = .retrying := by
  cases found <;> cases state <;> simp_all [settledState, resultState, JobState.terminal]

theorem settles_trans (a b c : Job) (h : Settles a b) (h' : Settles b c) : Settles a c := by
  obtain ⟨hfound, hb⟩ := settledState_live h.2 h'.1
  refine ⟨h.1, settledState_of_live hfound ?_⟩
  have hc := h'.2
  rwa [hb] at hc

variable {clock : Time → Prop}

/-- What a program that settles one stored job has done so far: that job is as it
was or settled, the other jobs are as they were, and a job that was not there is
newly created. -/
structure SettledFrom (w : World) (job : Job) (spawns : Bool) (w' : World) : Prop where
  own : ∃ job', w'.store.jobs.get? job.id = some job' ∧ (job' = job ∨ Settles job job')
  others : ∀ {id other}, id ≠ job.id → w.store.jobs.get? id = some other →
    w'.store.jobs.get? id = some other
  created : ∀ {id child}, w.store.jobs.get? id = none →
    w'.store.jobs.get? id = some child → spawns ∧ child.state = .scheduled ∧ Fresh w id
  fresh : ∀ {id}, Fresh w' id → Fresh w id

theorem settledFrom_refl {w : World} {job : Job} (spawns : Bool)
    (hjob : w.store.jobs.get? job.id = some job) : SettledFrom w job spawns w where
  own := ⟨job, hjob, Or.inl rfl⟩
  others := fun _ h => h
  created := by
    intro id child hnone hsome
    simp [hnone] at hsome
  fresh := id

theorem settledFrom_create {w w₁ w₂ : World} {job child : Job} {spawns : Bool}
    (h : SettledFrom w job spawns w₁) (hput : w₂.store.jobs = w₁.store.jobs.put child)
    (hspawns : spawns) (hscheduled : child.state = .scheduled) (hnew : Fresh w₁ child.id)
    (hfresh : ∀ {id}, Fresh w₂ id → Fresh w₁ id) : SettledFrom w job spawns w₂ := by
  have habsent : ∀ {id other}, w₁.store.jobs.get? id = some other → id ≠ child.id := by
    rintro id other hother rfl
    exact hnew.2.2.1 (mem_keys.mpr ⟨other, hother⟩)
  obtain ⟨current, hcurrent, hown⟩ := h.own
  refine ⟨⟨current, ?_, hown⟩, ?_, ?_, fun hid => h.fresh (hfresh hid)⟩
  · rw [hput, get?_put_of_ne _ (habsent hcurrent), hcurrent]
  · intro id other hne hother
    have hstill := h.others hne hother
    rw [hput, get?_put_of_ne _ (habsent hstill), hstill]
  · intro id found hnone hfound
    rw [hput, get?_put] at hfound
    split at hfound
    · rename_i heq
      obtain rfl := Option.some.inj hfound
      exact ⟨hspawns, hscheduled, heq ▸ h.fresh hnew⟩
    · exact h.created hnone hfound

theorem settledFrom_update {w w₁ w₂ : World} {job settled : Job} {spawns : Bool}
    (h : SettledFrom w job spawns w₁) (hput : w₂.store.jobs = w₁.store.jobs.put settled)
    (hjob : w.store.jobs.get? job.id = some job) (hkey : settled.id = job.id)
    (hsettles : Settles job settled)
    (hfresh : ∀ {id}, Fresh w₂ id → Fresh w₁ id) : SettledFrom w job spawns w₂ := by
  refine ⟨⟨settled, ?_, Or.inr hsettles⟩, ?_, ?_, fun hid => h.fresh (hfresh hid)⟩
  · rw [hput, ← hkey]
    exact get?_put_self _ settled
  · intro id other hne hother
    rw [hput, get?_put_of_ne _ (by rwa [hkey])]
    exact h.others hne hother
  · intro id found hnone hfound
    rw [hput, get?_put, hkey] at hfound
    split at hfound
    · rename_i heq
      simp [heq, hjob] at hnone
    · exact h.created hnone hfound

theorem settledFrom_step {w w₁ : World} {job : Job} {spawns : Bool} {c : Call} {d : Draw}
    (hjob : w.store.jobs.get? job.id = some job) (hlive : job.state.terminal = false)
    (hc : settleCall job.state job.id spawns c)
    (hdraw : (steady clock).Allowed w₁ c d) (h : SettledFrom w job spawns w₁) :
    SettledFrom w job spawns (step c w₁ d).2 := by
  rcases step_jobs c w₁ d with hsame | ⟨child, rfl, hput⟩ |
    ⟨id, state, fields, onlyFrom, old, rfl, hold, -, hput⟩
  · refine ⟨?_, ?_, ?_, fun hid => h.fresh (fresh_of_step hid)⟩
    · rw [hsame]
      exact h.own
    · rw [hsame]
      exact h.others
    · rw [hsame]
      exact h.created
  · -- the new job takes a key that is in use neither now nor at the start
    obtain ⟨hspawns, hid, -, hscheduled⟩ := hc
    have hnew : Fresh w₁ (stampJob child d.uuid d.now).id := by
      rw [stampJob, if_pos hid]
      exact hdraw.1 hid
    exact settledFrom_create h hput hspawns hscheduled hnew fresh_of_step
  · obtain ⟨rfl, hsettled⟩ := hc
    have hkey : old.id = job.id := key_of_get? hold
    exact settledFrom_update h hput hjob hkey ⟨hlive, hsettled⟩ fresh_of_step

theorem ensures_settled {α : Type} {p : Prog α} {w : World} {job : Job} {spawns : Bool}
    (hjob : w.store.jobs.get? job.id = some job) (hlive : job.state.terminal = false)
    (hp : p.CallsOnly (settleCall job.state job.id spawns)) :
    (steady clock).Ensures p w fun _ w' => SettledFrom w job spawns w' :=
  ensures_of_calls (fun _ _ _ hc hdraw h => settledFrom_step hjob hlive hc hdraw h) hp
    (settledFrom_refl spawns hjob)

theorem evolves_of_settledFrom {w w' : World} {job : Job}
    (hjob : w.store.jobs.get? job.id = some job) (h : SettledFrom w job false w') :
    w.store.jobs.Evolves Settles w'.store.jobs where
  kept := by
    intro id other hother
    by_cases hid : id = job.id
    · subst hid
      obtain rfl := Option.some.inj (hjob.symm.trans hother)
      exact h.own
    · exact ⟨other, h.others hid hother, Or.inl rfl⟩
  absent := by
    intro id hnone
    cases hfound : w'.store.jobs.get? id with
    | none => rfl
    | some child => exact absurd (h.created hnone hfound).1 Bool.false_ne_true

/-- A list of stored jobs, once each, whose states are in `P`. -/
structure Snapshot (jobs : JobTable) (P : JobState → Prop) (listing : List Job) : Prop where
  nodup : (listing.map Job.id).Nodup
  stored : ∀ job ∈ listing, jobs.get? job.id = some job
  states : ∀ job ∈ listing, P job.state

theorem snapshot_collect {jobs : JobTable} {order : List String}
    (horder : jobs.Enumerates order) {P : JobState → Prop} {select : Job → Bool}
    (hselect : ∀ job, select job → P job.state) (limit : Int) :
    Snapshot jobs P (collect select limit [] (jobs.inOrder order)) := by
  have hsub : (collect select limit [] (jobs.inOrder order)).Sublist
      ((jobs.inOrder order).filter select) := collect_sublist select limit [] _
  refine ⟨?_, fun job hjob => ?_, fun job hjob => ?_⟩
  · refine List.Nodup.sublist ((hsub.trans List.filter_sublist).map Job.id) ?_
    exact nodup_map_key_inOrder horder.1
  · exact (mem_inOrder.mp (List.mem_filter.mp (hsub.subset hjob)).1).2
  · exact hselect job (List.mem_filter.mp (hsub.subset hjob)).2

theorem snapshot_append {jobs : JobTable} {P Q : JobState → Prop} {left right : List Job}
    (hleft : Snapshot jobs P left) (hright : Snapshot jobs Q right)
    (hdisjoint : ∀ state, P state → ¬ Q state) :
    Snapshot jobs (fun state => P state ∨ Q state) (left ++ right) := by
  refine ⟨?_, fun job hjob => ?_, fun job hjob => ?_⟩
  · rw [List.map_append, List.nodup_append]
    refine ⟨hleft.nodup, hright.nodup, ?_⟩
    rintro _ hl _ hr rfl
    obtain ⟨job, hjob, hid⟩ := List.mem_map.mp hl
    obtain ⟨other, hother, hid'⟩ := List.mem_map.mp hr
    have hsame : job = other := by
      have hstored := hleft.stored job hjob
      rw [hid, ← hid', hright.stored other hother] at hstored
      exact (Option.some.inj hstored).symm
    subst hsame
    exact hdisjoint job.state (hleft.states job hjob) (hright.states job hother)
  · rcases List.mem_append.mp hjob with h | h
    · exact hleft.stored job h
    · exact hright.stored job h
  · rcases List.mem_append.mp hjob with h | h
    · exact Or.inl (hleft.states job h)
    · exact Or.inr (hright.states job h)

/-- A loop over a snapshot of live jobs that settles each of them by itself finds
every job as the snapshot has it. -/
theorem ensures_snapshot {jobs : List Job} {P : JobState → Prop} {body : Job → Prog Unit}
    {w : World} (hsnapshot : Snapshot w.store.jobs P jobs)
    (hlive : ∀ state, P state → state.terminal = false)
    (hbody : ∀ job, P job.state →
      (body job).CallsOnly (settleCall job.state job.id false)) :
    (steady clock).Ensures (forEach jobs body) w fun _ w' =>
      w.store.jobs.Evolves Settles w'.store.jobs := by
  refine ensures_mono (ensures_forEach (I := fun rest (w' : World) =>
    w.store.jobs.Evolves Settles w'.store.jobs ∧ Snapshot w'.store.jobs P rest) ?_
    ⟨evolves_refl _ _, hsnapshot⟩) fun _ _ h => h.1
  rintro job rest w₁ ⟨hevolves, hrest⟩
  have hjob := hrest.stored job (by simp)
  have hstate := hrest.states job (by simp)
  refine ensures_mono (ensures_settled hjob (hlive _ hstate) (hbody job hstate)) ?_
  intro _ w₂ hsettled
  have hnodup := hrest.nodup
  rw [List.map_cons, List.nodup_cons] at hnodup
  refine ⟨evolves_trans settles_trans hevolves (evolves_of_settledFrom hjob hsettled),
    hnodup.2, fun other hother => ?_, fun other hother => hrest.states other (by simp [hother])⟩
  refine hsettled.others ?_ (hrest.stored other (by simp [hother]))
  intro heq
  exact hnodup.1 (heq ▸ List.mem_map_of_mem hother)

theorem ensures_evolves_forEach {α : Type} {items : List α} {body : α → Prog Unit}
    (hbody : ∀ item w, (steady clock).Ensures (body item) w fun _ w' =>
      w.store.jobs.Evolves Settles w'.store.jobs) (w : World) :
    (steady clock).Ensures (forEach items body) w fun _ w' =>
      w.store.jobs.Evolves Settles w'.store.jobs := by
  refine ensures_forEach
    (I := fun _ (w' : World) => w.store.jobs.Evolves Settles w'.store.jobs) ?_
    (evolves_refl _ _)
  intro item rest w₁ hevolves
  exact ensures_mono (hbody item w₁) fun _ _ h => evolves_trans settles_trans hevolves h

theorem handleResult_settles (cron : Cron) (jobID executionID workerID : String)
    (attempt : Int) (result : ExecutionResult) (w : World) :
    (steady clock).Ensures (handleResult cron jobID executionID workerID attempt result) w
      fun _ w' => w'.store.jobs = w.store.jobs ∨ ∃ job,
        w.store.jobs.get? job.id = some job ∧ SettledFrom w job result.success w' := by
  refine handleResult_ensures cron (fun _ _ => Or.inl rfl) (fun _ _ _ _ => Or.inl rfl) ?_
  intro job hjob hlive registry now
  obtain rfl := key_of_get? hjob
  have hcalls := callsOnly_mono (settleResult_calls cron job job.id executionID
    workerID attempt (withReason result) now) fun _ hc => hc.2
  rw [withReason_success] at hcalls
  refine ensures_mono (ensures_settled hjob hlive hcalls) fun _ w' h => Or.inr ⟨job, hjob, ?_⟩
  exact ⟨h.own, h.others, h.created, h.fresh⟩

theorem stopExecution_quiet (job : Job) : (stopExecution job).CallsOnly fun c => c.quiet := by
  refine callsOnly_mono (stopExecution_calls job) fun c hc => ?_
  cases c <;> first | rfl | exact hc.elim

theorem watchdogTimeout_evolves (cron : Cron) (job : Job) (w : World) :
    (steady clock).Ensures (watchdogTimeout cron job) w fun _ w' =>
      w.store.jobs.Evolves Settles w'.store.jobs := by
  refine ensures_bind (ensures_mono (ensures_quiet (stopExecution_quiet job) w) ?_)
  rintro _ w₁ ⟨hsame, -⟩
  refine ensures_bind (ensures_mono (handleResult_settles cron job.id job.executionID
    job.workerID job.attempt (watchdogResult job) w₁) ?_)
  intro _ w' h
  refine ensures_ret ?_
  rw [← hsame]
  rcases h with hjobs | ⟨settled, hstored, h⟩
  · rw [hjobs]
    exact evolves_refl _ _
  · exact evolves_of_settledFrom hstored h

theorem watchdogTimeouts_evolves (cron : Cron) (cfg : SchedulerConfig) (w : World) :
    (steady clock).Ensures (watchdogTimeouts cron cfg) w fun _ w' =>
      w.store.jobs.Evolves Settles w'.store.jobs := by
  refine ensures_perform fun _ _ => ensures_perform fun d hd => ?_
  simp only [steady_step, step, guarded_of_none (hd.2.1 rfl)]
  refine ensures_bind (ensures_mono
    (ensures_evolves_forEach (watchdogTimeout_evolves cron) w) ?_)
  exact fun _ _ h => ensures_ret h

theorem pushCancel_calls {job : Job} (hstate : job.state = .cancelRequested) :
    (pushCancel job).CallsOnly (settleCall job.state job.id false) := by
  unfold pushCancel
  split
  · refine (callsOnly_perform ..).mpr ⟨trivial, fun now => ?_⟩
    refine (callsOnly_perform ..).mpr ⟨⟨rfl, by rw [hstate]; rfl⟩, fun _ => ?_⟩
    exact (callsOnly_perform ..).mpr ⟨trivial, fun _ => trivial⟩
  · refine (callsOnly_perform ..).mpr ⟨trivial, fun found => ?_⟩
    cases found with
    | none => trivial
    | some wc => exact (callsOnly_perform ..).mpr ⟨trivial, fun _ => trivial⟩

theorem pushPendingCancels_evolves (cfg : SchedulerConfig) (w : World) :
    (steady clock).Ensures (pushPendingCancels cfg) w fun _ w' =>
      w.store.jobs.Evolves Settles w'.store.jobs := by
  refine ensures_perform fun d hd => ?_
  simp only [steady_step, step, guarded_of_none (hd.2.1 rfl)]
  have hlisted : Snapshot w.store.jobs (· = .cancelRequested)
      (w.store.listCancelRequested d.order cfg.assignBatchSize) :=
    snapshot_collect hd.1 (fun job hjob => by simpa using hjob) _
  refine ensures_bind (ensures_mono (ensures_snapshot hlisted ?_ fun job => pushCancel_calls)
    fun _ _ h => ensures_ret h)
  rintro _ rfl
  rfl

theorem closeExecution_settles {found : JobState} {jobID : String} {spawns : Bool}
    (executionID : String) (state : ExecutionState) (result : ExecutionResult) :
    (closeExecution executionID state result).CallsOnly (settleCall found jobID spawns) :=
  callsOnly_mono (closeExecution_calls executionID state result) fun c hc =>
    (settleResultCall_of_settlingCall c hc).2

theorem recoverJob_calls (workerID : String) (now : Time) (job : Job) :
    (recoverJob workerID now job).CallsOnly (settleCall job.state job.id false) := by
  refine callsOnly_bind (closeExecution_settles _ _ _) fun _ => ?_
  split
  · rename_i hstate
    refine (callsOnly_perform ..).mpr ⟨⟨rfl, by rw [hstate]; rfl⟩, fun _ => ?_⟩
    exact (callsOnly_perform ..).mpr ⟨trivial, fun _ => trivial⟩
  · rename_i hstate
    split
    · refine (callsOnly_perform ..).mpr ⟨⟨rfl, settledState_of_live hstate rfl⟩, fun _ => ?_⟩
      exact (callsOnly_perform ..).mpr ⟨trivial, fun _ => trivial⟩
    · refine (callsOnly_perform ..).mpr ⟨⟨rfl, settledState_of_live hstate rfl⟩, fun _ => ?_⟩
      exact (callsOnly_perform ..).mpr ⟨trivial, fun _ => trivial⟩

theorem recoverJobs_evolves (workerID : String) {jobs : List Job} {P : JobState → Prop}
    {w : World} (hsnapshot : Snapshot w.store.jobs P jobs)
    (hlive : ∀ state, P state → state.terminal = false) :
    (steady clock).Ensures (recoverJobs workerID jobs) w fun _ w' =>
      w.store.jobs.Evolves Settles w'.store.jobs := by
  refine ensures_perform fun d _ => ?_
  simp only [steady_step, step]
  refine ensures_bind (ensures_mono (ensures_snapshot hsnapshot hlive ?_) ?_)
  · intro job _
    split
    · trivial
    · exact recoverJob_calls workerID d.now job
  · exact fun _ w₁ h => ensures_perform fun _ _ => ensures_ret h

theorem recoverWorkerJobs_evolves (workerID : String) (w : World) :
    (steady clock).Ensures (recoverWorkerJobs workerID) w fun _ w' =>
      w.store.jobs.Evolves Settles w'.store.jobs := by
  have hlisted : ∀ {order : List String}, w.store.jobs.Enumerates order → ∀ state,
      Snapshot w.store.jobs (· = state) (w.store.listJobs order (some state) 1000) :=
    fun horder state => snapshot_collect horder (fun job hjob => by simpa using hjob) _
  refine ensures_perform fun d hd => ?_
  simp only [steady_step, step, guarded_of_none (hd.2.1 rfl)]
  refine ensures_perform fun d' hd' => ?_
  simp only [steady_step, step, guarded_of_none (hd'.2.1 rfl)]
  refine ensures_perform fun d'' hd'' => ?_
  simp only [steady_step, step, guarded_of_none (hd''.2.1 rfl)]
  refine recoverJobs_evolves workerID (snapshot_append (snapshot_append (hlisted hd.1 .running)
    (hlisted hd'.1 .assigned) ?_) (hlisted hd''.1 .cancelRequested) ?_) ?_
  · rintro _ rfl
    simp
  · rintro _ (rfl | rfl) <;> simp
  · rintro _ ((rfl | rfl) | rfl) <;> rfl

theorem dropWorker_evolves (workerID : String) (w : World) :
    (steady clock).Ensures (dropWorker workerID) w fun _ w' =>
      w.store.jobs.Evolves Settles w'.store.jobs := by
  refine ensures_perform fun d _ => ensures_perform fun d' _ => ?_
  refine ensures_bind (ensures_mono (recoverWorkerJobs_evolves workerID _) ?_)
  intro _ w' h
  refine ensures_ret ?_
  rwa [steady_step, (quiet_step rfl _ _).1] at h

theorem checkWorkers_evolves (cfg : SchedulerConfig) (w : World) :
    (steady clock).Ensures (checkWorkers cfg) w fun _ w' =>
      w.store.jobs.Evolves Settles w'.store.jobs := by
  refine ensures_perform fun d hd => ?_
  have hquiet := (quiet_step (c := .markStaleWorkers cfg.heartbeatTimeout
    cfg.suspectGracePeriod) rfl w d).1
  simp only [steady_step, step, guarded_of_none (hd.2.1 rfl)] at hquiet ⊢
  refine ensures_bind (ensures_mono (ensures_evolves_forEach dropWorker_evolves _) ?_)
  intro _ w' h
  refine ensures_ret ?_
  rwa [hquiet] at h

theorem promoteDueJobs_evolves (cfg : SchedulerConfig) (w : World) :
    (steady clock).Ensures (promoteDueJobs cfg) w fun _ w' =>
      w.store.jobs.Evolves Promotes w'.store.jobs := by
  refine ensures_of_calls ?_ (promoteDueJobs_calls cfg) (evolves_refl _ _)
  intro c w₁ d hc _ hevolves
  rcases step_jobs c w₁ d with hsame | ⟨job, rfl, -⟩ |
    ⟨id, state, fields, onlyFrom, job, rfl, hjob, hguard, hput⟩
  · rwa [steady_step, hsame]
  · exact hc.elim
  · obtain ⟨rfl, -, rfl⟩ := hc
    rw [steady_step, hput]
    refine evolves_trans promotes_trans hevolves (evolves_put (a := job) ?_ ⟨?_, rfl⟩)
    · rwa [applyUpdate_id, key_of_get? hjob]
    · simpa using hguard

/-- What one complete operation of the scheduler can do to the jobs. -/
structure Advances (w w' : World) : Prop where
  kept : ∀ {id job}, w.store.jobs.get? id = some job → ∃ job',
    w'.store.jobs.get? id = some job' ∧
      (job' = job ∨ Promotes job job' ∨ Dispatches job job' ∨ Settles job job')
  created : ∀ {id job}, w.store.jobs.get? id = none → w'.store.jobs.get? id = some job →
    job.state = .scheduled ∧ Fresh w id

theorem advances_of_evolves {R : Job → Job → Prop} {w w' : World}
    (h : w.store.jobs.Evolves R w'.store.jobs)
    (hR : ∀ job job', R job job' →
      Promotes job job' ∨ Dispatches job job' ∨ Settles job job') : Advances w w' where
  kept := by
    intro id job hjob
    obtain ⟨job', hjob', hstep⟩ := h.kept hjob
    exact ⟨job', hjob', hstep.imp_right (hR job job')⟩
  created := by
    intro id job hnone hsome
    simp [h.absent hnone] at hsome

theorem advances_of_settledFrom {w w' : World} {job : Job} {spawns : Bool}
    (hjob : w.store.jobs.get? job.id = some job) (h : SettledFrom w job spawns w') :
    Advances w w' where
  kept := by
    intro id other hother
    by_cases hid : id = job.id
    · subst hid
      obtain rfl := Option.some.inj (hjob.symm.trans hother)
      obtain ⟨job', hjob', hown⟩ := h.own
      exact ⟨job', hjob', hown.imp_right fun hsettles => Or.inr (Or.inr hsettles)⟩
    · exact ⟨other, h.others hid hother, Or.inl rfl⟩
  created := fun hnone hsome => (h.created hnone hsome).2

theorem advances_of_same {w w' : World} (h : w'.store.jobs = w.store.jobs) :
    Advances w w' :=
  advances_of_evolves (R := Settles) (h ▸ evolves_refl _ _) fun _ _ hR => Or.inr (Or.inr hR)

theorem advances_of_dispatch {message : QueuedJob} {w w' : World} {job job' : Job}
    {ex : JobExecution} (h : Dispatch message w w' job job' ex) : Advances w w' := by
  refine advances_of_evolves (R := Dispatches) ?_ fun _ _ hR => Or.inr (Or.inl hR)
  rw [h.jobs]
  refine evolves_put (a := job) ?_ ⟨h.queueable, h.state⟩
  rw [h.id, key_of_get? h.stored]
  exact h.stored

theorem scheduler_advances (cron : Cron) (cfg : SchedulerConfig) {task : Task}
    (htask : task.ofScheduler) (w : World) :
    (steady clock).Ensures (task.body cron cfg) w fun _ w' => Advances w w' := by
  have hsettles : ∀ (_ : Except Err Unit) (w' : World),
      w.store.jobs.Evolves Settles w'.store.jobs → Advances w w' :=
    fun _ _ h => advances_of_evolves h fun _ _ hR => Or.inr (Or.inr hR)
  cases task with
  | createJob body => exact absurd htask Bool.false_ne_true
  | cancelJob id => exact absurd htask Bool.false_ne_true
  | promoteDueJobs =>
      refine ensures_return (ensures_mono (promoteDueJobs_evolves cfg w) fun _ _ h => ?_)
      exact advances_of_evolves h fun _ _ hR => Or.inl hR
  | handleQueuedJob message =>
      refine ensures_return (ensures_mono (handleQueuedJob_ensures message w) ?_)
      rintro _ w' (hsame | ⟨_, _, _, hdispatch, -⟩)
      · exact advances_of_same hsame.1
      · exact advances_of_dispatch hdispatch
  | handleResult jobID executionID workerID attempt result =>
      refine ensures_return (ensures_mono
        (handleResult_settles cron jobID executionID workerID attempt result w) ?_)
      rintro _ w' (hsame | ⟨job, hjob, hsettled⟩)
      · exact advances_of_same hsame
      · exact advances_of_settledFrom hjob hsettled
  | pushPendingCancels =>
      exact ensures_return (ensures_mono (pushPendingCancels_evolves cfg w) hsettles)
  | watchdogTimeouts =>
      exact ensures_return (ensures_mono (watchdogTimeouts_evolves cron cfg w) hsettles)
  | checkWorkers =>
      exact ensures_return (ensures_mono (checkWorkers_evolves cfg w) hsettles)

/-- The lifecycle graph between the worlds before and after an operation. -/
structure LifecycleStep (w w' : World) : Prop where
  terminal : ∀ {id job}, w.store.jobs.get? id = some job → job.state.terminal →
    w'.store.jobs.get? id = some job
  cancelRequested : ∀ {id}, w.jobState id = some .cancelRequested →
    w'.jobState id = some .cancelRequested ∨ w'.jobState id = some .cancelled
  queued : ∀ {id before}, w.jobState id = some before → w'.jobState id = some .queued →
    before = .queued ∨ before = .scheduled ∨ before = .retrying
  active : ∀ {id before after}, w.jobState id = some before → w'.jobState id = some after →
    after = .assigned ∨ after = .running →
      before = after ∨ before = .queued ∨ before = .scheduled ∨ before = .retrying
  retrying : ∀ {id before}, w.jobState id = some before → w'.jobState id = some .retrying →
    before = .retrying ∨ before.terminal = false ∧ before ≠ .cancelRequested
  created : ∀ {id state}, w.jobState id = none → w'.jobState id = some state →
    state = .scheduled ∧ Fresh w id

def Edge (before after : JobState) : Prop :=
  (before = .scheduled ∨ before = .retrying) ∧ after = .queued ∨
    before.queueable ∧ (after = .assigned ∨ after = .running) ∨
      before.terminal = false ∧ settledState before after

theorem edge_live {before after : JobState} (h : Edge before after) :
    before.terminal = false := by
  rcases h with ⟨rfl | rfl, -⟩ | ⟨hqueueable, -⟩ | ⟨hlive, -⟩
  · rfl
  · rfl
  · rcases queueable_iff.mp hqueueable with rfl | rfl | rfl <;> rfl
  · exact hlive

theorem edge_cancelRequested {after : JobState} (h : Edge .cancelRequested after) :
    after = .cancelled := by
  simpa [Edge, settledState, JobState.queueable, JobState.terminal] using h

theorem edge_queued {before : JobState} (h : Edge before .queued) :
    before = .scheduled ∨ before = .retrying := by
  rcases h with ⟨hwaiting, -⟩ | ⟨-, hactive⟩ | ⟨-, hsettled⟩
  · exact hwaiting
  · simp at hactive
  · cases before <;> exact absurd hsettled Bool.false_ne_true

theorem edge_active {before after : JobState} (h : Edge before after)
    (hafter : after = .assigned ∨ after = .running) :
    before = .queued ∨ before = .scheduled ∨ before = .retrying := by
  rcases h with ⟨-, rfl⟩ | ⟨hqueueable, -⟩ | ⟨-, hsettled⟩
  · simp at hafter
  · exact queueable_iff.mp hqueueable
  · rcases hafter with rfl | rfl <;> cases before <;>
      exact absurd hsettled Bool.false_ne_true

theorem edge_retrying {before : JobState} (h : Edge before .retrying) :
    before.terminal = false ∧ before ≠ .cancelRequested := by
  refine ⟨edge_live h, ?_⟩
  rintro rfl
  exact absurd (edge_cancelRequested h) (by simp)

theorem edge_of_advances {w w' : World} (h : Advances w w') {id : String}
    {before : JobState} (hbefore : w.jobState id = some before) :
    ∃ after, w'.jobState id = some after ∧ (after = before ∨ Edge before after) := by
  obtain ⟨job, hjob, rfl⟩ := Option.map_eq_some_iff.mp hbefore
  obtain ⟨job', hjob', hstep⟩ := h.kept hjob
  refine ⟨job'.state, by rw [World.jobState, hjob']; rfl, ?_⟩
  rcases hstep with rfl | hstep
  · exact Or.inl rfl
  · exact Or.inr hstep

theorem terminal_of_advances {w w' : World} (h : Advances w w') {id : String} {job : Job}
    (hjob : w.store.jobs.get? id = some job) (hterminal : job.state.terminal) :
    w'.store.jobs.get? id = some job := by
  obtain ⟨job', hjob', rfl | hstep⟩ := h.kept hjob
  · exact hjob'
  · have hedge : Edge job.state job'.state := hstep
    simp [edge_live hedge] at hterminal

/-- Every complete operation of the scheduler over a store that does not fail
moves the jobs along the lifecycle graph. -/
theorem scheduler_lifecycle (cron : Cron) (cfg : SchedulerConfig) {task : Task}
    (htask : task.ofScheduler) {w w' : World}
    (hperforms : Performs cron cfg (steady fun _ => True) task w w') : LifecycleStep w w' := by
  obtain ⟨ds, outcome, hrun⟩ := hperforms
  have h : Advances w w' := scheduler_advances cron cfg htask w ds outcome w' hrun
  have hedge : ∀ {id before after}, w.jobState id = some before →
      w'.jobState id = some after → before = after ∨ Edge before after := by
    intro id before after hbefore hafter
    obtain ⟨reached, hreached, hstep⟩ := edge_of_advances h hbefore
    obtain rfl := Option.some.inj (hreached.symm.trans hafter)
    exact hstep.imp_left Eq.symm
  constructor
  case terminal => exact terminal_of_advances h
  case cancelRequested =>
    intro id hbefore
    obtain ⟨after, hafter, rfl | hstep⟩ := edge_of_advances h hbefore
    · exact Or.inl hafter
    · exact Or.inr (by rw [hafter, edge_cancelRequested hstep])
  case queued => exact fun hbefore hafter => (hedge hbefore hafter).imp_right edge_queued
  case active =>
    exact fun hbefore hafter hactive =>
      (hedge hbefore hafter).imp_right fun hstep => edge_active hstep hactive
  case retrying => exact fun hbefore hafter => (hedge hbefore hafter).imp_right edge_retrying
  case created =>
    intro id state hnone hsome
    obtain ⟨job, hjob, rfl⟩ := Option.map_eq_some_iff.mp hsome
    exact h.created (Option.map_eq_none_iff.mp hnone) hjob

theorem promotion_lifecycle :
    ∃ w', (oneWorker (echoJob .scheduled) []).jobState "job" = some .scheduled ∧
      w'.jobState "job" = some .queued ∧
      LifecycleStep (oneWorker (echoJob .scheduled) []) w' := by
  let w' := (perform utcOnly smallConfig (steady fun _ => True) .promoteDueJobs
    (sweepDraws 6 1) (oneWorker (echoJob .scheduled) [])).get (by decide +kernel)
  exact ⟨w', by decide +kernel, by decide +kernel,
    scheduler_lifecycle utcOnly smallConfig rfl (performs_of_get _ _ _)⟩

end Chronos.LifecycleGraph
