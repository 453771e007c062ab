import Chronos.LifecycleGraph

namespace Chronos.WorkerLoss

open Chronos.Domain
open Chronos.Library.CallProgram
open Chronos.Library.CallMachine
open Chronos.Library.KeyedTable
open Chronos.LifecycleGraph (Snapshot snapshot_collect snapshot_append)
open Chronos.MemoryStore
open Chronos.Operations (echoJob)
open Chronos.SchedulerService
open Chronos.SharedState

/-- The states in which a worker has a job. -/
def active : JobState → Bool
  | .running | .assigned | .cancelRequested => true
  | _ => false

theorem active_cases {state : JobState} (hactive : active state) :
    state = .running ∨ state = .assigned ∨ state = .cancelRequested := by
  cases state <;> simp_all [active]

/-- The state in which a job is left when its worker is lost. -/
def recoveredState (job : Job) : JobState :=
  if job.state = .cancelRequested then .cancelled
  else if job.attempt < job.maxAttempts then .retrying
  else .failed

theorem recoveredState_inactive (job : Job) : active (recoveredState job) = false := by
  unfold recoveredState
  split
  · rfl
  · split <;> rfl

def Closed (ex : JobExecution) : Prop := ex.state = .failed ∧ ex.finishedAt.isSome

/-- From `w` to `w'` the job has got the state that the loss of its worker leads to, and its
execution is finished. -/
structure Recovered (w w' : World) (job : Job) : Prop where
  state : w'.jobState job.id = some (recoveredState job)
  execution : job.executionID ≠ "" → ∀ ex,
    w.store.executions.get? job.executionID = some ex →
      ∃ ex', w'.store.executions.get? job.executionID = some ex' ∧ Closed ex'

/-- What recovery does to the tables: a job is as it was or recovered, an execution is as it
was or closed. -/
structure Progress (w w' : World) : Prop where
  jobs : ∀ {id job}, w.store.jobs.get? id = some job →
    w'.store.jobs.get? id = some job ∨ active job.state ∧ Recovered w w' job
  absent : ∀ {id}, w.store.jobs.get? id = none → w'.store.jobs.get? id = none
  executions : w.store.executions.Evolves (fun _ ex => Closed ex) w'.store.executions

section Progress

variable {w w₁ w₂ : World} {job : Job} {id : String}

theorem progress_of_same (hjobs : w₁.store.jobs = w.store.jobs)
    (hexecutions : w₁.store.executions = w.store.executions) : Progress w w₁ where
  jobs := fun h => Or.inl (by rw [hjobs, h])
  absent := fun h => by rw [hjobs, h]
  executions := by
    rw [hexecutions]
    exact evolves_refl _ _

theorem closed_of_evolves {E E' : ExecutionTable} {executionID : String}
    (hevolves : E.Evolves (fun _ ex => Closed ex) E')
    (hclosed : ∃ ex, E.get? executionID = some ex ∧ Closed ex) :
    ∃ ex, E'.get? executionID = some ex ∧ Closed ex := by
  obtain ⟨ex, hex, hclosed⟩ := hclosed
  obtain ⟨ex', hex', rfl | hclosed'⟩ := hevolves.kept hex
  · exact ⟨ex', hex', hclosed⟩
  · exact ⟨ex', hex', hclosed'⟩

/-- A recovered job stays recovered. -/
theorem recovered_progress (hrecovered : Recovered w w₁ job) (hprogress : Progress w₁ w₂) :
    Recovered w w₂ job where
  state := by
    obtain ⟨stored, hstored, hstate⟩ := Option.map_eq_some_iff.mp hrecovered.state
    rcases hprogress.jobs hstored with hsame | ⟨hactive, -⟩
    · rw [World.jobState, hsame, Option.map_some, hstate]
    · rw [hstate, recoveredState_inactive] at hactive
      cases hactive
  execution := fun hnonempty ex hex =>
    closed_of_evolves hprogress.executions (hrecovered.execution hnonempty ex hex)

theorem recovered_of_progress (hprogress : Progress w w₁) (hrecovered : Recovered w₁ w₂ job) :
    Recovered w w₂ job where
  state := hrecovered.state
  execution := by
    intro hnonempty ex hex
    obtain ⟨ex₁, hex₁, -⟩ := hprogress.executions.kept hex
    exact hrecovered.execution hnonempty ex₁ hex₁

theorem progress_trans (h : Progress w w₁) (h' : Progress w₁ w₂) : Progress w w₂ where
  jobs := by
    intro id job hjob
    rcases h.jobs hjob with hsame | ⟨hactive, hrecovered⟩
    · rcases h'.jobs hsame with hsame' | ⟨hactive, hrecovered⟩
      · exact Or.inl hsame'
      · exact Or.inr ⟨hactive, recovered_of_progress h hrecovered⟩
    · exact Or.inr ⟨hactive, recovered_progress hrecovered h'⟩
  absent := fun hnone => h'.absent (h.absent hnone)
  executions := evolves_trans (fun _ _ _ _ hclosed => hclosed) h.executions h'.executions

end Progress

section RecoverJobs

variable {clock : Time → Prop} {workerID : String} {w : World} {job : Job}

/-- The execution, if it is stored, is finished in the given state; no other is touched. -/
structure Finishes (state : ExecutionState) (executionID : String) (E E' : ExecutionTable) :
    Prop where
  finished : executionID ≠ "" → ∀ ex, E.get? executionID = some ex →
    ∃ ex', E'.get? executionID = some ex' ∧ ex'.state = state ∧ ex'.finishedAt.isSome
  others : ∀ id, id ≠ executionID ∨ id = "" ∨ E.get? id = none → E'.get? id = E.get? id

theorem closeExecution_finishes (executionID : String) (state : ExecutionState)
    (result : ExecutionResult) (w : World) :
    (steady clock).Ensures (closeExecution executionID state result) w fun _ w' =>
      w'.store.jobs = w.store.jobs ∧
        Finishes state executionID w.store.executions w'.store.executions := by
  unfold closeExecution
  split
  · rename_i hempty
    exact ensures_ret ⟨rfl, ⟨fun hne => absurd hempty hne, fun _ _ => rfl⟩⟩
  · rename_i hnonempty
    refine ensures_perform fun d hd => ensures_ret ?_
    simp only [steady_step, step, guarded_of_none (hd.2.1 rfl), Store.finishExecution]
    cases hex : w.store.executions.get? executionID with
    | none =>
        refine ⟨rfl, ⟨fun _ ex h => ?_, fun _ _ => rfl⟩⟩
        rw [hex] at h
        cases h
    | some ex =>
        obtain rfl := key_of_get? hex
        refine ⟨rfl, ⟨fun _ _ _ => ⟨_, get?_put_self _ _, rfl, rfl⟩, fun id hid => ?_⟩⟩
        refine get?_put_of_ne _ fun heq => ?_
        rcases hid with hne | hempty | hnone
        · exact hne heq
        · exact hnonempty (heq ▸ hempty)
        · rw [heq, hex] at hnone
          cases hnone

theorem closeExecution_closes (executionID : String) (result : ExecutionResult) (w : World) :
    (steady clock).Ensures (closeExecution executionID .failed result) w fun _ w' =>
      w'.store.jobs = w.store.jobs ∧
        w.store.executions.Evolves (fun _ ex => Closed ex) w'.store.executions ∧
        (executionID ≠ "" → ∀ ex, w.store.executions.get? executionID = some ex →
          ∃ ex', w'.store.executions.get? executionID = some ex' ∧ Closed ex') := by
  refine ensures_mono (closeExecution_finishes executionID .failed result w) ?_
  rintro _ w' ⟨hjobs, h⟩
  refine ⟨hjobs, ⟨fun {id ex} hex => ?_, fun {id} hnone => ?_⟩, h.finished⟩
  · by_cases hid : id ≠ executionID ∨ id = ""
    · exact ⟨ex, by rw [h.others id (hid.imp_right Or.inl), hex], Or.inl rfl⟩
    · obtain ⟨rfl, hne⟩ : id = executionID ∧ id ≠ "" := by simpa [not_or] using hid
      obtain ⟨ex', hex', hclosed⟩ := h.finished hne ex hex
      exact ⟨ex', hex', Or.inr hclosed⟩
  · rw [h.others id (Or.inr (Or.inr hnone)), hnone]

theorem recoverJob_recovers (now : Time) (hjob : w.store.jobs.get? job.id = some job) :
    (steady clock).Ensures (recoverJob workerID now job) w fun _ w' =>
      Recovered w w' job ∧
        (∀ {id}, id ≠ job.id → w'.store.jobs.get? id = w.store.jobs.get? id) ∧
        w.store.executions.Evolves (fun _ ex => Closed ex) w'.store.executions := by
  refine ensures_bind (ensures_mono (closeExecution_closes job.executionID _ w) ?_)
  rintro _ w₁ ⟨hjobs, hevolves, hclosed⟩
  have hstored : w₁.store.jobs.get? job.id = some job := by rw [hjobs, hjob]
  have hwrite : ∀ {state : JobState} {fields : Fields} {event : Event},
      recoveredState job = state →
      (steady clock).Ensures (ask (.updateJobStateIf job.id state fields []) >>= fun _ =>
        ask (.emit event) >>= fun _ => (pure () : Prog Unit)) w₁ fun _ w' =>
        Recovered w w' job ∧
          (∀ {id}, id ≠ job.id → w'.store.jobs.get? id = w.store.jobs.get? id) ∧
          w.store.executions.Evolves (fun _ ex => Closed ex) w'.store.executions := by
    rintro _ fields event rfl
    refine ensures_perform fun d hd => ensures_perform fun d₁ _ => ensures_ret ?_
    rw [steady_step]
    generalize hw' : (step (.emit event) (step (.updateJobStateIf job.id (recoveredState job)
      fields []) w₁ d).2 d₁).2 = w'
    have htables : w'.store.jobs = w₁.store.jobs.put
          (applyUpdate job (recoveredState job) fields d.now) ∧
        w'.store.executions = w₁.store.executions := by
      rw [← hw', (quiet_step rfl _ _).1, (quiet_step rfl _ _).2]
      simp only [step, guarded_of_none (hd.2.1 rfl),
        updateJobStateIf_of_some hstored _ fields (Or.inl rfl)]
      exact ⟨rfl, rfl⟩
    refine ⟨⟨?_, ?_⟩, fun hne => ?_, ?_⟩
    · rw [World.jobState, htables.1, get?_put_applyUpdate hstored]
      rfl
    · rwa [htables.2]
    · rw [htables.1, get?_put_of_ne _ (by rwa [applyUpdate_id]), hjobs]
    · rwa [htables.2]
  split
  · rename_i hstate
    exact hwrite (if_pos hstate)
  · rename_i hstate
    split
    · rename_i hattempt
      exact hwrite ((if_neg hstate).trans (if_pos hattempt))
    · rename_i hattempt
      exact hwrite ((if_neg hstate).trans (if_neg hattempt))

theorem progress_of_recovered {w' : World} (hjob : w.store.jobs.get? job.id = some job)
    (hactive : active job.state) (hrecovered : Recovered w w' job)
    (hothers : ∀ {id}, id ≠ job.id → w'.store.jobs.get? id = w.store.jobs.get? id)
    (hexecutions : w.store.executions.Evolves (fun _ ex => Closed ex) w'.store.executions) :
    Progress w w' where
  jobs := by
    intro id old hold
    by_cases hid : id = job.id
    · subst hid
      obtain rfl := Option.some.inj (hold.symm.trans hjob)
      exact Or.inr ⟨hactive, hrecovered⟩
    · exact Or.inl ((hothers hid).trans hold)
  absent := by
    intro id hnone
    rw [hothers, hnone]
    rintro rfl
    rw [hjob] at hnone
    cases hnone
  executions := hexecutions

/-- What the loop of `recoverWorkerJobs` does with a snapshot of active jobs, when `rest` is
still to do: it recovers the jobs of the worker and leaves every other job alone. -/
structure Sweeps (workerID : String) (jobs rest : List Job) (w w' : World) : Prop where
  snapshot : Snapshot w'.store.jobs (fun state => active state) rest
  listed : ∀ job ∈ rest, job ∈ jobs
  progress : Progress w w'
  recovered : ∀ job ∈ jobs, job ∈ rest ∨ (job.workerID = workerID → Recovered w w' job)
  spared : ∀ {id job}, w.store.jobs.get? id = some job →
    ¬(job ∈ jobs ∧ job.workerID = workerID) → w'.store.jobs.get? id = some job

theorem snapshot_tail {jobs : JobTable} {P : JobState → Prop} {rest : List Job}
    (h : Snapshot jobs P (job :: rest)) : Snapshot jobs P rest where
  nodup := (List.nodup_cons.mp h.nodup).2
  stored := fun other hother => h.stored other (List.mem_cons_of_mem _ hother)
  states := fun other hother => h.states other (List.mem_cons_of_mem _ hother)

theorem sweeps_skip {jobs rest : List Job} {w' : World} (hother : job.workerID ≠ workerID)
    (h : Sweeps workerID jobs (job :: rest) w w') : Sweeps workerID jobs rest w w' where
  snapshot := snapshot_tail h.snapshot
  listed := fun other hmem => h.listed other (List.mem_cons_of_mem _ hmem)
  progress := h.progress
  recovered := by
    intro other hmem
    rcases h.recovered other hmem with hrest | hdone
    · rcases List.mem_cons.mp hrest with rfl | hrest
      · exact Or.inr fun hsame => absurd hsame hother
      · exact Or.inl hrest
    · exact Or.inr hdone
  spared := h.spared

theorem sweeps_recover {jobs rest : List Job} {w₁ w₂ : World} (hworker : job.workerID = workerID)
    (h : Sweeps workerID jobs (job :: rest) w w₁) (hrecovered : Recovered w₁ w₂ job)
    (hothers : ∀ {id}, id ≠ job.id → w₂.store.jobs.get? id = w₁.store.jobs.get? id)
    (hexecutions : w₁.store.executions.Evolves (fun _ ex => Closed ex) w₂.store.executions) :
    Sweeps workerID jobs rest w w₂ := by
  have hjob := h.snapshot.stored job List.mem_cons_self
  have hactive := h.snapshot.states job List.mem_cons_self
  have hstep := progress_of_recovered hjob hactive hrecovered hothers hexecutions
  have hfresh := (List.nodup_cons.mp h.snapshot.nodup).1
  refine ⟨⟨?_, ?_, ?_⟩, ?_, progress_trans h.progress hstep, ?_, ?_⟩
  · exact (snapshot_tail h.snapshot).nodup
  · intro other hother
    rw [hothers fun heq => hfresh (heq ▸ List.mem_map_of_mem hother)]
    exact (snapshot_tail h.snapshot).stored other hother
  · exact (snapshot_tail h.snapshot).states
  · exact fun other hmem => h.listed other (List.mem_cons_of_mem _ hmem)
  · intro other hmem
    rcases h.recovered other hmem with hrest | hdone
    · rcases List.mem_cons.mp hrest with rfl | hrest
      · exact Or.inr fun _ => recovered_of_progress h.progress hrecovered
      · exact Or.inl hrest
    · exact Or.inr fun hsame => recovered_progress (hdone hsame) hstep
  · intro id old hold hspared
    have hkept := h.spared hold hspared
    rw [hothers, hkept]
    rintro rfl
    obtain rfl := Option.some.inj (hkept.symm.trans hjob)
    exact hspared ⟨h.listed _ List.mem_cons_self, hworker⟩

theorem sweeps_quiet {jobs rest : List Job} (w₁ : World) {w₂ : World}
    (hjobs : w₂.store.jobs = w₁.store.jobs)
    (hexecutions : w₂.store.executions = w₁.store.executions)
    (h : Sweeps workerID jobs rest w w₁) : Sweeps workerID jobs rest w w₂ where
  snapshot := by
    rw [hjobs]
    exact h.snapshot
  listed := h.listed
  progress := progress_trans h.progress (progress_of_same hjobs hexecutions)
  recovered := fun job hjob => (h.recovered job hjob).imp_right fun hdone hsame =>
    recovered_progress (hdone hsame) (progress_of_same hjobs hexecutions)
  spared := fun hold hspared => by rw [hjobs, h.spared hold hspared]

theorem recoverJobs_sweeps {jobs : List Job}
    (hsnapshot : Snapshot w.store.jobs (fun state => active state) jobs) :
    (steady clock).Ensures (recoverJobs workerID jobs) w fun _ w' =>
      Sweeps workerID jobs [] w w' := by
  refine ensures_perform fun d _ => ?_
  simp only [steady_step, step]
  refine ensures_bind (ensures_mono (ensures_forEach (I := fun rest w' =>
    Sweeps workerID jobs rest w w') ?_ ?_) ?_)
  · intro job rest w₁ hsweeps
    split
    · exact ensures_ret (sweeps_skip ‹_› hsweeps)
    · rename_i hworker
      refine ensures_mono (recoverJob_recovers d.now
        (hsweeps.snapshot.stored job List.mem_cons_self)) ?_
      rintro _ w₂ ⟨hrecovered, hothers, hexecutions⟩
      exact sweeps_recover (not_not.mp hworker) hsweeps hrecovered hothers hexecutions
  · exact ⟨hsnapshot, fun _ h => h, progress_of_same rfl rfl, fun _ h => Or.inl h, fun h _ => h⟩
  · intro _ w₁ hsweeps
    exact ensures_perform fun _ _ => ensures_ret (sweeps_quiet w₁ rfl rfl hsweeps)

end RecoverJobs

section DropWorker

variable {clock : Time → Prop} {workerID : String} {w : World}

def inState (jobs : JobTable) (state : JobState) : Finset String :=
  jobs.matching fun job => job.state == state

/-- A listing by state has all jobs of the state if there are no more than the limit. -/
theorem mem_listJobs {s : Store} {order : List String} {state : JobState} {id : String}
    {job : Job} (horder : s.jobs.Enumerates order) (hjob : s.jobs.get? id = some job)
    (hstate : job.state = state) (hfew : (inState s.jobs state).card ≤ 1000) :
    job ∈ s.listJobs order (some state) 1000 := by
  have hlength := Enumerates.length_filter horder fun job : Job => job.state == state
  have hlimit : ((([] : List Job).length + ((s.jobs.inOrder order).filter
      fun job => job.state == state).length : Nat) : Int) ≤ defaultLimit 1000 := by
    rw [hlength, List.length_nil, Nat.zero_add]
    exact Int.ofNat_le.mpr hfew
  obtain rfl := key_of_get? hjob
  rw [Store.listJobs, collect_eq_filter hlimit, List.nil_append, List.mem_filter]
  exact ⟨(Enumerates.mem_inOrder horder).mpr hjob, by simpa using hstate⟩

/-- The listings of `recoverWorkerJobs` are a snapshot of active jobs. -/
theorem snapshot_listings {s : Store} {o₁ o₂ o₃ : List String} (h₁ : s.jobs.Enumerates o₁)
    (h₂ : s.jobs.Enumerates o₂) (h₃ : s.jobs.Enumerates o₃) :
    Snapshot s.jobs (fun state => active state) (s.listJobs o₁ (some .running) 1000 ++
      s.listJobs o₂ (some .assigned) 1000 ++ s.listJobs o₃ (some .cancelRequested) 1000) := by
  have hlisted : ∀ {order : List String}, s.jobs.Enumerates order → ∀ state,
      Snapshot s.jobs (· = state) (s.listJobs order (some state) 1000) :=
    fun horder state => snapshot_collect horder (fun job hjob => by simpa using hjob) _
  have happended := snapshot_append (snapshot_append (hlisted h₁ .running)
    (hlisted h₂ .assigned) (by rintro _ rfl; simp)) (hlisted h₃ .cancelRequested)
    (by rintro _ (rfl | rfl) <;> simp)
  refine ⟨happended.nodup, happended.stored, fun job hjob => ?_⟩
  rcases happended.states job hjob with (hstate | hstate) | hstate <;> rw [hstate] <;> rfl

/-- One worker's recovery: the jobs of other workers are left alone, and those of the worker
are recovered if their state has no more jobs than the listing takes. -/
structure Drops (workerID : String) (w w' : World) : Prop where
  progress : Progress w w'
  recovered : ∀ {id job}, w.store.jobs.get? id = some job → active job.state →
    job.workerID = workerID → (inState w.store.jobs job.state).card ≤ 1000 →
    Recovered w w' job
  spared : ∀ {id job}, w.store.jobs.get? id = some job → job.workerID ≠ workerID →
    w'.store.jobs.get? id = some job

theorem drops_of_sweeps {w' : World} {o₁ o₂ o₃ : List String}
    (h₁ : w.store.jobs.Enumerates o₁) (h₂ : w.store.jobs.Enumerates o₂)
    (h₃ : w.store.jobs.Enumerates o₃)
    (h : Sweeps workerID (w.store.listJobs o₁ (some .running) 1000 ++
      w.store.listJobs o₂ (some .assigned) 1000 ++
      w.store.listJobs o₃ (some .cancelRequested) 1000) [] w w') : Drops workerID w w' where
  progress := h.progress
  recovered := by
    intro id job hjob hactive hworker hfew
    refine (h.recovered job ?_).resolve_left List.not_mem_nil hworker
    rw [List.mem_append, List.mem_append]
    cases hstate : job.state with
    | running => exact Or.inl (Or.inl (mem_listJobs h₁ hjob hstate (hstate ▸ hfew)))
    | assigned => exact Or.inl (Or.inr (mem_listJobs h₂ hjob hstate (hstate ▸ hfew)))
    | cancelRequested => exact Or.inr (mem_listJobs h₃ hjob hstate (hstate ▸ hfew))
    | _ =>
        rw [hstate] at hactive
        cases hactive
  spared := fun hold hother => h.spared hold fun hboth => hother hboth.2

theorem drops_of_same {w₁ w' : World} (hjobs : w₁.store.jobs = w.store.jobs)
    (hexecutions : w₁.store.executions = w.store.executions) (h : Drops workerID w₁ w') :
    Drops workerID w w' where
  progress := progress_trans (progress_of_same hjobs hexecutions) h.progress
  recovered := by
    intro id job hjob hactive hworker hfew
    rw [← hjobs] at hjob hfew
    exact recovered_of_progress (progress_of_same hjobs hexecutions)
      (h.recovered hjob hactive hworker hfew)
  spared := by
    intro id job hjob hother
    rw [← hjobs] at hjob
    exact h.spared hjob hother

theorem recoverWorkerJobs_drops (workerID : String) (w : World) :
    (steady clock).Ensures (recoverWorkerJobs workerID) w fun _ w' => Drops workerID w w' := by
  refine ensures_perform fun d₁ h₁ => ?_
  simp only [steady_step, step, guarded_of_none (h₁.2.1 rfl)]
  refine ensures_perform fun d₂ h₂ => ?_
  simp only [steady_step, step, guarded_of_none (h₂.2.1 rfl)]
  refine ensures_perform fun d₃ h₃ => ?_
  simp only [steady_step, step, guarded_of_none (h₃.2.1 rfl)]
  exact ensures_mono (recoverJobs_sweeps (snapshot_listings h₁.1 h₂.1 h₃.1))
    fun _ _ h => drops_of_sweeps h₁.1 h₂.1 h₃.1 h

theorem dropWorker_drops (workerID : String) (w : World) :
    (steady clock).Ensures (dropWorker workerID) w fun _ w' => Drops workerID w w' := by
  refine ensures_perform fun d _ => ensures_perform fun d' _ => ?_
  refine ensures_bind (ensures_mono (recoverWorkerJobs_drops workerID _) fun _ w' h => ?_)
  refine ensures_ret (drops_of_same ?_ ?_ h)
  · rw [steady_step, (quiet_step rfl _ _).1, (quiet_step rfl _ _).1]
  · rw [steady_step, (quiet_step rfl _ _).2, (quiet_step rfl _ _).2]

end DropWorker

variable (cfg : SchedulerConfig) (w : World) (t : Time)

/-- A pass of `checkWorkers` with the reading `t` marks the worker UNAVAILABLE. -/
def Marks (workerID : String) : Prop :=
  ∃ worker, w.store.workers.get? workerID = some worker ∧
    Lost t cfg.heartbeatTimeout cfg.suspectGracePeriod worker

/-- However the pass goes, every active job of a worker that it marks is recovered. -/
def RecoveryComplete : Prop :=
  ∀ {d ds result w'}, (steady fun _ => True).Runs (checkWorkers cfg) w (d :: ds) result w' →
    d.now = t → ∀ id job, w.store.jobs.get? id = some job → active job.state →
      Marks cfg w t job.workerID → Recovered w w' job

/-- No active state has more than 1000 jobs and a job of a worker that the pass marks. -/
def WithinLimit : Prop :=
  ∀ state, active state → (inState w.store.jobs state).card ≤ 1000 ∨
    ∀ id job, w.store.jobs.get? id = some job → job.state = state →
      ¬Marks cfg w t job.workerID

section Complete

variable {cfg : SchedulerConfig} {w : World} {t : Time}

theorem inState_progress {w₁ : World} (hprogress : Progress w w₁) {state : JobState}
    (hactive : active state) : inState w₁.store.jobs state ⊆ inState w.store.jobs state := by
  intro id hid
  obtain ⟨job, hjob, hstate⟩ := mem_matching.mp hid
  have hstate : job.state = state := by simpa using hstate
  cases hold : w.store.jobs.get? id with
  | none =>
      rw [hprogress.absent hold] at hjob
      cases hjob
  | some old =>
      rcases hprogress.jobs hold with hsame | ⟨-, hrecovered⟩
      · obtain rfl := Option.some.inj (hsame.symm.trans hjob)
        exact mem_matching.mpr ⟨_, hold, by simpa using hstate⟩
      · have hfound := hrecovered.state
        rw [key_of_get? hold, World.jobState, hjob, Option.map_some, Option.some.injEq,
          hstate] at hfound
        rw [hfound, recoveredState_inactive] at hactive
        cases hactive

/-- A pass is a loop over the workers that it marks. -/
theorem checkWorkers_loop {d : Draw} {ds : List Draw} {result : Except Err Unit} {w' : World}
    (hrun : (steady fun _ => True).Runs (checkWorkers cfg) w (d :: ds) result w') :
    ∃ ids w₀ loop, (∀ id, id ∈ ids ↔ Marks cfg w d.now id) ∧
      w₀.store.jobs = w.store.jobs ∧ w₀.store.executions = w.store.executions ∧
      (steady fun _ => True).Runs (forEach ids dropWorker) w₀ loop () w' := by
  obtain ⟨d, ds, ⟨⟩, hallowed, hrun⟩ := runs_perform_iff.mp hrun
  simp only [steady_step, step, guarded_of_none (hallowed.2.1 rfl)] at hrun
  obtain ⟨loop, rest, value, w₁, rfl, hrun, hret⟩ := runs_bind_iff.mp hrun
  obtain ⟨-, -, rfl⟩ := runs_ret_iff.mp hret
  obtain ⟨hjobs, hexecutions, -⟩ := markStaleWorkers_frame w.store d.now cfg.heartbeatTimeout
    cfg.suspectGracePeriod d.order
  exact ⟨_, _, loop, mem_unavailable d.now cfg.heartbeatTimeout cfg.suspectGracePeriod hallowed.1,
    hjobs, hexecutions, hrun⟩

theorem recoveryComplete_of_withinLimit (hlimit : WithinLimit cfg w t) :
    RecoveryComplete cfg w t := by
  rintro d ds result w' hrun rfl id job hjob hactive hmarks
  have hfew : (inState w.store.jobs job.state).card ≤ 1000 :=
    (hlimit job.state hactive).resolve_right fun hnone => hnone id job hjob rfl hmarks
  obtain ⟨ids, w₀, loop, hids, hjobs, hexecutions, hrun⟩ := checkWorkers_loop hrun
  have hloop : (steady fun _ => True).Ensures (forEach ids dropWorker) w₀ fun _ w' =>
      Progress w w' ∧ (job.workerID ∈ ([] : List String) ∨ Recovered w w' job) := by
    refine ensures_forEach (I := fun rest w' =>
      Progress w w' ∧ (job.workerID ∈ rest ∨ Recovered w w' job)) ?_
      ⟨progress_of_same hjobs hexecutions, Or.inl ((hids _).mpr hmarks)⟩
    rintro first rest w₁ ⟨hprogress, hdone⟩
    refine ensures_mono (dropWorker_drops first w₁) fun _ w₂ hdrops => ?_
    refine ⟨progress_trans hprogress hdrops.progress, ?_⟩
    rcases hdone with hmem | hrecovered
    · rcases List.mem_cons.mp hmem with hworker | hrest
      · refine Or.inr ?_
        rcases hprogress.jobs hjob with hsame | ⟨-, hrecovered⟩
        · refine recovered_of_progress hprogress (hdrops.recovered hsame hactive hworker ?_)
          exact (Finset.card_le_card (inState_progress hprogress hactive)).trans hfew
        · exact recovered_progress hrecovered hdrops.progress
      · exact Or.inl hrest
    · exact Or.inr (recovered_progress hrecovered hdrops.progress)
  exact (hloop _ _ _ hrun).2.resolve_left List.not_mem_nil

/-- A pass leaves a job as it is, or its worker is marked and the job recovered. -/
theorem checkWorkers_recovers {d : Draw} {ds : List Draw} {result : Except Err Unit} {w' : World}
    {id : String} {job : Job}
    (hrun : (steady fun _ => True).Runs (checkWorkers cfg) w (d :: ds) result w')
    (hjob : w.store.jobs.get? id = some job) :
    w'.store.jobs.get? id = some job ∨
      Marks cfg w d.now job.workerID ∧ active job.state ∧ Recovered w w' job := by
  obtain ⟨ids, w₀, loop, hids, hjobs, hexecutions, hrun⟩ := checkWorkers_loop hrun
  have hloop : (steady fun _ => True).Ensures (forEach ids dropWorker) w₀ fun _ w' =>
      Progress w w' ∧ (job.workerID ∉ ids → w'.store.jobs.get? id = some job) := by
    refine ensures_mono (ensures_forEach (I := fun rest w' => (∀ first ∈ rest, first ∈ ids) ∧
      Progress w w' ∧ (job.workerID ∉ ids → w'.store.jobs.get? id = some job)) ?_
      ⟨fun _ h => h, progress_of_same hjobs hexecutions, fun _ => ?_⟩) fun _ _ h => h.2
    · rintro first rest w₁ ⟨hmarked, hprogress, hkept⟩
      refine ensures_mono (dropWorker_drops first w₁) fun _ w₂ hdrops => ?_
      refine ⟨fun next hnext => hmarked next (List.mem_cons_of_mem _ hnext),
        progress_trans hprogress hdrops.progress, fun hother => ?_⟩
      refine hdrops.spared (hkept hother) fun hsame => hother ?_
      rw [hsame]
      exact hmarked first List.mem_cons_self
    · rw [hjobs, hjob]
  obtain ⟨hprogress, hspared⟩ := hloop _ _ _ hrun
  by_cases hmarks : job.workerID ∈ ids
  · exact (hprogress.jobs hjob).imp_right fun h => ⟨(hids job.workerID).mp hmarks, h⟩
  · exact Or.inl (hspared hmarks)

end Complete

section Crowded

variable {cfg : SchedulerConfig} {w : World} {t : Time} {id : String} {job : Job}

theorem exists_steady_draw (w : World) (c : Call) :
    ∃ d, (steady fun _ => True).Allowed w c d := by
  obtain ⟨d, hallowed, -⟩ := exists_draw w c 0
  exact ⟨d, hallowed.1, fun _ => hallowed.2, trivial⟩

/-- A job that comes last in the order is not listed if its state has more jobs than the
listing takes. -/
theorem notMem_listJobs {s : Store} {rest : List String} (hjob : s.jobs.get? job.id = some job)
    (horder : s.jobs.Enumerates (rest ++ [job.id])) (hlast : job.id ∉ rest)
    (hcrowded : 1000 < (inState s.jobs job.state).card) (state : JobState) :
    job ∉ s.listJobs (rest ++ [job.id]) (some state) 1000 := by
  have hinOrder : s.jobs.inOrder (rest ++ [job.id]) = s.jobs.inOrder rest ++ [job] := by
    simp [Table.inOrder, hjob]
  intro hmem
  obtain ⟨-, hselected⟩ := List.mem_filter.mp ((collect_sublist _ _ _ _).subset hmem)
  obtain rfl : job.state = state := by simpa using hselected
  have hlength := Enumerates.length_filter horder fun other : Job => other.state == job.state
  rw [hinOrder, List.filter_append, List.length_append] at hlength
  have hone : ([job].filter fun other => other.state == job.state).length = 1 := by simp
  rw [hone] at hlength
  have hfull : defaultLimit 1000 ≤ ((([] : List Job).length +
      ((s.jobs.inOrder rest).filter fun other => other.state == job.state).length : Nat) :
        Int) := by
    rw [List.length_nil, Nat.zero_add]
    have hcount : 1000 < (s.jobs.matching fun other => other.state == job.state).card := hcrowded
    refine Int.ofNat_le.mpr (?_ : 1000 ≤ _)
    omega
  rw [Store.listJobs, hinOrder, collect_append (by decide) hfull] at hmem
  have hearlier := List.mem_of_mem_filter ((collect_sublist _ _ _ _).subset hmem)
  exact hlast (mem_inOrder.mp hearlier).1

/-- Recovery of the worker of such a job can miss it. -/
theorem dropWorker_misses (hjob : w.store.jobs.get? id = some job)
    (hcrowded : 1000 < (inState w.store.jobs job.state).card) (workerID : String) :
    (steady fun _ => True).Permits (dropWorker workerID) w fun _ w' =>
      w'.store.jobs.get? id = some job := by
  obtain rfl := key_of_get? hjob
  obtain ⟨rest, horder, hlast⟩ :=
    exists_enumerates_last (mem_keys.mpr ⟨job, hjob⟩)
  refine permits_perform (d := {}) ⟨trivial, fun _ => rfl, trivial⟩ ?_
  refine permits_perform (d := {}) ⟨trivial, fun _ => rfl, trivial⟩ ?_
  refine permits_bind ?_
  refine permits_perform (d := { order := rest ++ [job.id] })
    ⟨horder, fun _ => rfl, trivial⟩ ?_
  refine permits_perform (d := { order := rest ++ [job.id] })
    ⟨horder, fun _ => rfl, trivial⟩ ?_
  refine permits_perform (d := { order := rest ++ [job.id] })
    ⟨horder, fun _ => rfl, trivial⟩ ?_
  refine permits_of_ensures exists_steady_draw (ensures_mono (recoverJobs_sweeps
    (snapshot_listings horder horder horder)) fun _ w' hsweeps => ?_)
  refine ⟨[], (), w', .ret _ _, hsweeps.spared hjob ?_⟩
  rintro ⟨hmem, -⟩
  have hnone := notMem_listJobs hjob horder hlast hcrowded
  rcases List.mem_append.mp hmem with hmem | hmem
  · rcases List.mem_append.mp hmem with hmem | hmem
    · exact hnone _ hmem
    · exact hnone _ hmem
  · exact hnone _ hmem

/-- A pass can miss a job of a worker that it marks, if the state of the job has more than
1000 jobs. -/
theorem exists_unrecovered (hjob : w.store.jobs.get? id = some job)
    (hcrowded : 1000 < (inState w.store.jobs job.state).card)
    (hmarks : Marks cfg w t job.workerID) :
    ∃ d ds result w', (steady fun _ => True).Runs (checkWorkers cfg) w (d :: ds) result w' ∧
      d.now = t ∧ w'.store.jobs.get? id = some job := by
  obtain ⟨worker, hworker, hlost⟩ := hmarks
  obtain ⟨rest, horder⟩ := exists_enumerates_first (mem_keys.mpr ⟨worker, hworker⟩)
  let d : Draw := { now := t, order := job.workerID :: rest }
  have hallowed : (steady fun _ => True).Allowed w
      (.markStaleWorkers cfg.heartbeatTimeout cfg.suspectGracePeriod) d :=
    ⟨horder, fun _ => rfl, trivial⟩
  -- the worker of the job comes first, and is not among those that follow
  obtain ⟨others, hothers, hfirst⟩ : ∃ others, (w.store.markStaleWorkers t cfg.heartbeatTimeout
      cfg.suspectGracePeriod d.order).1.2 = job.workerID :: others ∧ job.workerID ∉ others := by
    let select : String → Bool := fun id => (w.store.workers.get? id).any fun worker =>
      Lost t cfg.heartbeatTimeout cfg.suspectGracePeriod worker
    have hselect : select job.workerID := by
      simp only [select, hworker]
      exact decide_eq_true hlost
    rw [markStaleWorkers_ids _ _ _ horder.1]
    refine ⟨rest.filter select, List.filter_cons_of_pos hselect, fun hmem => ?_⟩
    exact (List.nodup_cons.mp horder.1).1 (List.mem_of_mem_filter hmem)
  have hjobs := (markStaleWorkers_frame w.store t cfg.heartbeatTimeout cfg.suspectGracePeriod
    d.order).1
  have hloop : (steady fun _ => True).Permits (forEach (job.workerID :: others) dropWorker)
      { w with store := (w.store.markStaleWorkers t cfg.heartbeatTimeout
        cfg.suspectGracePeriod d.order).2 } fun _ w' => w'.store.jobs.get? id = some job := by
    refine permits_bind ?_
    obtain ⟨ds, _, w₁, hrun, hkept⟩ := dropWorker_misses (w := { w with store :=
      (w.store.markStaleWorkers t cfg.heartbeatTimeout cfg.suspectGracePeriod d.order).2 })
      (by rwa [hjobs]) (by rwa [hjobs]) job.workerID
    refine ⟨ds, _, w₁, hrun, permits_of_ensures exists_steady_draw ?_⟩
    refine ensures_mono (ensures_forEach (I := fun rest (w' : World) =>
      job.workerID ∉ rest ∧ w'.store.jobs.get? id = some job) ?_ ⟨hfirst, hkept⟩) fun _ _ h => h.2
    rintro next rest w₂ ⟨hrest, hkept⟩
    refine ensures_mono (dropWorker_drops next w₂) fun _ w₃ hdrops => ⟨?_, ?_⟩
    · exact fun hmem => hrest (List.mem_cons_of_mem _ hmem)
    · exact hdrops.spared hkept fun hsame => hrest (hsame ▸ List.mem_cons_self)
  obtain ⟨ds, _, w', hrun, hkept⟩ := hloop
  refine ⟨d, ds, .ok (), w', runs_perform_iff.mpr ⟨d, ds, rfl, hallowed, ?_⟩, rfl, hkept⟩
  simp only [steady_step, step]
  rw [guarded_of_none rfl]
  simp only [d] at hrun hothers ⊢
  rw [hothers]
  exact runs_bind_iff.mpr ⟨ds, [], (), w', (List.append_nil ds).symm, hrun, .ret _ _⟩

end Crowded

/-- Recovery after the loss of workers is complete, in every run of a pass from a world, just
if no active state with a job of a lost worker has more than 1000 jobs. -/
theorem recovery_complete_iff (cfg : SchedulerConfig) (w : World) (t : Time) :
    RecoveryComplete cfg w t ↔ WithinLimit cfg w t := by
  refine ⟨fun hcomplete state hactive => ?_, recoveryComplete_of_withinLimit⟩
  by_contra hnot
  push Not at hnot
  obtain ⟨hcrowded, id, job, hjob, rfl, hmarks⟩ := hnot
  obtain ⟨d, ds, result, w', hrun, hnow, hkept⟩ :=
    exists_unrecovered hjob hcrowded hmarks
  have hrecovered := (hcomplete hrun hnow id job hjob hactive hmarks).state
  rw [key_of_get? hjob, World.jobState, hkept, Option.map_some, Option.some.injEq] at hrecovered
  rw [hrecovered, recoveredState_inactive] at hactive
  cases hactive

/-- The jobs of a crowd: all of them run on one worker. -/
def crowdJob (n : Nat) : Job :=
  { echoJob .running with
    id := String.ofList (List.replicate (n + 1) 'j')
    attempt := 1
    workerID := "worker" }

def crowd : Nat → JobTable
  | 0 => .empty
  | n + 1 => (crowd n).put (crowdJob n)

theorem crowdJob_id_injective : Function.Injective fun n => (crowdJob n).id := by
  intro m n h
  have hlists := String.ofList_injective h
  simpa using congrArg List.length hlists

theorem get?_crowd {m n : Nat} (h : m < n) :
    (crowd n).get? (crowdJob m).id = some (crowdJob m) := by
  induction n with
  | zero => exact absurd h (Nat.not_lt_zero m)
  | succ n ih =>
      rw [crowd]
      rcases Nat.lt_succ_iff_lt_or_eq.mp h with hlt | rfl
      · rw [get?_put_of_ne _ fun heq => hlt.ne (crowdJob_id_injective heq)]
        exact ih hlt
      · exact get?_put_self _ _

theorem card_crowd (n : Nat) : n ≤ (inState (crowd n) .running).card := by
  have hsubset :
      (Finset.range n).image (fun m => (crowdJob m).id) ⊆ inState (crowd n) .running := by
    intro id hid
    obtain ⟨m, hm, rfl⟩ := Finset.mem_image.mp hid
    exact mem_matching.mpr ⟨crowdJob m, get?_crowd (Finset.mem_range.mp hm), rfl⟩
  have hcard := Finset.card_le_card hsubset
  rwa [Finset.card_image_of_injective _ crowdJob_id_injective, Finset.card_range] at hcard

/-- `n` running jobs on one worker, last heard of at time 0. -/
def crowdedWorld (n : Nat) : World :=
  { World.empty with
    store :=
      { jobs := crowd n
        byIdem := ∅
        executions := .empty
        workers := Table.empty.put { id := "worker", capacity := 2000, lastHeartbeat := 0 }
        bound := by
          intro key id h
          simp at h } }

/-- A pass marks the worker of 1001 running jobs, and one of them stays RUNNING. -/
theorem crowded_job_missed :
    let cfg : SchedulerConfig := ⟨10, 15 * second, 15 * second⟩
    Marks cfg (crowdedWorld 1001) (60 * second) (crowdJob 0).workerID ∧
      ∃ d ds result w', (steady fun _ => True).Runs (checkWorkers cfg) (crowdedWorld 1001)
        (d :: ds) result w' ∧ d.now = 60 * second ∧
        w'.jobState (crowdJob 0).id = some .running := by
  intro cfg
  have hjob : (crowdedWorld 1001).store.jobs.get? (crowdJob 0).id = some (crowdJob 0) :=
    get?_crowd (by decide)
  have hmarks : Marks cfg (crowdedWorld 1001) (60 * second) (crowdJob 0).workerID :=
    ⟨_, get?_put_self _ _, by decide⟩
  obtain ⟨d, ds, result, w', hrun, hnow, hkept⟩ :=
    exists_unrecovered hjob (card_crowd 1001) hmarks
  refine ⟨hmarks, d, ds, result, w', hrun, hnow, ?_⟩
  rw [World.jobState, hkept]
  rfl

end Chronos.WorkerLoss
