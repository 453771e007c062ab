import Chronos.JobWrites.Operations
import Chronos.LifecycleGraph

namespace Chronos.InformedRuns

open Chronos.Domain
open Chronos.JobWrites
open Chronos.Library.CallProgram
open Chronos.Library.CallMachine
open Chronos.Library.KeyedTable
open Chronos.LifecycleGraph
open Chronos.MemoryStore
open Chronos.Operations
open Chronos.SchedulerService
open Chronos.SharedState

/-- What the operation has been told is so. -/
structure Holds (φ : Told) (w : World) : Prop where
  fresh : ¬ φ.stale
  known : ∀ {id P}, (id, P) ∈ φ.known → ∃ job, w.store.jobs.get? id = some job ∧ P job
  issued : ∀ id ∈ φ.issued, w.store.jobs.get? id = none

theorem holds_start (w : World) : Holds {} w where
  fresh := not_false
  known := fun h => absurd h List.not_mem_nil
  issued := fun _ h => absurd h List.not_mem_nil

variable {task : Task} {φ : Told} {w : World}

theorem holds_knows {id : String} {P : Job → Prop} (hholds : Holds φ w)
    (hknows : φ.Knows id P) : ∃ job, w.store.jobs.get? id = some job ∧ P job := by
  obtain ⟨Q, hQ, himplies⟩ := hknows hholds.fresh
  obtain ⟨job, hjob, hjobQ⟩ := hholds.known hQ
  exact ⟨job, hjob, himplies job hjobQ⟩

/-- What a call of an operation that runs alone rests on. -/
def Informed (task : Task) (w : World) : Call → Prop
  | .updateJobStateIf id state fields onlyFrom =>
      ∃ job, w.store.jobs.get? id = some job ∧ Writes task id job state fields onlyFrom
  | .createJob job => Creates task job ∧ (job.id = "" ∨ w.store.jobs.get? job.id = none)
  | .enqueue message =>
      Enqueues task ∧ ∃ job now, w.store.jobs.get? job.id = some job ∧
        message = queuedJob job now
  | .cancelJob _ jobID _ => ∃ job, w.store.jobs.get? jobID = some job ∧ Stops task job
  | .addPendingCancel _ jobID =>
      task = .pushPendingCancels ∧ ∃ job, w.store.jobs.get? jobID = some job ∧ Stops task job
  | _ => True

theorem informed_of_admits {c : Call} (hholds : Holds φ w) (hadmits : φ.Admits task c) :
    Informed task w c := by
  cases c with
  | updateJobStateIf id state fields onlyFrom => exact holds_knows hholds hadmits.2.2.2
  | createJob job =>
      refine ⟨hadmits.2.1, hadmits.2.2.imp_right fun hissued => ?_⟩
      exact hholds.issued _ hissued.1
  | enqueue message =>
      obtain ⟨job, hjob, ⟨now, rfl⟩, -⟩ := holds_knows hholds hadmits.2.2
      exact ⟨hadmits.2.1, job, now, hjob, rfl⟩
  | cancelJob workerID jobID executionID => exact holds_knows hholds hadmits.2
  | addPendingCancel workerID jobID => exact ⟨hadmits.2.1, holds_knows hholds hadmits.2.2⟩
  | _ => trivial

theorem holds_frame {w' : World} (hholds : Holds φ w)
    (hjobs : w'.store.jobs = w.store.jobs) : Holds φ w' where
  fresh := hholds.fresh
  known := by
    rw [hjobs]
    exact hholds.known
  issued := by
    rw [hjobs]
    exact hholds.issued

theorem holds_learn {id : String} {job : Job} (hholds : Holds φ w)
    (hjob : w.store.jobs.get? id = some job) : Holds (φ.learn id job) w where
  fresh := by
    rintro (hstale | ⟨⟨_, P⟩, hentry, rfl, hnot⟩)
    · exact hholds.fresh hstale
    · obtain ⟨found, hfound, hP⟩ := hholds.known hentry
      obtain rfl := Option.some.inj (hjob.symm.trans hfound)
      exact hnot hP
  known := by
    intro id' P hentry
    rcases List.mem_cons.mp hentry with heq | hold
    · obtain ⟨rfl, rfl⟩ := Prod.mk.inj heq
      exact ⟨job, hjob, rfl⟩
    · exact hholds.known hold
  issued := hholds.issued

theorem holds_learnAll {P : JobState → Prop} {jobs : List Job} (hholds : Holds φ w)
    (hlisted : Snapshot w.store.jobs P jobs) : Holds (φ.learnAll P jobs) w where
  fresh := by
    rintro (hstale | hnodup | ⟨job, hjob, hstate | ⟨⟨_, Q⟩, hentry, rfl, hnot⟩⟩)
    · exact hholds.fresh hstale
    · exact hnodup hlisted.nodup
    · exact hstate (hlisted.states job hjob)
    · obtain ⟨found, hfound, hQ⟩ := hholds.known hentry
      obtain rfl := Option.some.inj ((hlisted.stored job hjob).symm.trans hfound)
      exact hnot hQ
  known := by
    intro id Q hentry
    rcases List.mem_append.mp hentry with hnew | hold
    · obtain ⟨job, hjob, heq⟩ := List.mem_map.mp hnew
      obtain ⟨rfl, rfl⟩ := Prod.mk.inj heq
      exact ⟨job, hlisted.stored job hjob, rfl⟩
    · exact hholds.known hold
  issued := hholds.issued

theorem holds_create {job : Job} {w' : World} (hholds : Holds φ w)
    (habsent : w.store.jobs.get? job.id = none)
    (hput : w'.store.jobs = w.store.jobs.put job) :
    Holds { φ with
      known := (job.id, (· = job)) :: φ.known
      issued := []
      created := some job.id } w' where
  fresh := hholds.fresh
  known := by
    intro id P hentry
    rw [hput]
    rcases List.mem_cons.mp hentry with heq | hold
    · obtain ⟨rfl, rfl⟩ := Prod.mk.inj heq
      exact ⟨job, get?_put_self _ _, rfl⟩
    · obtain ⟨found, hfound, hP⟩ := hholds.known hold
      refine ⟨found, ?_, hP⟩
      rw [get?_put_of_ne, hfound]
      rintro rfl
      exact absurd (hfound.symm.trans habsent) (Option.some_ne_none found)
  issued := fun _ h => absurd h List.not_mem_nil

/-- The only guard is the one of the promotion loop, which the listed jobs pass. -/
theorem guard_of_writes {id : String} {job : Job} {state : JobState} {fields : Fields}
    {onlyFrom : List JobState} (hwrites : Writes task id job state fields onlyFrom) :
    onlyFrom = [] ∨ state = .queued ∧ (job.state = .scheduled ∨ job.state = .retrying) ∧
      onlyFrom = [.scheduled, .retrying] := by
  cases task with
  | createJob body => exact Or.inl hwrites.2.2
  | cancelJob target => exact Or.inl hwrites.2.2.2.1
  | promoteDueJobs => exact Or.inr ⟨hwrites.1, hwrites.2.1, hwrites.2.2.2⟩
  | pushPendingCancels => exact Or.inl hwrites.2.2.2
  | _ => exact Or.inl hwrites.2.1

theorem onlyFrom_of_writes {id : String} {job : Job} {state : JobState} {fields : Fields}
    {onlyFrom : List JobState} (hwrites : Writes task id job state fields onlyFrom)
    (hstate : state ≠ .queued) : onlyFrom = [] :=
  (guard_of_writes hwrites).resolve_right fun h => hstate h.1

/-- A job is only ever created under an id that is not in use. -/
theorem get?_stamped {job : Job} {d : Draw} (hinformed : Informed task w (.createJob job))
    (hsound : Sound w (.createJob job) d) :
    w.store.jobs.get? (stampJob job d.uuid d.now).id = none := by
  by_cases hid : job.id = ""
  · have hfresh : Fresh w d.uuid := hsound hid
    rw [stampJob, if_pos hid]
    exact notMem_keys.mp hfresh.2.2.1
  · rw [stampJob, if_neg hid]
    exact hinformed.2.resolve_left hid

/-- All that an informed call can do to a stored record: nothing, or a write that its
operation allows over it. -/
theorem informed_stored {c : Call} {d : Draw} {id : String} {job : Job}
    (hinformed : Informed task w c) (hsound : Sound w c d)
    (hjob : w.store.jobs.get? id = some job) :
    (step c w d).2.store.jobs.get? id = some job ∨
      ∃ state fields onlyFrom, Writes task id job state fields onlyFrom ∧
        (step c w d).2.store.jobs.get? id = some (applyUpdate job state fields d.now) := by
  rcases step_jobs c w d with hsame | ⟨new, rfl, hput⟩ |
    ⟨id', state, fields, onlyFrom, old, rfl, hold, -, hput⟩
  · exact Or.inl (by rw [hsame, hjob])
  · refine Or.inl ?_
    have habsent := get?_stamped hinformed hsound
    rw [hput, get?_put_of_ne, hjob]
    rintro rfl
    exact absurd (hjob.symm.trans habsent) (Option.some_ne_none job)
  · obtain ⟨known, hknown, hwrites⟩ := hinformed
    obtain rfl := Option.some.inj (hold.symm.trans hknown)
    rw [hput]
    by_cases hid : id = id'
    · subst hid
      obtain rfl := Option.some.inj (hold.symm.trans hjob)
      exact Or.inr ⟨state, fields, onlyFrom, hwrites, get?_put_applyUpdate hjob _ _ _⟩
    · refine Or.inl ?_
      rw [get?_put_of_ne _ (by rwa [applyUpdate_id, key_of_get? hold]), hjob]

/-- All that an informed call can do to an id that is not in use. -/
theorem informed_absent {c : Call} {d : Draw} {id : String} (hinformed : Informed task w c)
    (hnone : w.store.jobs.get? id = none) :
    (step c w d).2.store.jobs.get? id = none ∨
      ∃ job, c = .createJob job ∧ Creates task job ∧
        (step c w d).2.store.jobs.get? id = some (stampJob job d.uuid d.now) := by
  rcases step_jobs c w d with hsame | ⟨new, rfl, hput⟩ |
    ⟨id', state, fields, onlyFrom, old, rfl, hold, -, hput⟩
  · exact Or.inl (by rw [hsame, hnone])
  · rw [hput, get?_put]
    split
    · exact Or.inr ⟨new, rfl, hinformed.1, rfl⟩
    · exact Or.inl hnone
  · refine Or.inl ?_
    rw [hput, get?_put_of_ne, hnone]
    rw [applyUpdate_id, key_of_get? hold]
    rintro rfl
    exact absurd (hold.symm.trans hnone) (Option.some_ne_none old)

/-- A write leaves every other record as it is known. -/
theorem holds_wrote {id : String} {state : JobState} {fields : Fields}
    {onlyFrom : List JobState} {d : Draw} (hholds : Holds φ w)
    (hknows : φ.Knows id fun job => Writes task id job state fields onlyFrom) :
    Holds (φ.wrote id state (step (.updateJobStateIf id state fields onlyFrom) w d).1)
      (step (.updateJobStateIf id state fields onlyFrom) w d).2 := by
  obtain ⟨job, hjob, hwrites⟩ := holds_knows hholds hknows
  have hjobs := step_jobs (.updateJobStateIf id state fields onlyFrom) w d
  refine ⟨hholds.fresh, fun {id' P} hentry => ?_, fun id' hid' => ?_⟩
  · rcases List.mem_append.mp hentry with hnew | hold
    · -- The entry for the assigned job: the write went through.
      split at hnew
      · rename_i hassigned
        obtain ⟨rfl, hok⟩ := hassigned
        obtain ⟨rfl, rfl⟩ := Prod.mk.inj (List.mem_singleton.mp hnew)
        obtain rfl := onlyFrom_of_writes hwrites JobState.noConfusion
        simp only [step, guarded] at hok ⊢
        split at hok
        · exact absurd hok Bool.false_ne_true
        · rename_i hfault
          rw [updateJobStateIf_of_some hjob _ _ (Or.inl rfl)]
          exact ⟨_, get?_put_applyUpdate hjob _ _ _, rfl⟩
      · exact absurd hnew List.not_mem_nil
    · obtain ⟨hold, hid⟩ := List.mem_filter.mp hold
      obtain ⟨found, hfound, hP⟩ := hholds.known hold
      refine ⟨found, ?_, hP⟩
      rcases hjobs with hsame | ⟨_, hcreate, -⟩ | ⟨_, _, _, _, old, hupdate, hold', -, hput⟩
      · rw [hsame, hfound]
      · cases hcreate
      · cases hupdate
        rw [hput, get?_put_of_ne, hfound]
        rw [applyUpdate_id, key_of_get? hold']
        simpa using hid
  · have hnone := hholds.issued id' hid'
    rcases hjobs with hsame | ⟨_, hcreate, -⟩ | ⟨_, _, _, _, old, hupdate, hold', -, hput⟩
    · rw [hsame, hnone]
    · cases hcreate
    · cases hupdate
      rw [hput, get?_put_of_ne, hnone]
      rw [applyUpdate_id, key_of_get? hold']
      rintro rfl
      exact absurd (hold'.symm.trans hnone) (Option.some_ne_none old)

theorem snapshot_collectDue {jobs : JobTable} {order : List String}
    (horder : jobs.Enumerates order) (now : Time) (limit : Int) :
    Snapshot jobs (fun state => state = .scheduled ∨ state = .retrying)
      (collectDue now limit [] (jobs.inOrder order)) := by
  have hsub : (collectDue now limit [] (jobs.inOrder order)).Sublist
      ((jobs.inOrder order).filter (dueScheduled now)) := collectDue_sublist now limit [] _
  refine ⟨?_, fun job hjob => ?_, fun job hjob => ?_⟩
  · refine List.Nodup.sublist ((hsub.trans List.filter_sublist).map Job.id) ?_
    exact nodup_map_key_inOrder horder.1
  · exact (mem_inOrder.mp (List.mem_filter.mp (hsub.subset hjob)).1).2
  · have hdue := (List.mem_filter.mp (hsub.subset hjob)).2
    unfold dueScheduled at hdue
    split at hdue
    · exact Or.inl ‹_›
    · exact Or.inr ‹_›
    · exact absurd hdue Bool.false_ne_true

/-- What an operation that runs alone has been told stays so, call by call. -/
theorem holds_step {c : Call} {d : Draw} (hholds : Holds φ w) (hadmits : φ.Admits task c)
    (hsound : Sound w c d) : Holds (φ.after c (step c w d).1) (step c w d).2 := by
  cases c with
  | newUUID =>
      have hfresh : Fresh w d.uuid := hsound
      refine ⟨hholds.fresh, hholds.known, fun id hid => ?_⟩
      rcases List.mem_cons.mp hid with rfl | hold
      · exact notMem_keys.mp hfresh.2.2.1
      · exact hholds.issued id hold
  | pickWorker =>
      simp only [step]
      cases pickWorker (w.registry.workers.inOrder d.order) with
      | none => exact hholds
      | some wc => exact ⟨hholds.fresh, hholds.known, hholds.issued⟩
  | createJob job =>
      have habsent := get?_stamped (informed_of_admits hholds hadmits) hsound
      simp only [step, guarded]
      split
      · exact ⟨hholds.fresh, hholds.known, fun _ h => absurd h List.not_mem_nil⟩
      · simp only [Store.createJob]
        split
        · exact holds_create hholds habsent rfl
        · split
          · rename_i id hlookup
            obtain ⟨J, hJ⟩ := w.store.bound hlookup
            rw [hJ]
            have hlearnt := holds_learn hholds hJ
            obtain rfl := key_of_get? hJ
            exact ⟨hholds.fresh, hlearnt.known, fun _ h => absurd h List.not_mem_nil⟩
          · exact holds_create hholds habsent rfl
  | getJob id =>
      simp only [step, guarded]
      split
      · exact hholds
      · simp only [Store.getJob]
        split
        · exact hholds
        · exact holds_learn hholds ‹_›
  | listJobs state limit =>
      simp only [step, guarded]
      cases state with
      | none => split <;> exact hholds
      | some state =>
          split
          · exact hholds
          · have hlisted : Snapshot w.store.jobs (· = state)
                (w.store.listJobs d.order (some state) limit) :=
              snapshot_collect hsound (fun job hjob => by simpa using hjob) _
            exact holds_learnAll hholds hlisted
  | listDueScheduled limit =>
      simp only [step, guarded]
      split
      · exact hholds
      · exact holds_learnAll hholds (snapshot_collectDue hsound _ _)
  | listCancelRequested limit =>
      simp only [step, guarded]
      split
      · exact hholds
      · have hlisted : Snapshot w.store.jobs (· = .cancelRequested)
            (w.store.listCancelRequested d.order limit) :=
          snapshot_collect hsound (fun job hjob => by simpa using hjob) _
        exact holds_learnAll hholds hlisted
  | listTimedOutRunning now limit =>
      simp only [step, guarded]
      split
      · exact hholds
      · have hlisted : Snapshot w.store.jobs (fun state => state = .running ∨ state = .assigned)
            (w.store.listTimedOutRunning d.order now limit) := by
          refine snapshot_collect hsound (fun job hjob => ?_) _
          simp only [timedOutRunning, Bool.and_eq_true, Bool.or_eq_true, beq_iff_eq] at hjob
          exact hjob.1
        exact holds_learnAll hholds hlisted
  | updateJobStateIf id state fields onlyFrom => exact holds_wrote hholds hadmits.2.2.2
  | enqueue message =>
      simp only [step, guarded]
      split
      · exact hholds
      · simp only [MemoryQueue.Queue.enqueue]
        split
        · exact hholds
        · exact ⟨hholds.fresh, hholds.known, hholds.issued⟩
  | emit event =>
      have hcalm : Holds { φ with completing := none } w :=
        ⟨hholds.fresh, hholds.known, hholds.issued⟩
      exact holds_frame hcalm (jobs_step rfl w d)
  | _ => exact holds_frame hholds (jobs_step rfl w d)

/-- The rule for operations that run alone, on any system that refines the failing one:
what every informed call keeps, the operation keeps. -/
theorem informed_invariant {σ δ : Type} {M : Machine Call Answer σ δ} {view : σ → World}
    (hview : M.Refines failing view) {I : σ → Prop} (cron : Cron) (cfg : SchedulerConfig)
    (hstep : ∀ {s c d}, Informed task (view s) c → M.Allowed s c d → I s → I (M.step c s d).2)
    {s : σ} (hs : I s) : M.Ensures (task.body cron cfg) s fun _ s' => I s' := by
  have hcall : ∀ {s φ c d}, Holds φ (view s) ∧ I s → (informed task).Admits φ c →
      M.Allowed s c d →
      Holds ((informed task).after φ c (M.step c s d).1) (view (M.step c s d).2) ∧
        I (M.step c s d).2 := by
    rintro s φ c d ⟨hholds, hI⟩ hadmits hallowed
    refine ⟨?_, hstep (informed_of_admits hholds hadmits) hallowed hI⟩
    obtain ⟨e, hsound, hanswer, hstate⟩ := hview s c d hallowed
    rw [← hanswer, ← hstate]
    exact holds_step hholds hadmits hsound
  refine ensures_mono (ensures_of_follows hcall (body_follows cron cfg task) ⟨holds_start _, hs⟩) ?_
  rintro _ s' ⟨φ, ⟨-, hI⟩, -⟩
  exact hI

theorem steady_informed {clock : Time → Prop} {I : World → Prop} (cron : Cron)
    (cfg : SchedulerConfig)
    (hstep : ∀ {w c d}, Informed task w c → Sound w c d → I w → I (step c w d).2) (hw : I w) :
    (steady clock).Ensures (task.body cron cfg) w fun _ w' => I w' := by
  have hview : (steady clock).Refines failing id := fun w c d hdraw => ⟨d, hdraw.1, rfl, rfl⟩
  exact informed_invariant hview cron cfg
    (fun hinformed hdraw hI => hstep hinformed hdraw.1 hI) hw

end Chronos.InformedRuns
