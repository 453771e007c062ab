import Chronos.SharedState

namespace Chronos.SharedState

open Chronos.Domain
open Chronos.Library.KeyedTable
open Chronos.MemoryQueue
open Chronos.MemoryStore

def Call.quiet : Call → Bool
  | .createJob _ | .updateJobStateIf _ _ _ _ => false
  | .createExecution _ | .finishExecution _ _ _ => false
  | _ => true

theorem quiet_step {c : Call} (hc : c.quiet) (w : World) (d : Draw) :
    (step c w d).2.store.jobs = w.store.jobs ∧
      (step c w d).2.store.executions = w.store.executions := by
  cases c with
  | markStaleWorkers heartbeatTimeout grace =>
      rcases guarded_snd d w (.ok
        (w.store.markStaleWorkers d.now heartbeatTimeout grace d.order).1,
        { w with store :=
          (w.store.markStaleWorkers d.now heartbeatTimeout grace d.order).2 }) with h | h
      · rw [step, h]
        exact ⟨rfl, rfl⟩
      · rw [step, h]
        obtain ⟨hjobs, hexecutions, -⟩ := markStaleWorkers_frame w.store d.now heartbeatTimeout
          grace d.order
        exact ⟨hjobs, hexecutions⟩
  | executeJob workerID request => simp [step]
  | _ => first
    | exact absurd hc Bool.false_ne_true
    | exact ⟨rfl, rfl⟩
    | (simp only [step, guarded]; split <;> exact ⟨rfl, rfl⟩)

/-- Everything a call can do to the job table: nothing, add the job it creates,
or write an update over a stored job whose state its guard admits. -/
theorem step_jobs (c : Call) (w : World) (d : Draw) :
    (step c w d).2.store.jobs = w.store.jobs ∨
      (∃ job, c = .createJob job ∧
        (step c w d).2.store.jobs = w.store.jobs.put (stampJob job d.uuid d.now)) ∨
      ∃ id state fields onlyFrom job, c = .updateJobStateIf id state fields onlyFrom ∧
        w.store.jobs.get? id = some job ∧ (onlyFrom = [] ∨ job.state ∈ onlyFrom) ∧
        (step c w d).2.store.jobs =
          w.store.jobs.put (applyUpdate job state fields d.now) := by
  cases c with
  | createJob job =>
      simp only [step, guarded]
      split
      · exact Or.inl rfl
      · simp only [Store.createJob]
        split
        · exact Or.inr (Or.inl ⟨job, rfl, rfl⟩)
        · split
          · exact Or.inl rfl
          · exact Or.inr (Or.inl ⟨job, rfl, rfl⟩)
  | updateJobStateIf id state fields onlyFrom =>
      simp only [step, guarded]
      split
      · exact Or.inl rfl
      · rcases updateJobStateIf_jobs w.store id state fields onlyFrom d.now with
          h | ⟨job, hjob, hguard, h⟩
        · exact Or.inl (by rw [h])
        · refine Or.inr (Or.inr ⟨id, state, fields, onlyFrom, job, rfl, hjob, hguard, ?_⟩)
          rw [h, putJob_jobs]
  | createExecution ex =>
      simp only [step, guarded]
      split <;> exact Or.inl rfl
  | finishExecution id state result =>
      simp only [step, guarded]
      split
      · exact Or.inl rfl
      · exact Or.inl (finishExecution_frame w.store id state result d.now).1
  | _ => exact Or.inl (quiet_step rfl w d).1

def Call.writesJobs : Call → Bool
  | .createJob _ | .updateJobStateIf _ _ _ _ => true
  | _ => false

theorem jobs_step {c : Call} (hc : c.writesJobs = false) (w : World) (d : Draw) :
    (step c w d).2.store.jobs = w.store.jobs := by
  rcases step_jobs c w d with hsame | ⟨job, rfl, -⟩ | ⟨_, _, _, _, _, rfl, -⟩
  · exact hsame
  · cases hc
  · cases hc

theorem stored_step {w : World} {id : String} (hw : ∃ job, w.store.jobs.get? id = some job)
    (c : Call) (d : Draw) : ∃ job, (step c w d).2.store.jobs.get? id = some job := by
  rcases step_jobs c w d with hsame | ⟨job, -, hput⟩ | ⟨_, _, _, _, job, -, -, -, hput⟩
  · rwa [hsame]
  all_goals
    rw [hput, get?_put]
    split
    · exact ⟨_, rfl⟩
    · exact hw

/-- Everything a call can do to the execution table: nothing, add the execution
it creates, or finish a stored one. -/
theorem step_executions (c : Call) (w : World) (d : Draw) :
    (step c w d).2.store.executions = w.store.executions ∨
      (∃ ex, c = .createExecution ex ∧
        (step c w d).2.store.executions =
          w.store.executions.put (stampExecution ex d.uuid d.now)) ∨
      ∃ id state result ex ex', c = .finishExecution id state result ∧
        w.store.executions.get? id = some ex ∧
        (ex'.id = ex.id ∧ ex'.jobID = ex.jobID ∧ ex'.attempt = ex.attempt) ∧
        (step c w d).2.store.executions = w.store.executions.put ex' := by
  cases c with
  | createExecution ex =>
      simp only [step, guarded]
      split
      · exact Or.inl rfl
      · exact Or.inr (Or.inl ⟨ex, rfl, rfl⟩)
  | finishExecution id state result =>
      simp only [step, guarded, Store.finishExecution]
      split
      · exact Or.inl rfl
      · split
        · exact Or.inl rfl
        · rename_i ex hex
          refine Or.inr (Or.inr ⟨id, state, result, ex, _, rfl, hex, ?_, rfl⟩)
          exact ⟨rfl, rfl, rfl⟩
  | createJob job =>
      simp only [step, guarded, Store.createJob]
      split
      · exact Or.inl rfl
      · split
        · exact Or.inl rfl
        · split <;> exact Or.inl rfl
  | updateJobStateIf id state fields onlyFrom =>
      simp only [step, guarded]
      split
      · exact Or.inl rfl
      · exact Or.inl (updateJobStateIf_frame w.store id state fields onlyFrom d.now).1
  | _ => exact Or.inl (quiet_step rfl w d).2

def Call.writesExecutions : Call → Bool
  | .createExecution _ | .finishExecution _ _ _ => true
  | _ => false

theorem executions_step {c : Call} (hc : c.writesExecutions = false) (w : World) (d : Draw) :
    (step c w d).2.store.executions = w.store.executions := by
  rcases step_executions c w d with hsame | ⟨ex, rfl, -⟩ | ⟨_, _, _, _, _, rfl, -⟩
  · exact hsame
  · cases hc
  · cases hc

theorem issued_step (c : Call) (w : World) (d : Draw) :
    (step c w d).2.issued = w.issued ∨
      c = .newUUID ∧ (step c w d).2.issued = d.uuid :: w.issued := by
  cases c with
  | newUUID => exact Or.inr ⟨rfl, rfl⟩
  | executeJob workerID request =>
      refine Or.inl ?_
      simp only [step]
      rw [acceptedPush_eq]
  | _ => first
    | exact Or.inl rfl
    | (simp only [step, guarded]; split <;> exact Or.inl rfl)

theorem fresh_of_step {c : Call} {w : World} {d : Draw} {id : String}
    (hfresh : Fresh (step c w d).2 id) : Fresh w id := by
  obtain ⟨hne, hissued, hjobs, hexecutions⟩ := hfresh
  refine ⟨hne, fun h => hissued ?_, fun h => hjobs ?_, fun h => hexecutions ?_⟩
  · rcases issued_step c w d with hsame | ⟨-, hcons⟩
    · rwa [hsame]
    · rw [hcons]
      exact List.mem_cons_of_mem _ h
  · exact mem_keys.mpr (stored_step (mem_keys.mp h) c d)
  · rw [mem_keys] at h ⊢
    obtain ⟨stored, hstored⟩ := h
    rcases step_executions c w d with hsame | ⟨ex, -, hput⟩ | ⟨_, _, _, _, ex, -, -, -, hput⟩
    · exact ⟨stored, by rw [hsame, hstored]⟩
    all_goals
      rw [hput, get?_put]
      split
      · exact ⟨_, rfl⟩
      · exact ⟨stored, hstored⟩

def Call.namesNew : Call → Bool
  | .newUUID | .createJob _ | .createExecution _ => true
  | _ => false

theorem fresh_step {c : Call} (hc : c.namesNew = false) (w : World) (d : Draw) (id : String) :
    Fresh (step c w d).2 id ↔ Fresh w id := by
  refine ⟨fresh_of_step, fun hfresh => ?_⟩
  obtain ⟨hne, hissued, hjobs, hexecutions⟩ := hfresh
  rw [notMem_keys] at hjobs hexecutions
  refine ⟨hne, ?_, notMem_keys.mpr ?_, notMem_keys.mpr ?_⟩
  · rcases issued_step c w d with hsame | ⟨rfl, -⟩
    · rwa [hsame]
    · cases hc
  · rcases step_jobs c w d with hsame | ⟨job, rfl, -⟩ | ⟨_, _, _, _, job, rfl, hjob, -, hput⟩
    · rw [hsame, hjobs]
    · cases hc
    · rw [hput, get?_put_of_ne _ fun hid => ?_]
      · exact hjobs
      · rw [hid, applyUpdate_id, key_of_get? hjob, hjob] at hjobs
        exact Option.some_ne_none _ hjobs
  · rcases step_executions c w d with hsame | ⟨ex, rfl, -⟩ |
      ⟨_, _, _, ex, ex', rfl, hex, hkeeps, hput⟩
    · rw [hsame, hexecutions]
    · cases hc
    · rw [hput, get?_put_of_ne _ fun hid => ?_]
      · exact hexecutions
      · rw [hid, hkeeps.1, key_of_get? hex, hex] at hexecutions
        exact Option.some_ne_none _ hexecutions

theorem accepted_step {c : Call} (hc : ∀ workerID request, c ≠ .executeJob workerID request)
    (w : World) (d : Draw) : (step c w d).2.accepted = w.accepted := by
  cases c with
  | executeJob workerID request => exact absurd rfl (hc workerID request)
  | _ => first
    | rfl
    | (simp only [step, guarded]; split <;> rfl)

theorem queue_step (c : Call) (w : World) (d : Draw) :
    (step c w d).2.queue = w.queue ∨
      ∃ job, c = .enqueue job ∧ (step c w d).2.queue = (w.queue.enqueue job d.now).2 := by
  cases c with
  | enqueue job =>
      simp only [step, guarded]
      split
      · exact Or.inl rfl
      · exact Or.inr ⟨job, rfl, rfl⟩
  | executeJob workerID request =>
      refine Or.inl ?_
      simp only [step]
      rw [acceptedPush_eq]
  | _ => first
    | exact Or.inl rfl
    | (simp only [step, guarded]; split <;> exact Or.inl rfl)

theorem closed_step (c : Call) (w : World) (d : Draw) :
    (step c w d).2.queue.closed = w.queue.closed := by
  rcases queue_step c w d with hsame | ⟨job, -, henqueue⟩
  · rw [hsame]
  · rw [henqueue, enqueue_closed]

theorem mem_queue_step {w : World} {item : QueuedJob} (hitem : item ∈ w.queue.items)
    (c : Call) (d : Draw) : item ∈ (step c w d).2.queue.items := by
  rcases queue_step c w d with hsame | ⟨job, -, henqueue⟩
  · rwa [hsame]
  · rw [henqueue]
    exact mem_enqueue hitem

theorem events_step (c : Call) (w : World) (d : Draw) :
    (step c w d).2.events = w.events ∨ ∃ event, c = .emit event ∧ d.fault = none ∧
      (step c w d).2.events = w.events ++ [event] := by
  cases c with
  | emit event =>
      simp only [step, guarded]
      split
      · exact Or.inl rfl
      · exact Or.inr ⟨event, rfl, ‹_›, rfl⟩
  | executeJob workerID request =>
      refine Or.inl ?_
      simp only [step]
      rw [acceptedPush_eq]
  | _ => first
    | exact Or.inl rfl
    | (simp only [step, guarded]; split <;> exact Or.inl rfl)

theorem emit_frame (event : Event) (w : World) (d : Draw) :
    (step (.emit event) w d).2.store = w.store ∧ (step (.emit event) w d).2.queue = w.queue := by
  simp only [step, guarded]
  split <;> exact ⟨rfl, rfl⟩

/-- The registry gains no worker by a call. -/
theorem registered_step {id : String} {w : World} (hw : w.registry.workers.get? id = none)
    (c : Call) (d : Draw) : (step c w d).2.registry.workers.get? id = none := by
  have hput : ∀ {current : WorkerConn} {key : String} {info : Worker},
      w.registry.workers.get? key = some current → info.id = current.info.id →
      (w.registry.workers.put ⟨info, current.conn⟩).get? id = none := by
    intro current key info hcurrent hid
    rw [get?_put_of_ne]
    · exact hw
    · rintro rfl
      have hkey := key_of_get? hcurrent
      rw [← hkey, ← hid] at hcurrent
      rw [hcurrent] at hw
      exact absurd hw (Option.some_ne_none current)
  cases c with
  | incActiveJobs wc =>
      simp only [step, Registry.incActiveJobs]
      split
      · exact hw
      · split
        · exact hput ‹_› rfl
        · exact hw
  | decActiveJobs workerID =>
      simp only [step, Registry.decActiveJobs]
      split
      · exact hw
      · split
        · exact hput ‹_› rfl
        · exact hw
  | clearPendingCancel workerID jobID =>
      simp only [step, Registry.clearPendingCancel]
      split
      · exact hw
      · split <;> exact hw
  | deleteWorker workerID => exact get?_erase_of_none hw workerID
  | executeJob workerID request =>
      simp only [step]
      rwa [acceptedPush_eq]
  | _ => first
    | exact hw
    | (simp only [step, guarded]; split <;> exact hw)

theorem workers_step {c : Call} (hc : ∀ timeout grace, c ≠ .markStaleWorkers timeout grace)
    (w : World) (d : Draw) : (step c w d).2.store.workers = w.store.workers := by
  cases c with
  | createJob job =>
      simp only [step, guarded, Store.createJob]
      split
      · rfl
      · split
        · rfl
        · split <;> rfl
  | updateJobStateIf id state fields onlyFrom =>
      simp only [step, guarded]
      split
      · rfl
      · exact (updateJobStateIf_frame w.store id state fields onlyFrom d.now).2.1
  | finishExecution id state result =>
      simp only [step, guarded]
      split
      · rfl
      · exact (finishExecution_frame w.store id state result d.now).2.1
  | markStaleWorkers timeout grace => exact absurd rfl (hc timeout grace)
  | executeJob workerID request => simp [step]
  | _ => first
    | rfl
    | (simp only [step, guarded]; split <;> rfl)

theorem byIdem_step {c : Call} (hc : ∀ job, c ≠ .createJob job) (w : World) (d : Draw) :
    (step c w d).2.store.byIdem = w.store.byIdem := by
  cases c with
  | createJob job => exact absurd rfl (hc job)
  | updateJobStateIf id state fields onlyFrom =>
      simp only [step, guarded]
      split
      · rfl
      · exact (updateJobStateIf_frame w.store id state fields onlyFrom d.now).2.2
  | finishExecution id state result =>
      simp only [step, guarded]
      split
      · rfl
      · exact (finishExecution_frame w.store id state result d.now).2.2
  | markStaleWorkers heartbeatTimeout grace =>
      simp only [step, guarded]
      split
      · rfl
      · exact (markStaleWorkers_frame w.store d.now heartbeatTimeout grace d.order).2.2
  | executeJob workerID request => simp [step]
  | _ => first
    | rfl
    | (simp only [step, guarded]; split <;> rfl)

/-- The job that a `CreateJob` call answers with: the new one, or the one its key is
bound to. -/
theorem createJob_answered {w : World} {job answer : Job} {d : Draw}
    (hok : (step (.createJob job) w d).1 = .ok answer) :
    answer.id = (stampJob job d.uuid d.now).id ∨
      job.idempotencyKey ≠ "" ∧ w.store.byIdem.lookup job.idempotencyKey = some answer.id := by
  simp only [step, guarded] at hok
  split at hok
  · cases hok
  · have hanswer := Except.ok.inj hok
    simp only [Store.createJob] at hanswer
    split at hanswer
    · exact Or.inl (by rw [← hanswer])
    · rename_i hkey
      split at hanswer
      · rename_i id hlookup
        obtain ⟨J, hJ⟩ := w.store.bound hlookup
        rw [hJ, Option.getD_some] at hanswer
        refine Or.inr ⟨hkey, ?_⟩
        rw [← hanswer, key_of_get? hJ]
        exact hlookup
      · exact Or.inl (by rw [← hanswer])

theorem lookup_createJob {w : World} {job : Job} {d : Draw} {key id : String}
    (hlookup : (step (.createJob job) w d).2.store.byIdem.lookup key = some id) :
    w.store.byIdem.lookup key = some id ∨ id = (stampJob job d.uuid d.now).id := by
  simp only [step, guarded] at hlookup
  split at hlookup
  · exact Or.inl hlookup
  · simp only [Store.createJob] at hlookup
    split at hlookup
    · exact Or.inl hlookup
    · split at hlookup
      · exact Or.inl hlookup
      · by_cases hkey : key = (stampJob job d.uuid d.now).idempotencyKey
        · rw [hkey] at hlookup
          exact Or.inr (Option.some.inj ((Finmap.lookup_insert _).symm.trans hlookup)).symm
        · exact Or.inl ((Finmap.lookup_insert_of_ne _ hkey).symm.trans hlookup)

theorem jobState_update {d : Draw} (hd : d.fault = none) (w : World) (id : String)
    (state : JobState) (fields : Fields) :
    (step (.updateJobStateIf id state fields []) w d).2.jobState id =
      (w.jobState id).map fun _ => state := by
  simp only [step, guarded_of_none hd, World.jobState]
  cases hjob : w.store.jobs.get? id with
  | none => simp [Store.updateJobStateIf, hjob]
  | some job =>
      rw [updateJobStateIf_of_some hjob state fields (Or.inl rfl), putJob_jobs,
        get?_put_applyUpdate hjob]
      rfl

/-- Everything a call can do to the state of one job. -/
theorem jobState_step (c : Call) (w : World) (d : Draw) (id : String) :
    (step c w d).2.jobState id = w.jobState id ∨
      (∃ job, c = .createJob job ∧ (stampJob job d.uuid d.now).id = id ∧
        (step c w d).2.jobState id = some job.state) ∨
      ∃ state fields onlyFrom before, c = .updateJobStateIf id state fields onlyFrom ∧
        w.jobState id = some before ∧ (onlyFrom = [] ∨ before ∈ onlyFrom) ∧
        (step c w d).2.jobState id = some state := by
  unfold World.jobState
  rcases step_jobs c w d with hsame | ⟨job, rfl, hput⟩ |
    ⟨id', state, fields, onlyFrom, job, rfl, hjob, hguard, hput⟩
  · exact Or.inl (by rw [hsame])
  · rw [hput, get?_put]
    split
    · rename_i hid
      exact Or.inr (Or.inl ⟨job, rfl, hid.symm, rfl⟩)
    · exact Or.inl rfl
  · rw [hput, get?_put, applyUpdate_id, key_of_get? hjob]
    split
    · rename_i hid
      subst hid
      refine Or.inr (Or.inr ⟨state, fields, onlyFrom, job.state, rfl, ?_, hguard, rfl⟩)
      rw [hjob]
      rfl
    · exact Or.inl rfl

end Chronos.SharedState
