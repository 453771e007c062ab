import Chronos.Library.Ownership
import Chronos.RecordFields

namespace Chronos.References

open Chronos.Domain
open Chronos.JobWrites (Dispatches KeepsExecution Told informed)
open Chronos.Library.CallProgram
open Chronos.Library.Interleaving
open Chronos.Library.KeyedTable
open Chronos.MemoryStore
open Chronos.Operations
open Chronos.RecordFields (Activity anyOrder)
open Chronos.SchedulerService
open Chronos.SharedState

/-- What is fixed when a job is created. -/
def identity (job : Job) : Job :=
  { job with
    state := .created
    updatedAt := zeroTime
    workerID := ""
    executionID := ""
    lastError := ""
    attempt := 0
    queuedAt := none
    startedAt := none
    completedAt := none
    nextRetryAt := none }

/-- What is fixed when an execution is created. -/
def executionIdentity (ex : JobExecution) : String × String × Int × Time :=
  (ex.jobID, ex.workerID, ex.attempt, ex.createdAt)

/-- The job and its execution name each other, with the same worker and the same attempt. -/
structure Agree (job : Job) (ex : JobExecution) : Prop where
  jobID : ex.jobID = job.id
  workerID : ex.workerID = job.workerID
  attempt : ex.attempt = job.attempt

structure Intact (s : Store) : Prop where
  jobs : ∀ {id job}, s.jobs.get? id = some job → job.executionID ≠ "" →
    ∃ ex, s.executions.get? job.executionID = some ex ∧ Agree job ex
  executions : ∀ {id ex}, s.executions.get? id = some ex → ex.jobID ∈ s.jobs.keys

/-- No job and no execution is dropped or becomes another one. -/
structure Keeps (s s' : Store) : Prop where
  jobs : s.jobs.Grows identity s'.jobs
  executions : s.executions.Grows executionIdentity s'.executions

theorem keeps_refl (s : Store) : Keeps s s := ⟨grows_refl _ _, grows_refl _ _⟩

theorem keeps_trans {s s' s'' : Store} (h : Keeps s s') (h' : Keeps s' s'') : Keeps s s'' :=
  ⟨grows_trans h.jobs h'.jobs, grows_trans h.executions h'.executions⟩

/-- The identifiers that an operation was given and has not used, the jobs that it has read and
the executions that it has created. -/
structure Trail where
  issued : List String := []
  seen : List String := []
  opened : List JobExecution := []

def Trail.after (φ : Trail) : (c : Call) → Answer c → Trail
  | .newUUID, id => { φ with issued := id :: φ.issued }
  | .getJob id, .ok _ => { φ with seen := id :: φ.seen }
  | .createJob _, _ => { φ with issued := [] }
  | .createExecution ex, .ok _ => { φ with issued := [], opened := ex :: φ.opened }
  | .createExecution _, .error _ => { φ with issued := [] }
  | _, _ => φ

/-- An update to an execution that the operation has created for the job. -/
def Trail.Refers (φ : Trail) (id : String) (fields : Fields) : Prop :=
  fields.scheduledAt = none ∧ ∃ ex ∈ φ.opened, ex.jobID = id ∧
    fields.workerID = some ex.workerID ∧ fields.executionID = some ex.id ∧
    fields.attempt = some ex.attempt

def referring : Protocol Call Answer Trail where
  Admits φ
    | .createJob job => job.executionID = "" ∧ (job.id = "" ∨ job.id ∈ φ.issued)
    | .createExecution ex => ex.id ∈ φ.issued ∧ ex.jobID ∈ φ.seen
    | .updateJobStateIf id _ fields _ => KeepsExecution fields ∨ φ.Refers id fields
    | _ => True
  after := Trail.after

section Walks

/-- An operation that dispatches no job creates no execution, and creates a job under an
identifier that it was given. -/
theorem follows_of_informed {α : Type} {p : Prog α} {task : Task} {final : Told → α → Prop}
    (hp : p.Follows (informed task) final {}) (htask : ¬ Dispatches task) :
    p.Follows referring (fun _ _ => True) {} := by
  refine follows_of_simulation (R := fun φ τ => φ.issued ⊆ τ.issued) hp (fun _ hid => hid) ?_
    fun _ _ _ _ _ => trivial
  intro φ τ c hissued hadmits
  cases c with
  | createJob job =>
      obtain ⟨-, ⟨-, -, -, hexecution, -⟩, hid⟩ := hadmits
      refine ⟨⟨hexecution, hid.imp_right fun hid => hissued hid.1⟩, fun answer => ?_⟩
      cases answer <;> exact List.nil_subset _
  | createExecution ex =>
      obtain ⟨-, message, rfl⟩ := hadmits
      exact absurd trivial htask
  | updateJobStateIf id state fields onlyFrom =>
      exact ⟨Or.inl (hadmits.2.1.2.resolve_left htask), fun _ => hissued⟩
  | newUUID => exact ⟨trivial, fun id => List.cons_subset_cons id hissued⟩
  | getJob id => exact ⟨trivial, fun answer => by cases answer <;> exact hissued⟩
  | listJobs state limit =>
      exact ⟨trivial, fun answer => by cases state <;> cases answer <;> exact hissued⟩
  | _ => exact ⟨trivial, fun answer => by first | exact hissued | cases answer <;> exact hissued⟩

/-- A push writes the job and keeps the execution that the job was assigned. -/
theorem pushJob_follows (job : QueuedJob) (wc : WorkerConn) (executionID : String) (now : Time)
    (φ : Trail) :
    (pushJob job wc executionID now).Follows referring (fun _ _ => True) φ := by
  refine (follows_perform ..).mpr ⟨trivial, fun reply => ?_⟩
  split
  · trivial
  · refine (follows_perform ..).mpr ⟨Or.inl ⟨rfl, rfl, Or.inl ⟨rfl, rfl⟩⟩, fun updated => ?_⟩
    cases updated with
    | error e => trivial
    | ok _ =>
        refine (follows_perform ..).mpr ⟨trivial, fun _ => ?_⟩
        exact (follows_perform ..).mpr ⟨trivial, fun _ => trivial⟩

/-- The execution is created before the job refers to it, for the job that was read. -/
theorem handleQueuedJob_follows (message : QueuedJob) :
    (handleQueuedJob message).Follows referring (fun _ _ => True) {} := by
  refine (follows_perform ..).mpr ⟨trivial, fun read => ?_⟩
  cases read with
  | error e => trivial
  | ok existing =>
      dsimp only
      split
      · refine (follows_perform ..).mpr ⟨trivial, fun picked => ?_⟩
        cases picked with
        | none => trivial
        | some wc =>
            refine (follows_perform ..).mpr ⟨trivial, fun executionID => ?_⟩
            refine (follows_perform ..).mpr
              ⟨⟨List.mem_cons_self, List.mem_cons_self⟩, fun created => ?_⟩
            cases created with
            | error e => trivial
            | ok _ =>
                refine (follows_perform ..).mpr ⟨trivial, fun now => ?_⟩
                refine (follows_perform ..).mpr ⟨Or.inr ?_, fun assigned => ?_⟩
                · exact ⟨rfl, _, List.mem_cons_self, rfl, rfl, rfl, rfl⟩
                · cases assigned with
                  | error e => trivial
                  | ok _ =>
                      refine (follows_perform ..).mpr ⟨trivial, fun _ => ?_⟩
                      exact pushJob_follows ..
      · trivial

theorem body_refers (cron : Cron) (cfg : SchedulerConfig) (task : Task) :
    (task.body cron cfg).Follows referring (fun _ _ => True) {} := by
  have hinformed := JobWrites.body_follows cron cfg task
  cases task with
  | handleQueuedJob message =>
      exact follows_bind (handleQueuedJob_follows message) fun _ _ _ => trivial
  | _ => exact follows_of_informed hinformed fun h => h

end Walks

section Steps

variable {φ : Trail} {w w' : World} {d : Draw}

/-- What the operation knows: the identifiers that it owns are not in use, the jobs that it has
read are there, and so are the executions that it has created. -/
structure Holds (φ : Trail) (w : World) : Prop where
  issued : ∀ {id}, id ∈ φ.issued → id ≠ "" ∧ id ∈ w.issued ∧ id ∉ w.store.jobs.keys ∧
    id ∉ w.store.executions.keys
  seen : ∀ {id}, id ∈ φ.seen → id ∈ w.store.jobs.keys
  opened : ∀ {ex}, ex ∈ φ.opened → ∃ ex', w.store.executions.get? ex.id = some ex' ∧
    ex'.jobID = ex.jobID ∧ ex'.workerID = ex.workerID ∧ ex'.attempt = ex.attempt

/-- A step of an operation that owns `keys`: the identifiers that come into use are its own. -/
structure Rely (keys : String → Prop) (w w' : World) : Prop where
  keeps : Keeps w.store w'.store
  issued : ∀ id ∈ w.issued, id ∈ w'.issued
  jobs : ∀ id ∈ w'.store.jobs.keys, id ∈ w.store.jobs.keys ∨ keys id
  executions : ∀ id ∈ w'.store.executions.keys, id ∈ w.store.executions.keys ∨ keys id

theorem opened_keeps {s s' : Store} (hkeeps : Keeps s s') {ex ex' : JobExecution}
    (hex : s.executions.get? ex.id = some ex')
    (hsame : ex'.jobID = ex.jobID ∧ ex'.workerID = ex.workerID ∧ ex'.attempt = ex.attempt) :
    ∃ ex', s'.executions.get? ex.id = some ex' ∧ ex'.jobID = ex.jobID ∧
      ex'.workerID = ex.workerID ∧ ex'.attempt = ex.attempt := by
  obtain ⟨ex'', hex'', hidentity⟩ := hkeeps.executions hex
  simp only [executionIdentity, Prod.mk.injEq] at hidentity
  obtain ⟨hjob, hworker, hattempt, -⟩ := hidentity
  exact ⟨ex'', hex'', hjob.trans hsame.1, hworker.trans hsame.2.1, hattempt.trans hsame.2.2⟩

theorem holds_stable {keys : String → Prop} (hrely : Rely keys w w')
    (hkeys : ∀ id, id ∈ φ.issued → ¬ keys id) (h : Holds φ w) : Holds φ w' where
  issued := by
    intro id hid
    obtain ⟨hne, hissued, hjobs, hexecutions⟩ := h.issued hid
    refine ⟨hne, hrely.issued id hissued, fun hnew => ?_, fun hnew => ?_⟩
    · exact (hrely.jobs id hnew).elim hjobs (hkeys id hid)
    · exact (hrely.executions id hnew).elim hexecutions (hkeys id hid)
  seen := fun hid => grows_keys hrely.keeps.jobs (h.seen hid)
  opened := by
    intro ex hex
    obtain ⟨ex', hex', hsame⟩ := h.opened hex
    exact opened_keeps hrely.keeps hex' hsame

/-- What a call does to the references, for every phase that admits it. -/
structure Effect (φ φ' : Trail) (w w' : World) : Prop where
  intact : Intact w'.store
  rely : Rely (fun id => id ∈ φ.issued ∨ id ∉ w.issued) w w'
  holds : Holds φ' w'
  owns : ∀ id, id ∈ φ'.issued → id ∈ φ.issued ∨ id ∉ w.issued

theorem effect_of_same (hinv : Intact w.store) (h : Holds φ w)
    (hjobs : w'.store.jobs = w.store.jobs)
    (hexecutions : w'.store.executions = w.store.executions)
    (hissued : w'.issued = w.issued) : Effect φ φ w w' := by
  have hrely : ∀ keys, Rely keys w w' := fun keys =>
    { keeps := ⟨hjobs ▸ grows_refl _ _, hexecutions ▸ grows_refl _ _⟩
      issued := fun _ hid => hissued ▸ hid
      jobs := fun _ hid => Or.inl (hjobs ▸ hid)
      executions := fun _ hid => Or.inl (hexecutions ▸ hid) }
  refine ⟨⟨?_, ?_⟩, hrely _, holds_stable (hrely fun _ => False) (fun _ _ h => h) h,
    fun _ => Or.inl⟩
  · rw [hjobs, hexecutions]
    exact hinv.jobs
  · rw [hjobs, hexecutions]
    exact hinv.executions

/-- A job comes into the table, or one that is there is written over with its identity kept. -/
theorem rely_put_job {keys : String → Prop} {job : Job} (hissued : w'.issued = w.issued)
    (hjobs : w'.store.jobs = w.store.jobs.put job)
    (hexecutions : w'.store.executions = w.store.executions)
    (hsame : ∀ old, w.store.jobs.get? job.id = some old → identity job = identity old)
    (hkey : job.id ∈ w.store.jobs.keys ∨ keys job.id) : Rely keys w w' where
  keeps := ⟨hjobs ▸ grows_put hsame, hexecutions ▸ grows_refl _ _⟩
  issued := fun _ hid => hissued ▸ hid
  jobs := by
    intro id hid
    rw [hjobs, mem_keys_put] at hid
    rcases hid with rfl | hold
    · exact hkey
    · exact Or.inl hold
  executions := fun _ hid => Or.inl (hexecutions ▸ hid)

theorem rely_put_execution {keys : String → Prop} {ex : JobExecution}
    (hissued : w'.issued = w.issued) (hjobs : w'.store.jobs = w.store.jobs)
    (hexecutions : w'.store.executions = w.store.executions.put ex)
    (hsame : ∀ old, w.store.executions.get? ex.id = some old →
      executionIdentity ex = executionIdentity old)
    (hkey : ex.id ∈ w.store.executions.keys ∨ keys ex.id) : Rely keys w w' where
  keeps := ⟨hjobs ▸ grows_refl _ _, hexecutions ▸ grows_put hsame⟩
  issued := fun _ hid => hissued ▸ hid
  jobs := fun _ hid => Or.inl (hjobs ▸ hid)
  executions := by
    intro id hid
    rw [hexecutions, mem_keys_put] at hid
    rcases hid with rfl | hold
    · exact hkey
    · exact Or.inl hold

theorem issued_of_ne {c : Call} (hc : c ≠ .newUUID) (w : World) (d : Draw) :
    (step c w d).2.issued = w.issued :=
  (issued_step c w d).resolve_right fun h => hc h.1

theorem newUUID_effect (hinv : Intact w.store) (h : Holds φ w) (hfresh : Fresh w d.uuid) :
    Effect φ (φ.after .newUUID d.uuid) w (step .newUUID w d).2 := by
  have hrely : ∀ keys, Rely keys w (step .newUUID w d).2 := fun keys =>
    { keeps := keeps_refl _
      issued := fun _ hid => List.mem_cons_of_mem _ hid
      jobs := fun _ => Or.inl
      executions := fun _ => Or.inl }
  have hold := holds_stable (hrely fun _ => False) (fun _ _ h => h) h
  refine ⟨hinv, hrely _, ⟨fun {id} hid => ?_, hold.seen, hold.opened⟩, fun id hid => ?_⟩
  · rcases List.mem_cons.mp hid with rfl | hid
    · exact ⟨hfresh.1, List.mem_cons_self, hfresh.2.2.1, hfresh.2.2.2⟩
    · exact hold.issued hid
  · rcases List.mem_cons.mp hid with rfl | hid
    · exact Or.inr hfresh.2.1
    · exact Or.inl hid

theorem quiet_effect {c : Call} (hquiet : c.quiet) (hc : c ≠ .newUUID) (hinv : Intact w.store)
    (h : Holds φ w) : Effect φ φ w (step c w d).2 := by
  obtain ⟨hjobs, hexecutions⟩ := quiet_step hquiet w d
  exact effect_of_same hinv h hjobs hexecutions (issued_of_ne hc w d)

theorem getJob_effect {id : String} (hinv : Intact w.store) (h : Holds φ w) :
    Effect φ (φ.after (.getJob id) (step (.getJob id) w d).1) w (step (.getJob id) w d).2 := by
  have hsame : Effect φ φ w (step (.getJob id) w d).2 :=
    quiet_effect rfl Call.noConfusion hinv h
  cases hread : (step (.getJob id) w d).1 with
  | error e => exact hsame
  | ok job =>
      refine ⟨hsame.intact, hsame.rely, ⟨hsame.holds.issued, fun {id'} hid => ?_,
        hsame.holds.opened⟩, hsame.owns⟩
      rcases List.mem_cons.mp hid with rfl | hid
      · exact grows_keys hsame.rely.keeps.jobs (mem_keys.mpr ⟨job, (getJob_answered hread).1⟩)
      · exact hsame.holds.seen hid

/-- The identifier under which the store keeps a new job was not in use. -/
theorem stampJob_new {job : Job} (h : Holds φ w)
    (hadmits : job.id = "" ∨ job.id ∈ φ.issued) (hsound : Sound w (.createJob job) d) :
    (stampJob job d.uuid d.now).id ∉ w.store.jobs.keys ∧
      ((stampJob job d.uuid d.now).id ∈ φ.issued ∨
        (stampJob job d.uuid d.now).id ∉ w.issued) := by
  have hid : (stampJob job d.uuid d.now).id = if job.id = "" then d.uuid else job.id := rfl
  rw [hid]
  split
  · rename_i hempty
    have hfresh : Fresh w d.uuid := hsound hempty
    exact ⟨hfresh.2.2.1, Or.inr hfresh.2.1⟩
  · rename_i hgiven
    have hown := hadmits.resolve_left hgiven
    exact ⟨(h.issued hown).2.2.1, Or.inl hown⟩

theorem createJob_effect {job : Job} (hinv : Intact w.store) (h : Holds φ w)
    (hadmits : job.executionID = "" ∧ (job.id = "" ∨ job.id ∈ φ.issued))
    (hsound : Sound w (.createJob job) d) :
    Effect φ { φ with issued := [] } w (step (.createJob job) w d).2 := by
  have hexecutions := executions_step (c := .createJob job) rfl w d
  have hissued : (step (.createJob job) w d).2.issued = w.issued :=
    issued_of_ne Call.noConfusion w d
  have hdrop : ∀ {w'}, Holds φ w' → Holds { φ with issued := [] } w' := fun h' =>
    ⟨fun hid => absurd hid List.not_mem_nil, h'.seen, h'.opened⟩
  have hnone : ∀ id, id ∈ ([] : List String) → id ∈ φ.issued ∨ id ∉ w.issued :=
    fun _ hid => absurd hid List.not_mem_nil
  rcases step_jobs (.createJob job) w d with hsame | ⟨new, hnew, hput⟩ | ⟨_, _, _, _, _, hc, -⟩
  · have heffect := effect_of_same hinv h hsame hexecutions hissued
    exact ⟨heffect.intact, heffect.rely, hdrop heffect.holds, hnone⟩
  · obtain rfl : job = new := Call.createJob.inj hnew
    obtain ⟨habsent, hkey⟩ := stampJob_new h hadmits.2 hsound
    have hrely : Rely (fun id => id ∈ φ.issued ∨ id ∉ w.issued) w (step (.createJob job) w d).2 :=
      rely_put_job hissued hput hexecutions
        (fun old hold => absurd (mem_keys.mpr ⟨old, hold⟩) habsent) (Or.inr hkey)
    refine ⟨⟨fun {id stored} hstored hrefers => ?_, fun {id ex} hex => ?_⟩, hrely, ?_, hnone⟩
    · rw [hput, get?_put] at hstored
      rw [hexecutions]
      split at hstored
      · obtain rfl := Option.some.inj hstored
        exact absurd hadmits.1 hrefers
      · exact hinv.jobs hstored hrefers
    · rw [hexecutions] at hex
      exact grows_keys hrely.keeps.jobs (hinv.executions hex)
    · refine ⟨fun hid => absurd hid List.not_mem_nil, fun hid => ?_, fun hex => ?_⟩
      · exact grows_keys hrely.keeps.jobs (h.seen hid)
      · obtain ⟨ex', hex', hsame⟩ := h.opened hex
        exact opened_keeps hrely.keeps hex' hsame
  · cases hc

theorem createExecution_effect {ex : JobExecution} (hinv : Intact w.store) (h : Holds φ w)
    (hadmits : ex.id ∈ φ.issued ∧ ex.jobID ∈ φ.seen) :
    Effect φ (φ.after (.createExecution ex) (step (.createExecution ex) w d).1) w
      (step (.createExecution ex) w d).2 := by
  obtain ⟨hne, -, -, habsent⟩ := h.issued hadmits.1
  have hnone : ∀ id, id ∈ ([] : List String) → id ∈ φ.issued ∨ id ∉ w.issued :=
    fun _ hid => absurd hid List.not_mem_nil
  cases hfault : d.fault with
  | some e =>
      have hstep : step (.createExecution ex) w d = (.error e, w) := by
        rw [step, guarded_of_some hfault]
      rw [hstep]
      have heffect := effect_of_same hinv h rfl rfl rfl
      refine ⟨heffect.intact, heffect.rely, ?_, hnone⟩
      exact ⟨fun hid => absurd hid List.not_mem_nil, h.seen, h.opened⟩
  | none =>
      have hstep : step (.createExecution ex) w d =
          (.ok (), { w with store := w.store.createExecution ex d.uuid d.now }) := by
        rw [step, guarded_of_none hfault]
      rw [hstep]
      have hid : (stampExecution ex d.uuid d.now).id = ex.id := if_neg hne
      have hget : (w.store.executions.put (stampExecution ex d.uuid d.now)).get? ex.id =
          some (stampExecution ex d.uuid d.now) := by
        rw [← hid]
        exact get?_put_self ..
      have hrely : Rely (fun id => id ∈ φ.issued ∨ id ∉ w.issued) w
          { w with store := w.store.createExecution ex d.uuid d.now } := by
        refine rely_put_execution rfl rfl rfl (fun old hold => ?_) (Or.inr (Or.inl ?_))
        · rw [hid] at hold
          exact absurd (mem_keys.mpr ⟨old, hold⟩) habsent
        · rw [hid]
          exact hadmits.1
      refine ⟨⟨fun {id job} hjob hrefers => ?_, fun {id stored} hstored => ?_⟩, hrely, ?_, hnone⟩
      · obtain ⟨ex', hex', hagree⟩ := hinv.jobs hjob hrefers
        refine ⟨ex', ?_, hagree⟩
        refine (get?_put_of_ne _ ?_).trans hex'
        rw [hid]
        rintro hsame
        exact habsent (mem_keys.mpr ⟨ex', hsame ▸ hex'⟩)
      · have hrows : (w.store.executions.put (stampExecution ex d.uuid d.now)).get? id =
          some stored := hstored
        rw [get?_put] at hrows
        split at hrows
        · obtain rfl := Option.some.inj hrows
          exact h.seen hadmits.2
        · exact hinv.executions hrows
      · refine ⟨fun hid => absurd hid List.not_mem_nil, fun hid => h.seen hid,
          fun {opened} ho => ?_⟩
        rcases List.mem_cons.mp ho with rfl | hold
        · exact ⟨_, hget, rfl, rfl, rfl⟩
        · obtain ⟨ex', hex', hsame⟩ := h.opened hold
          exact opened_keeps hrely.keeps hex' hsame

/-- The record after an update refers to an execution that agrees with it, if to any. -/
theorem agree_applyUpdate {id : String} {old : Job} {state : JobState} {fields : Fields}
    {now : Time} (hinv : Intact w.store) (h : Holds φ w) (hold : w.store.jobs.get? id = some old)
    (hadmits : KeepsExecution fields ∨ φ.Refers id fields)
    (hrefers : (applyUpdate old state fields now).executionID ≠ "") :
    ∃ ex, w.store.executions.get? (applyUpdate old state fields now).executionID = some ex ∧
      Agree (applyUpdate old state fields now) ex := by
  have hexecution : (applyUpdate old state fields now).executionID =
    fields.executionID.getD old.executionID := rfl
  have hworker : (applyUpdate old state fields now).workerID =
    fields.workerID.getD old.workerID := rfl
  have hattempt : (applyUpdate old state fields now).attempt =
    fields.attempt.getD old.attempt := rfl
  rcases hadmits with ⟨-, hnoAttempt, ⟨hnoWorker, hnoExecution⟩ | hcleared⟩ |
    ⟨-, ex, hex, hid, hsetWorker, hsetExecution, hsetAttempt⟩
  · rw [hnoExecution, Option.getD_none] at hexecution
    rw [hnoWorker, Option.getD_none] at hworker
    rw [hnoAttempt, Option.getD_none] at hattempt
    obtain ⟨ex, hex, hagree⟩ := hinv.jobs hold (hexecution ▸ hrefers)
    refine ⟨ex, by rw [hexecution, hex], hagree.jobID, ?_, ?_⟩
    · rw [hworker, hagree.workerID]
    · rw [hattempt, hagree.attempt]
  · rw [hcleared, Option.getD_some] at hexecution
    exact absurd hexecution hrefers
  · rw [hsetExecution, Option.getD_some] at hexecution
    rw [hsetWorker, Option.getD_some] at hworker
    rw [hsetAttempt, Option.getD_some] at hattempt
    obtain ⟨ex', hex', hjob', hworker', hattempt'⟩ := h.opened hex
    refine ⟨ex', by rw [hexecution, hex'], ?_, ?_, ?_⟩
    · rw [hjob', hid]
      exact (key_of_get? hold).symm
    · rw [hworker', hworker]
    · rw [hattempt', hattempt]

theorem updateJobStateIf_effect {id : String} {state : JobState} {fields : Fields}
    {onlyFrom : List JobState} (hinv : Intact w.store) (h : Holds φ w)
    (hadmits : KeepsExecution fields ∨ φ.Refers id fields) :
    Effect φ φ w (step (.updateJobStateIf id state fields onlyFrom) w d).2 := by
  have hexecutions := executions_step (c := .updateJobStateIf id state fields onlyFrom) rfl w d
  have hissued : (step (.updateJobStateIf id state fields onlyFrom) w d).2.issued = w.issued :=
    issued_of_ne Call.noConfusion w d
  rcases step_jobs (.updateJobStateIf id state fields onlyFrom) w d with hsame | ⟨_, hc, -⟩ |
    ⟨id', state', fields', onlyFrom', old, hc, hold, -, hput⟩
  · exact effect_of_same hinv h hsame hexecutions hissued
  · cases hc
  · obtain ⟨rfl, rfl, rfl, rfl⟩ := Call.updateJobStateIf.inj hc
    have hkey : old.id = id := key_of_get? hold
    have hscheduled : fields.scheduledAt = none := hadmits.elim (·.scheduledAt) (·.1)
    have hrely : ∀ keys, Rely keys w
        (step (.updateJobStateIf id state fields onlyFrom) w d).2 := by
      refine fun keys => rely_put_job hissued hput hexecutions (fun found hfound => ?_) (Or.inl ?_)
      · rw [applyUpdate_id, hkey] at hfound
        obtain rfl := Option.some.inj (hold.symm.trans hfound)
        simp [identity, applyUpdate, hscheduled]
      · rw [applyUpdate_id, hkey]
        exact mem_keys.mpr ⟨old, hold⟩
    refine ⟨⟨fun {id' job} hjob hrefers => ?_, fun {id' ex} hex => ?_⟩, hrely _,
      holds_stable (hrely fun _ => False) (fun _ _ hno => hno) h, fun _ => Or.inl⟩
    · rw [hput, get?_put] at hjob
      rw [hexecutions]
      split at hjob
      · obtain rfl := Option.some.inj hjob
        exact agree_applyUpdate hinv h hold hadmits hrefers
      · exact hinv.jobs hjob hrefers
    · rw [hexecutions] at hex
      exact grows_keys (hrely fun _ => False).keeps.jobs (hinv.executions hex)

theorem finishExecution_effect {id : String} {state : ExecutionState} {result : ExecutionResult}
    (hinv : Intact w.store) (h : Holds φ w) :
    Effect φ φ w (step (.finishExecution id state result) w d).2 := by
  have hjobs := jobs_step (c := .finishExecution id state result) rfl w d
  have hissued : (step (.finishExecution id state result) w d).2.issued = w.issued :=
    issued_of_ne Call.noConfusion w d
  have hwritten : (step (.finishExecution id state result) w d).2.store.executions =
        w.store.executions ∨
      ∃ ex ex', w.store.executions.get? id = some ex ∧ ex'.id = ex.id ∧
        executionIdentity ex' = executionIdentity ex ∧
        (step (.finishExecution id state result) w d).2.store.executions =
          w.store.executions.put ex' := by
    simp only [step, guarded, Store.finishExecution]
    split
    · exact Or.inl rfl
    · split
      · exact Or.inl rfl
      · rename_i ex hex
        refine Or.inr ⟨ex, _, hex, ?_, ?_, rfl⟩
        · rfl
        · rfl
  rcases hwritten with hsame | ⟨ex, ex', hex, hid, hidentity, hput⟩
  · exact effect_of_same hinv h hjobs hsame hissued
  · have hkey : ex'.id = id := hid.trans (key_of_get? hex)
    have hrely : ∀ keys, Rely keys w (step (.finishExecution id state result) w d).2 := by
      refine fun keys => rely_put_execution hissued hjobs hput (fun found hfound => ?_) (Or.inl ?_)
      · rw [hkey] at hfound
        obtain rfl := Option.some.inj (hex.symm.trans hfound)
        exact hidentity
      · rw [hkey]
        exact mem_keys.mpr ⟨ex, hex⟩
    simp only [executionIdentity, Prod.mk.injEq] at hidentity
    obtain ⟨hjob, hworker, hattempt, -⟩ := hidentity
    refine ⟨⟨fun {id' job} hjob' hrefers => ?_, fun {id' stored} hstored => ?_⟩, hrely _,
      holds_stable (hrely fun _ => False) (fun _ _ hno => hno) h, fun _ => Or.inl⟩
    · rw [hjobs] at hjob'
      obtain ⟨found, hfound, hagree⟩ := hinv.jobs hjob' hrefers
      rw [hput, get?_put]
      split
      · rename_i hsame
        rw [hsame, hkey] at hfound
        obtain rfl := Option.some.inj (hex.symm.trans hfound)
        exact ⟨ex', rfl, hjob.trans hagree.jobID, hworker.trans hagree.workerID,
          hattempt.trans hagree.attempt⟩
      · exact ⟨found, hfound, hagree⟩
    · rw [hput, get?_put] at hstored
      rw [hjobs]
      split at hstored
      · obtain rfl := Option.some.inj hstored
        rw [hjob]
        exact hinv.executions hex
      · exact hinv.executions hstored

theorem call_effect {c : Call} (hinv : Intact w.store) (h : Holds φ w)
    (hadmits : referring.Admits φ c) (hsound : Sound w c d) :
    Effect φ (φ.after c (step c w d).1) w (step c w d).2 := by
  cases c with
  | newUUID => exact newUUID_effect hinv h hsound
  | getJob id => exact getJob_effect hinv h
  | createJob job => exact createJob_effect hinv h hadmits hsound
  | createExecution ex => exact createExecution_effect hinv h hadmits
  | updateJobStateIf id state fields onlyFrom => exact updateJobStateIf_effect hinv h hadmits
  | finishExecution id state result => exact finishExecution_effect hinv h
  | _ => exact quiet_effect rfl Call.noConfusion hinv h

end Steps

def outline (cron : Cron) (cfg : SchedulerConfig) :
    Library.Ownership.Outline (anyOrder cron cfg) referring String where
  Inv := fun w => Intact w.store
  Holds := Holds
  Owns := fun φ id => id ∈ φ.issued
  Issued := fun w id => id ∈ w.issued
  Rely := Rely
  issued := fun h hid => (h.issued hid).2.1
  stable := fun hrely hkeys h => holds_stable hrely hkeys h
  start := by
    intro p activity w hinv hstart
    have hnothing : ∀ w, Holds {} w := fun w =>
      ⟨fun hid => absurd hid List.not_mem_nil, fun hid => absurd hid List.not_mem_nil,
        fun hex => absurd hex List.not_mem_nil⟩
    have hnone : ∀ id, id ∉ ({} : Trail).issued := fun _ => List.not_mem_nil
    cases activity with
    | operation task =>
        obtain rfl := Option.some.inj hstart
        refine ⟨hinv, ?_, {}, hnothing _, hnone, body_refers cron cfg task⟩
        exact ⟨keeps_refl _, fun _ => id, fun _ => Or.inl, fun _ => Or.inl⟩
    | workers registry workers =>
        obtain ⟨-, hstarted⟩ := Option.ite_none_right_eq_some.mp hstart
        obtain rfl := Option.some.inj hstarted
        refine ⟨⟨hinv.jobs, hinv.executions⟩, ?_, {}, hnothing _, hnone, trivial⟩
        exact ⟨⟨grows_refl _ _, grows_refl _ _⟩, fun _ => id, fun _ => Or.inl, fun _ => Or.inl⟩
  call := by
    intro w φ c d hinv h hadmits hallowed
    have heffect := call_effect hinv h hadmits hallowed
    exact ⟨heffect.intact, heffect.rely, heffect.holds, heffect.owns⟩
  finish := fun _ hinv =>
    ⟨hinv, keeps_refl _, fun _ => id, fun _ => Or.inl, fun _ => Or.inl⟩

theorem valid_empty (cron : Cron) (cfg : SchedulerConfig) {w : World} (hempty : w.store = .new) :
    (outline cron cfg).Valid ⟨w, []⟩ := by
  have hnone : ∀ {id : String} {α : Type} {key : α → String} {a : α},
      (Table.empty : Table key).get? id = some a → False := by
    intro id α key a ha
    exact absurd (ha.symm.trans (get?_empty id)) (Option.some_ne_none a)
  refine ⟨⟨?_, ?_⟩, [], rfl, fun _ hentry => absurd hentry List.not_mem_nil, List.Pairwise.nil⟩
  · intro id job hjob
    rw [hempty] at hjob
    exact (hnone hjob).elim
  · intro id ex hex
    rw [hempty] at hex
    exact (hnone hex).elim

/-- The references between jobs and executions hold after every call of every interleaving of
the operations, with stores, queues and networks that fail.  From there on no job and no
execution disappears, and what was fixed at its creation stays. -/
theorem references_hold (cron : Cron) (cfg : SchedulerConfig) {w : World}
    (hempty : w.store = .new) {p q : Pool Call Answer World Activity Outcome}
    (hreach : (anyOrder cron cfg).Reaches (fun _ _ => True) ⟨w, []⟩ p)
    (hlater : (anyOrder cron cfg).Reaches (fun _ _ => True) p q) :
    Intact p.state.store ∧ Keeps p.state.store q.state.store := by
  have hrely : ∀ {keys : String → Prop} {v v' v'' : World}, Keeps v.store v'.store →
      Rely keys v' v'' → Keeps v.store v''.store :=
    fun hkeeps hstep => keeps_trans hkeeps hstep.keeps
  have hvalid := (Library.Ownership.valid_reaches (outline cron cfg)
    (R := fun v v' : World => Keeps v.store v'.store) (fun _ => keeps_refl _) hrely
    (valid_empty cron cfg hempty) hreach).1
  exact ⟨hvalid.1, (Library.Ownership.valid_reaches (outline cron cfg)
    (R := fun v v' : World => Keeps v.store v'.store) (fun _ => keeps_refl _) hrely
    hvalid hlater).2⟩

/-- A job refers to its execution as soon as it is ASSIGNED, and is the same job once it runs. -/
theorem assigned_job_refers :
    ∃ p q : Pool Call Answer World Activity Outcome,
      (p.state.store.jobs.get? "job").map Job.executionID = some "execution" ∧
        q.state.jobState "job" = some .running ∧
        Intact p.state.store ∧ Keeps p.state.store q.state.store := by
  let calls : List Draw → List (Move Activity Draw) := List.map (.advance 0)
  let moves : List (Move Activity Draw) :=
    .start (.operation (.createJob (some echoRequest))) :: calls (createDraws 1 "job") ++
      [.finish 0 {}, .start (.workers idleWorker.registry .empty), .finish 0 {},
        .start (.operation (.handleQueuedJob echoMessage))] ++
      calls ((handleDraws 2 "execution").take 6)
  let p := ((anyOrder utcOnly smallConfig).follow (fun _ _ => true) ⟨.empty, []⟩ moves).get
    (by decide +kernel)
  let q := ((anyOrder utcOnly smallConfig).follow (fun _ _ => true) p
    (calls ((handleDraws 2 "execution").drop 6))).get (by decide +kernel)
  refine ⟨p, q, by decide +kernel, by decide +kernel, ?_⟩
  refine references_hold utcOnly smallConfig (w := .empty) rfl ?_ ?_
  · exact reaches_of_follow (fun _ _ _ => trivial) (Option.some_get _).symm
  · exact reaches_of_follow (fun _ _ _ => trivial) (Option.some_get _).symm

end Chronos.References
