import Chronos.JobWrites.Operations
import Chronos.Library.RelyGuarantee
import Chronos.SharedState.Steps

namespace Chronos.RecordFields

open Chronos.Domain
open Chronos.JobWrites
open Chronos.Library.CallProgram
open Chronos.Library.Interleaving
open Chronos.Library.KeyedTable
open Chronos.Library.RelyGuarantee
open Chronos.MemoryStore
open Chronos.Operations
open Chronos.SchedulerService
open Chronos.SharedState

/-- The fields that a record must have in its state. -/
def hasFields (job : Job) : Prop :=
  match job.state with
  | .scheduled => job.scheduledAt.isSome
  | .queued => job.queuedAt.isSome
  | .assigned => job.workerID ≠ "" ∧ job.executionID ≠ ""
  | .running => job.startedAt.isSome
  | .retrying => job.nextRetryAt.isSome
  | .completed | .failed | .timeout | .cancelled => job.completedAt.isSome
  | _ => True

/-- The part of the discipline of all operations that needs no knowledge of the records
they write. -/
def recording : Protocol Call Answer Told where
  Admits φ
    | .updateJobStateIf _ state fields _ => φ.Sets fields state
    | .createJob job => job.state = .scheduled ∧ job.scheduledAt.isSome
    | _ => True
  after := Told.after

theorem body_records (cron : Cron) (cfg : SchedulerConfig) (task : Task) :
    (task.body cron cfg).Follows recording Calm {} := by
  refine follows_of_admits (body_follows cron cfg task) rfl fun φ c hadmits => ?_
  cases c with
  | updateJobStateIf id state fields onlyFrom => exact hadmits.2.1.1
  | createJob job => exact ⟨hadmits.2.1.1, hadmits.2.1.2.1⟩
  | _ => trivial

/-- Identifiers and picked workers have a name. -/
structure Named (φ : Told) : Prop where
  issued : ∀ id ∈ φ.issued, id ≠ ""
  picked : ∀ wc ∈ φ.picked, wc.info.id ≠ ""

theorem hasFields_applyUpdate {φ : Told} (hnamed : Named φ) {state : JobState}
    {fields : Fields} (hsets : φ.Sets fields state) (job : Job) (now : Time) :
    hasFields (applyUpdate job state fields now) := by
  have hsome : ∀ {new old : Option Time}, new.isSome → (new.or old).isSome := by
    intro new old hnew
    rw [Option.isSome_or, hnew, Bool.true_or]
  cases state with
  | assigned =>
      obtain ⟨⟨wc, hwc, hworker⟩, id, hid, hexecution⟩ := hsets
      refine ⟨?_, ?_⟩
      · rw [applyUpdate, hworker]
        exact hnamed.picked wc hwc
      · rw [applyUpdate, hexecution]
        exact hnamed.issued id hid
  | cancelRequested => trivial
  | created => exact hsets.elim
  | scheduled => exact hsets.elim
  | expired => exact hsets.elim
  | _ => exact hsome hsets

/-- Every record has the fields of its state, and every registered worker an id. -/
structure Recorded (w : World) : Prop where
  fields : ∀ {id job}, w.store.jobs.get? id = some job → hasFields job
  workers : w.registry.workers.get? "" = none

/-- Operations with any arguments, and whatever the workers do to the registry and to
the table of workers. -/
inductive Activity
  | operation (task : Task)
  | workers (registry : Registry) (workers : WorkerTable)

def anyOrder (cron : Cron) (cfg : SchedulerConfig) :
    System Call Answer World Draw Activity Outcome where
  machine := failing
  body
    | .operation task => task.body cron cfg
    | .workers _ _ => .ret (.returned (.ok ()))
  start := fun p activity =>
    match activity with
    | .operation _ => some p.state
    | .workers registry workers =>
        if (registry.workers.get? "").isNone then
          some { p.state with
            registry := registry
            store := { p.state.store with workers := workers } }
        else none
  finish := fun _ _ _ w => w

theorem recorded_step {φ : Told} {c : Call} {w : World} {d : Draw} (hw : Recorded w)
    (hnamed : Named φ) (hadmits : recording.Admits φ c) : Recorded (step c w d).2 where
  workers := registered_step hw.workers c d
  fields := by
    intro id job hjob
    rcases step_jobs c w d with hsame | ⟨new, rfl, hput⟩ |
      ⟨id', state, fields, onlyFrom, old, rfl, hold, -, hput⟩
    · rw [hsame] at hjob
      exact hw.fields hjob
    · rw [hput, get?_put] at hjob
      split at hjob
      · obtain rfl := Option.some.inj hjob
        obtain ⟨hstate, hscheduled⟩ := hadmits
        have hstamped : (stampJob new d.uuid d.now).state = .scheduled := hstate
        rw [hasFields, hstamped]
        exact hscheduled
      · exact hw.fields hjob
    · rw [hput, get?_put] at hjob
      split at hjob
      · obtain rfl := Option.some.inj hjob
        exact hasFields_applyUpdate hnamed hadmits old d.now
      · exact hw.fields hjob

def givesNames : Call → Bool
  | .newUUID | .pickWorker | .createJob _ => true
  | _ => false

theorem named_after {φ : Told} {c : Call} (hnamed : Named φ) (hc : givesNames c = false)
    (answer : Answer c) : Named (φ.after c answer) := by
  cases c with
  | newUUID => exact absurd hc.symm Bool.false_ne_true
  | pickWorker => exact absurd hc.symm Bool.false_ne_true
  | createJob job => exact absurd hc.symm Bool.false_ne_true
  | listJobs state limit => cases state <;> cases answer <;> exact ⟨hnamed.issued, hnamed.picked⟩
  | _ => first
    | exact ⟨hnamed.issued, hnamed.picked⟩
    | (cases answer <;> exact ⟨hnamed.issued, hnamed.picked⟩)

theorem named_step {φ : Told} {c : Call} {w : World} {d : Draw} (hw : Recorded w)
    (hnamed : Named φ) (hsound : Sound w c d) : Named (φ.after c (step c w d).1) := by
  cases c with
  | newUUID =>
      have hfresh : Fresh w d.uuid := hsound
      refine ⟨fun id hid => ?_, hnamed.picked⟩
      rcases List.mem_cons.mp hid with rfl | hold
      · exact hfresh.1
      · exact hnamed.issued id hold
  | pickWorker =>
      simp only [step]
      cases hpick : pickWorker (w.registry.workers.inOrder d.order) with
      | none => exact hnamed
      | some wc =>
          refine ⟨hnamed.issued, fun wc' hwc' => ?_⟩
          rcases List.mem_cons.mp hwc' with rfl | hold
          · have hregistered := (mem_inOrder.mp (mem_of_pickWorker hpick)).2
            intro hempty
            rw [hempty, hw.workers] at hregistered
            exact absurd hregistered.symm (Option.some_ne_none _)
          · exact hnamed.picked wc' hold
  | createJob job =>
      cases (step (.createJob job) w d).1 <;>
        exact ⟨fun _ h => absurd h List.not_mem_nil, hnamed.picked⟩
  | _ => exact named_after hnamed rfl _

def outline (cron : Cron) (cfg : SchedulerConfig) : Outline (anyOrder cron cfg) recording where
  Inv := Recorded
  Holds := fun φ _ => Named φ
  Rely := fun _ _ => True
  Final := fun _ _ _ => True
  stable := fun _ hnamed => hnamed
  start := by
    intro p activity w hinv hstart
    have hnamed : Named {} :=
      ⟨fun _ h => absurd h List.not_mem_nil, fun _ h => absurd h List.not_mem_nil⟩
    cases activity with
    | operation task =>
        obtain rfl := Option.some.inj hstart
        exact ⟨hinv, trivial, {}, hnamed, follows_mono (body_records cron cfg task)
          fun _ _ _ => trivial⟩
    | workers registry workers =>
        obtain ⟨hnone, hstarted⟩ := Option.ite_none_right_eq_some.mp hstart
        obtain rfl := Option.some.inj hstarted
        exact ⟨⟨hinv.fields, Option.isNone_iff_eq_none.mp hnone⟩, trivial, {}, hnamed, trivial⟩
  call := fun hinv hnamed hadmits hallowed =>
    ⟨recorded_step hinv hnamed hadmits, trivial, named_step hinv hnamed hallowed⟩
  finish := fun _ hinv _ _ => ⟨hinv, trivial⟩

/-- A job that waits for a time says for which. -/
def hasDueTime (job : Job) : Prop :=
  (job.state = .scheduled → job.scheduledAt.isSome) ∧
    (job.state = .retrying → job.nextRetryAt.isSome)

theorem hasDueTime_of_hasFields {job : Job} (hfields : hasFields job) : hasDueTime job := by
  constructor
  · intro hstate
    simpa only [hasFields, hstate] using hfields
  · intro hstate
    simpa only [hasFields, hstate] using hfields

theorem due_of_late {job : Job} (htime : hasDueTime job)
    (hstate : job.state = .scheduled ∨ job.state = .retrying) :
    ∃ t, ∀ now ≥ t, dueScheduled now job := by
  rcases hstate with hstate | hstate
  · obtain ⟨t, ht⟩ := Option.isSome_iff_exists.mp (htime.1 hstate)
    refine ⟨t, fun now hnow => ?_⟩
    simpa [dueScheduled, hstate, ht] using hnow
  · obtain ⟨t, ht⟩ := Option.isSome_iff_exists.mp (htime.2 hstate)
    refine ⟨t, fun now hnow => ?_⟩
    simpa [dueScheduled, hstate, ht] using hnow

/-- Every job that waits for a time is listed at every late enough clock, when the limit
exceeds the number of jobs. -/
def ListedWhenDue (s : Store) : Prop :=
  ∀ id job, s.jobs.get? id = some job → job.state = .scheduled ∨ job.state = .retrying →
    ∃ t, ∀ now ≥ t, ∀ order limit, s.jobs.Enumerates order → (s.jobs.keys.card : Int) < limit →
      job ∈ s.listDueScheduled order now limit

theorem listedWhenDue_of_dueTime {s : Store}
    (htime : ∀ {id job}, s.jobs.get? id = some job → hasDueTime job) : ListedWhenDue s := by
  intro id job hjob hstate
  obtain ⟨t, hdue⟩ := due_of_late (htime hjob) hstate
  exact ⟨t, fun now hnow order limit horder hlimit =>
    mem_listDueScheduled horder hlimit hjob (hdue now hnow)⟩

theorem timedOut_of_late {job : Job} (hfields : hasFields job) (hstate : job.state = .running) :
    ∃ t, ∀ now ≥ t, timedOutRunning now job := by
  simp only [hasFields, hstate] at hfields
  obtain ⟨t, ht⟩ := Option.isSome_iff_exists.mp hfields
  refine ⟨t + effectiveTimeout job + 1, fun now hnow => ?_⟩
  simpa [timedOutRunning, hstate, ht] using Int.lt_of_add_one_le hnow

/-- No record is half-written, so that the pollers find every job they wait for. -/
structure Complete (s : Store) : Prop where
  fields : ∀ {id job}, s.jobs.get? id = some job → hasFields job
  due : ListedWhenDue s
  timedOut : ∀ {id job}, s.jobs.get? id = some job → job.state = .running →
    ∃ t, ∀ now ≥ t, ∀ order limit, s.jobs.Enumerates order → (s.jobs.keys.card : Int) < limit →
      job ∈ s.listTimedOutRunning order now limit

theorem complete_of_fields {s : Store}
    (hfields : ∀ {id job}, s.jobs.get? id = some job → hasFields job) : Complete s where
  fields := hfields
  due := listedWhenDue_of_dueTime fun hjob => hasDueTime_of_hasFields (hfields hjob)
  timedOut := by
    intro id job hjob hstate
    obtain ⟨t, hlate⟩ := timedOut_of_late (hfields hjob) hstate
    exact ⟨t, fun now hnow order limit horder hlimit =>
      mem_listTimedOutRunning horder hlimit hjob (hlate now hnow)⟩

theorem no_record_half_written (cron : Cron) (cfg : SchedulerConfig) {w : World}
    (hempty : w.store = .new) (hworkers : w.registry.workers.get? "" = none)
    {p : Pool Call Answer World Activity Outcome}
    (hreach : (anyOrder cron cfg).Reaches (fun _ _ => True) ⟨w, []⟩ p) :
    Complete p.state.store := by
  have hstart : Recorded w := by
    refine ⟨fun {id job} hjob => ?_, hworkers⟩
    rw [hempty] at hjob
    exact absurd (hjob.symm.trans (get?_empty id)) (Option.some_ne_none job)
  have hvalid := valid_reaches (outline cron cfg) hreach
    ⟨hstart, fun _ hthread => absurd hthread List.not_mem_nil⟩
  exact complete_of_fields hvalid.1.fields

instance (w : World) (c : Call) (d : Draw) :
    Decidable ((anyOrder utcOnly smallConfig).machine.Allowed w c d) :=
  inferInstanceAs (Decidable (failing.Allowed w c d))

/-- Between the calls of its handler a created job is ASSIGNED: with its worker and its
execution in the record. -/
theorem assigned_record_complete :
    ∃ p : Pool Call Answer World Activity Outcome,
      p.state.jobState "job" = some .assigned ∧ p.threads.length = 1 ∧
        Complete p.state.store := by
  let calls : List Draw → List (Move Activity Draw) := List.map (.advance 0)
  let moves : List (Move Activity Draw) :=
    .start (.operation (.createJob (some echoRequest))) :: calls (createDraws 1 "job") ++
      [.finish 0 {}, .start (.workers idleWorker.registry .empty), .finish 0 {},
        .start (.operation (.handleQueuedJob echoMessage))] ++
      calls ((handleDraws 2 "execution").take 6)
  let p := ((anyOrder utcOnly smallConfig).follow (fun _ _ => true) ⟨.empty, []⟩ moves).get
    (by decide +kernel)
  refine ⟨p, by decide +kernel, by decide +kernel, ?_⟩
  refine no_record_half_written utcOnly smallConfig (w := .empty) rfl rfl ?_
  exact reaches_of_follow (fun _ _ _ => trivial) (Option.some_get _).symm

end Chronos.RecordFields
