import Chronos.InformedRuns
import Chronos.Library.Histories
import Chronos.RecurringTimes
import Chronos.TerminalFinality

namespace Chronos.RecurringLineage

open Chronos.ApiServer
open Chronos.Domain
open Chronos.InformedRuns
open Chronos.JobWrites (Creates Writes)
open Chronos.Library.CallMachine
open Chronos.Library.Histories
open Chronos.Library.KeyedTable
open Chronos.MemoryStore
open Chronos.Operations
open Chronos.RecurringTimes (everyMinute nextOccurrence_of_next nextRunAt_of_accepted)
open Chronos.ResultRecords
open Chronos.SchedulerService (SchedulerConfig)
open Chronos.ServiceSteps (WorkersChange)
open Chronos.SharedState
open Chronos.TerminalFinality (createJob_keeps)
open Relation

/-- A complete operation and what its calls draw, or a change of the workers. -/
abbrev Operation := ServiceSteps.Operation (List Draw)

/-- The complete operations one after another, over a store that does not fail. -/
abbrev Step (cron : Cron) (cfg : SchedulerConfig) : World → Operation → World → Prop :=
  ServiceSteps.Step (ServiceSteps.Completes cron cfg (steady fun _ => True))

abbrev History := List (Entry World Operation)

def reportsOn : Task → Option String
  | .handleResult jobID _ _ _ _ => some jobID
  | _ => none

/-- The operation is a report on the parent, and the child is a job that it adds. -/
structure SpawnsIn (entry : Entry World Operation) (parent child : String) : Prop where
  report : entry.label.task?.bind reportsOn = some parent
  absent : entry.before.store.jobs.get? child = none
  added : ∃ job, entry.after.store.jobs.get? child = some job

def Spawns (history : History) (parent child : String) : Prop :=
  ∃ entry ∈ history, SpawnsIn entry parent child

/-- The occurrences that come from one job. -/
def Lineage (history : History) : String → String → Prop := ReflTransGen (Spawns history)

def Live (w : World) (id : String) : Prop :=
  ∃ job, w.store.jobs.get? id = some job ∧ job.state.terminal = false

theorem live_of_jobState {w : World} {id : String} {state : JobState}
    (hstate : w.jobState id = some state) (hlive : state.terminal = false) : Live w id := by
  obtain ⟨job, hjob, rfl⟩ := Option.map_eq_some_iff.mp hstate
  exact ⟨job, hjob, hlive⟩

/-- The operation makes an occurrence of a recurring job COMPLETED. -/
def Completes (entry : Entry World Operation) (id : String) : Prop :=
  ∃ job, entry.before.store.jobs.get? id = some job ∧ job.schedule.type = .recurring ∧
    job.state ≠ .completed ∧ entry.after.jobState id = some .completed

def Keyless : Task → Prop
  | .createJob (some req) => req.idempotencyKey = ""
  | _ => True

/-- A change of the workers leaves the jobs as they are. -/
theorem jobs_of_workers {w w' : World} (hchange : WorkersChange w w') :
    w'.store.jobs = w.store.jobs := by
  obtain ⟨registry, workers, news, -⟩ := hchange
  rfl

/-- The recurring jobs in the table have a schedule that passed its check. -/
def Accepted (cron : Cron) (jobs : JobTable) : Prop :=
  ∀ id job, jobs.get? id = some job → job.schedule.type = .recurring →
    ∃ checkedAt, validateSchedule cron job.schedule checkedAt = .ok ()

section Writing

variable {task : Task} {id : String} {job : Job} {state : JobState} {fields : Fields}
  {onlyFrom : List JobState}

theorem settles_live {attempt : Int} {result : ExecutionResult}
    (hsettles : JobWrites.Settles job attempt result state fields) : job.state.terminal = false :=
  hsettles.1

/-- Only a create request writes over a COMPLETED job. -/
theorem createJob_of_writes_completed (hwrites : Writes task id job state fields onlyFrom)
    (hcompleted : job.state = .completed) : ∃ body, task = .createJob body := by
  cases task with
  | createJob body => exact ⟨body, rfl⟩
  | cancelJob target =>
      obtain ⟨-, hrefused, -⟩ := hwrites
      rw [hcompleted] at hrefused
      cases hrefused
  | promoteDueJobs => simp [Writes, hcompleted] at hwrites
  | handleQueuedJob message => simp [Writes, hcompleted, JobState.queueable] at hwrites
  | handleResult jobID executionID workerID attempt result =>
      have hlive := settles_live hwrites.2.2
      rw [hcompleted] at hlive
      cases hlive
  | pushPendingCancels => simp [Writes, hcompleted] at hwrites
  | watchdogTimeouts => simp [Writes, hcompleted] at hwrites
  | checkWorkers => simp [Writes, hcompleted] at hwrites

/-- Only a report writes COMPLETED. -/
theorem reportsOn_of_writes_completed
    (hwrites : Writes task id job .completed fields onlyFrom) : reportsOn task = some id := by
  cases task with
  | handleResult jobID executionID workerID attempt result => exact congrArg some hwrites.1.symm
  | cancelJob target =>
      obtain ⟨-, -, -, -, hstate⟩ := hwrites
      split at hstate <;> cases hstate
  | createJob body => exact absurd hwrites.1 JobState.noConfusion
  | promoteDueJobs => exact absurd hwrites.1 JobState.noConfusion
  | handleQueuedJob message => simp [Writes] at hwrites
  | pushPendingCancels => exact absurd hwrites.2.1 JobState.noConfusion
  | watchdogTimeouts =>
      have hsuccess := hwrites.2.2.2.2.2
      cases hsuccess
  | checkWorkers =>
      have hsuccess := hwrites.2.2.2.2.2
      cases hsuccess

/-- New jobs come from requests and reports. -/
theorem creator (hcreates : Creates task job) :
    (∃ body, task = .createJob body) ∨ ∃ parent, reportsOn task = some parent := by
  obtain ⟨-, -, -, -, hcreates⟩ := hcreates
  cases task with
  | createJob body => exact Or.inl ⟨body, rfl⟩
  | handleResult jobID executionID workerID attempt result => exact Or.inr ⟨jobID, rfl⟩
  | _ => exact hcreates.elim

end Writing

section OneOperation

variable {cron : Cron} {cfg : SchedulerConfig} {task : Task} {ds : List Draw}
  {outcome : Outcome} {w w' : World} {id : String} {job : Job}

theorem schedule_kept
    (hrun : (steady fun _ => True).Runs (task.body cron cfg) w ds outcome w')
    (hjob : w.store.jobs.get? id = some job) :
    ∃ job', w'.store.jobs.get? id = some job' ∧ job'.schedule = job.schedule := by
  refine steady_informed (I := fun w' => ∃ job', w'.store.jobs.get? id = some job' ∧
    job'.schedule = job.schedule) cron cfg ?_ ⟨job, hjob, rfl⟩ _ _ _ hrun
  rintro w₁ c d hinformed hsound ⟨job₁, hjob₁, hschedule⟩
  rcases informed_stored hinformed hsound hjob₁ with hsame | ⟨state, fields, onlyFrom, -, hput⟩
  · exact ⟨job₁, hsame, hschedule⟩
  · exact ⟨_, hput, hschedule⟩

theorem absent_kept
    (hrun : (steady fun _ => True).Runs (task.body cron cfg) w ds outcome w')
    (hcreate : ∀ body, task ≠ .createJob body) (hreport : reportsOn task = none)
    (hnone : w.store.jobs.get? id = none) : w'.store.jobs.get? id = none := by
  refine steady_informed (I := fun w' => w'.store.jobs.get? id = none) cron cfg ?_ hnone
    _ _ _ hrun
  rintro w₁ c d hinformed - hnone₁
  rcases informed_absent hinformed hnone₁ with hstill | ⟨new, -, hcreates, -⟩
  · exact hstill
  · rcases creator hcreates with ⟨body, hbody⟩ | ⟨parent, hparent⟩
    · exact absurd hbody (hcreate body)
    · rw [hreport] at hparent
      cases hparent

theorem incomplete_kept
    (hrun : (steady fun _ => True).Runs (task.body cron cfg) w ds outcome w')
    (hreport : reportsOn task ≠ some id) (hjob : w.store.jobs.get? id = some job)
    (hstate : job.state ≠ .completed) : w'.jobState id ≠ some .completed := by
  have hkept : ∃ job', w'.store.jobs.get? id = some job' ∧ job'.state ≠ .completed := by
    refine steady_informed (I := fun w' => ∃ job', w'.store.jobs.get? id = some job' ∧
      job'.state ≠ .completed) cron cfg ?_ ⟨job, hjob, hstate⟩ _ _ _ hrun
    rintro w₁ c d hinformed hsound ⟨job₁, hjob₁, hstate₁⟩
    rcases informed_stored hinformed hsound hjob₁ with
      hsame | ⟨state, fields, onlyFrom, hwrites, hput⟩
    · exact ⟨job₁, hsame, hstate₁⟩
    · refine ⟨_, hput, fun hcompleted => hreport ?_⟩
      obtain rfl : state = .completed := hcompleted
      exact reportsOn_of_writes_completed hwrites
  obtain ⟨job', hjob', hstate'⟩ := hkept
  rw [World.jobState, hjob', Option.map_some, ne_eq, Option.some.injEq]
  exact hstate'

/-- COMPLETED is final for requests without a key. -/
theorem completed_kept
    (hrun : (steady fun _ => True).Runs (task.body cron cfg) w ds outcome w')
    (hkeyless : Keyless task) (hjob : w.store.jobs.get? id = some job)
    (hcompleted : job.state = .completed) : w'.store.jobs.get? id = some job := by
  by_cases hcreate : ∃ body, task = .createJob body
  · obtain ⟨body, rfl⟩ := hcreate
    obtain ⟨first, rest, response, w₁, rfl, hrun, hret⟩ := runs_bind_iff.mp hrun
    obtain ⟨-, -, rfl⟩ := runs_ret_iff.mp hret
    cases body with
    | none =>
        obtain ⟨-, -, rfl⟩ := runs_ret_iff.mp hrun
        exact hjob
    | some req => exact createJob_keeps hjob (fun hkey => absurd hkeyless hkey) hrun
  · refine steady_informed (I := fun w' => w'.store.jobs.get? id = some job) cron cfg ?_ hjob
      _ _ _ hrun
    rintro w₁ c d hinformed hsound hjob₁
    refine (informed_stored hinformed hsound hjob₁).resolve_right ?_
    rintro ⟨state, fields, onlyFrom, hwrites, -⟩
    exact hcreate (createJob_of_writes_completed hwrites hcompleted)

/-- The calls of a create request, with the schedule of the job it creates checked. -/
def requestCall (cron : Cron) : Call → Prop
  | .createJob job => job.state = .scheduled ∧ (job.schedule.type = .recurring →
      ∃ checkedAt, validateSchedule cron job.schedule checkedAt = .ok ())
  | .updateJobStateIf _ state _ _ => state = .queued
  | _ => True

theorem checkRequest_valid {req checked : CreateJobRequest} {checkedAt : Time}
    (hchecked : checkRequest cron checkedAt req = .ok checked) :
    validateSchedule cron checked.schedule checkedAt = .ok () := by
  grind [checkRequest]

theorem createJob_calls (cron : Cron) (body : Option CreateJobRequest) :
    (createJob cron body).CallsOnly (requestCall cron) := by
  refine createJob_callsOnly cron body trivial (fun {checkedAt} _ _ _ _ hchecked => ?_)
    fun id c hc => ?_
  · exact ⟨rfl, fun _ => ⟨checkedAt, checkRequest_valid hchecked⟩⟩
  · cases c with
    | updateJobStateIf => exact hc.2.1
    | createJob => exact hc.elim
    | _ => trivial

/-- What a create request leaves under an id that was not in use. -/
theorem requested_job {body : Option CreateJobRequest}
    (hrun : (steady fun _ => True).Runs ((Task.createJob body).body cron cfg) w ds outcome w')
    (hnone : w.store.jobs.get? id = none) (hjob : w'.store.jobs.get? id = some job) :
    job.state.terminal = false ∧ (job.schedule.type = .recurring →
      ∃ checkedAt, validateSchedule cron job.schedule checkedAt = .ok ()) := by
  have hnew : ∀ job ∈ w'.store.jobs.get? id, job.state.terminal = false ∧
      (job.schedule.type = .recurring →
        ∃ checkedAt, validateSchedule cron job.schedule checkedAt = .ok ()) := by
    refine ensures_return (Q := fun w' => ∀ job ∈ w'.store.jobs.get? id,
      job.state.terminal = false ∧ (job.schedule.type = .recurring →
        ∃ checkedAt, validateSchedule cron job.schedule checkedAt = .ok ()))
      (ensures_of_calls ?_ (createJob_calls cron body) ?_) _ _ _ hrun
    · intro c w₁ d hc _ hnew
      rcases step_jobs c w₁ d with hsame | ⟨new, rfl, hput⟩ |
        ⟨id', state, fields, onlyFrom, old, rfl, hold, -, hput⟩
      · rwa [steady_step, hsame]
      · rw [steady_step, hput, get?_put]
        split
        · rintro _ ⟨⟩
          refine ⟨?_, hc.2⟩
          rw [show (stampJob new d.uuid d.now).state = .scheduled from hc.1]
          rfl
        · exact hnew
      · obtain rfl : state = .queued := hc
        rw [steady_step, hput, get?_put]
        split
        · rename_i hid
          rintro _ ⟨⟩
          obtain rfl : id = id' := by rw [hid, applyUpdate_id, key_of_get? hold]
          exact ⟨rfl, (hnew old hold).2⟩
        · exact hnew
    · rw [hnone]
      exact fun job hjob => absurd hjob.symm (Option.some_ne_none job)
  exact hnew job hjob

variable {jobID executionID workerID : String} {attempt : Int} {result : ExecutionResult}

/-- All that a complete report can do to the job table. -/
theorem report_cases
    (hrun : (steady fun _ => True).Runs
      ((Task.handleResult jobID executionID workerID attempt result).body cron cfg) w ds
      outcome w') :
    ((∀ job ∈ w.store.jobs.get? jobID, job.state.terminal) ∧ w'.store.jobs = w.store.jobs) ∨
      ∃ job x, w.store.jobs.get? jobID = some job ∧ job.state.terminal = false ∧
        w'.store.jobs = (Report.mk workerID attempt result).settle cron job x w.store.jobs ∧
        (((Report.mk workerID attempt result).successor cron job x.now).isSome →
          Fresh w x.uuid) := by
  obtain ⟨first, rest, value, w₁, rfl, hrun, hret⟩ := runs_bind_iff.mp hrun
  obtain ⟨-, -, rfl⟩ := runs_ret_iff.mp hret
  have hreport : (steady fun _ => True).Runs
      ((Report.mk workerID attempt result).handleResult cron jobID executionID) w first value w' :=
    hrun
  obtain ⟨x, φ, hs, hended⟩ := settling_of_runs hreport
  rcases settling_ended hs hended with hidle | ⟨job, hjob, hlive, hjobs, hnew, -⟩
  · exact Or.inl hidle
  · exact Or.inr ⟨job, x, hjob, hlive, hjobs, hnew⟩

variable {report : Report} {x : Readings} {child : String}

/-- The only new id of a settled job is the one of its next occurrence. -/
theorem added_of_settle (hjob : w.store.jobs.get? jobID = some job)
    (hnone : w.store.jobs.get? child = none) {added : Job}
    (hadded : (report.settle cron job x w.store.jobs).get? child = some added) :
    report.child cron job x = some added ∧ child = x.uuid := by
  have hne : child ≠ (report.record job x).id := by
    rw [record_id, key_of_get? hjob]
    rintro rfl
    exact absurd (hjob.symm.trans hnone) (Option.some_ne_none job)
  unfold Report.settle at hadded
  cases hchild : report.child cron job x with
  | none =>
      rw [hchild, addJob, get?_put_of_ne _ hne, hnone] at hadded
      cases hadded
  | some born =>
      rw [hchild, addJob, get?_put] at hadded
      split at hadded
      · rename_i hid
        obtain rfl := Option.some.inj hadded
        obtain ⟨successor, hsuccessor, rfl⟩ := Option.map_eq_some_iff.mp hchild
        exact ⟨rfl, hid.trans (stamp_successor hsuccessor _ _)⟩
      · rw [get?_put_of_ne _ hne, hnone] at hadded
        cases hadded

theorem child_spec {born : Job} (hchild : report.child cron job x = some born) :
    report.outcome job = .completed ∧ job.schedule.type = .recurring ∧
      born.state = .scheduled ∧ born.schedule = job.schedule := by
  obtain ⟨successor, hsuccessor, rfl⟩ := Option.map_eq_some_iff.mp hchild
  unfold Report.successor at hsuccessor
  split at hsuccessor
  · rename_i hcompleted
    unfold nextOccurrence at hsuccessor
    split at hsuccessor
    · cases hsuccessor
    · rename_i hrecurring
      split at hsuccessor
      · cases hsuccessor
      · obtain rfl := Option.some.inj hsuccessor
        exact ⟨hcompleted, not_not.mp hrecurring, rfl, rfl⟩
  · cases hsuccessor

theorem child_of_completed (haccepted : Accepted cron w.store.jobs)
    (hjob : w.store.jobs.get? jobID = some job) (hrecurring : job.schedule.type = .recurring)
    (hcompleted : report.outcome job = .completed) :
    ∃ born, report.child cron job x = some born := by
  obtain ⟨checkedAt, hvalid⟩ := haccepted jobID job hjob hrecurring
  obtain ⟨location, next, -, -, hnext⟩ := nextRunAt_of_accepted hrecurring hvalid
  obtain ⟨born, hborn, -⟩ := nextOccurrence_of_next hrecurring (hnext x.now)
  rw [Report.child, Report.successor, if_pos hcompleted, hborn]
  exact ⟨_, rfl⟩

theorem exists_report_of (hreport : reportsOn task = some jobID) :
    ∃ executionID workerID attempt result,
      task = .handleResult jobID executionID workerID attempt result := by
  cases task with
  | handleResult id executionID workerID attempt result =>
      obtain rfl := Option.some.inj hreport
      exact ⟨executionID, workerID, attempt, result, rfl⟩
  | _ => cases hreport

/-- Where a new job comes from: from a request, or it is the next occurrence of the recurring
job that a report makes COMPLETED. -/
theorem origin (hrun : (steady fun _ => True).Runs (task.body cron cfg) w ds outcome w')
    (hnone : w.store.jobs.get? id = none) (hjob : w'.store.jobs.get? id = some job) :
    (∃ body, task = .createJob body) ∨
      ∃ parent old, reportsOn task = some parent ∧ w.store.jobs.get? parent = some old ∧
        old.schedule.type = .recurring ∧ old.state ≠ .completed ∧
        w'.jobState parent = some .completed ∧ job.state = .scheduled ∧
        job.schedule = old.schedule := by
  by_cases hcreate : ∃ body, task = .createJob body
  · exact Or.inl hcreate
  cases hreport : reportsOn task with
  | none =>
      have hstill := absent_kept hrun (fun body hbody => hcreate ⟨body, hbody⟩) hreport hnone
      rw [hstill] at hjob
      cases hjob
  | some parent =>
      obtain ⟨executionID, workerID, attempt, result, rfl⟩ := exists_report_of hreport
      rcases report_cases hrun with ⟨-, hjobs⟩ | ⟨old, x, hold, hlive, hjobs, hnew⟩
      · rw [hjobs, hnone] at hjob
        cases hjob
      · rw [hjobs] at hjob
        obtain ⟨hchild, -⟩ := added_of_settle hold hnone hjob
        obtain ⟨houtcome, hrecurring, hscheduled, hschedule⟩ := child_spec hchild
        refine Or.inr ⟨parent, old, rfl, hold, hrecurring, ?_, ?_, hscheduled, hschedule⟩
        · intro hcompleted
          rw [hcompleted] at hlive
          cases hlive
        · rw [World.jobState, hjobs, get?_settle hold hnew, Option.map_some, record_state,
            houtcome]

theorem accepted_kept
    (hrun : (steady fun _ => True).Runs (task.body cron cfg) w ds outcome w')
    (haccepted : Accepted cron w.store.jobs) : Accepted cron w'.store.jobs := by
  intro id job hjob hrecurring
  cases hold : w.store.jobs.get? id with
  | some old =>
      obtain ⟨job', hjob', hschedule⟩ := schedule_kept hrun hold
      obtain rfl := Option.some.inj (hjob'.symm.trans hjob)
      rw [hschedule] at hrecurring ⊢
      exact haccepted id old hold hrecurring
  | none =>
      rcases origin hrun hold hjob with ⟨body, rfl⟩ | ⟨parent, old, -, hparent, -, -, -, -, hsame⟩
      · exact (requested_job hrun hold hjob).2 hrecurring
      · rw [hsame] at hrecurring ⊢
        exact haccepted parent old hparent hrecurring

variable {parent child' : String}

/-- An operation spawns a child of just the recurring jobs that it makes COMPLETED. -/
theorem spawns_iff_completes
    (hrun : (steady fun _ => True).Runs (task.body cron cfg) w ds outcome w')
    (haccepted : Accepted cron w.store.jobs) :
    (∃ child, SpawnsIn ⟨w, .task task ds, w'⟩ parent child) ↔
      Completes ⟨w, .task task ds, w'⟩ parent := by
  constructor
  · rintro ⟨child, hreport, hnone, born, hborn⟩
    rcases origin hrun hnone hborn with ⟨body, rfl⟩ |
      ⟨parent', old, hreport', hold, hrecurring, hstate, hcompleted, -⟩
    · cases hreport
    · obtain rfl := Option.some.inj (hreport'.symm.trans hreport)
      exact ⟨old, hold, hrecurring, hstate, hcompleted⟩
  · rintro ⟨old, hold, hrecurring, hstate, hcompleted⟩
    have hreport : reportsOn task = some parent := by
      by_contra hother
      exact incomplete_kept hrun hother hold hstate hcompleted
    obtain ⟨executionID, workerID, attempt, result, rfl⟩ := exists_report_of hreport
    simp only [World.jobState] at hcompleted
    rcases report_cases hrun with ⟨-, hjobs⟩ | ⟨job, x, hjob, hlive, hjobs, hnew⟩
    · rw [hjobs, hold] at hcompleted
      exact absurd (Option.some.inj hcompleted) hstate
    · obtain rfl := Option.some.inj (hjob.symm.trans hold)
      rw [hjobs, get?_settle hjob hnew] at hcompleted
      obtain ⟨born, hborn⟩ := child_of_completed (x := x) haccepted hjob hrecurring
        (Option.some.inj hcompleted)
      obtain ⟨hid, hfresh⟩ := child_fresh hnew born hborn
      refine ⟨born.id, hreport, ?_, born, ?_⟩
      · rw [hid]
        exact notMem_keys.mp hfresh.2.2.1
      · rw [hjobs, Report.settle, hborn]
        exact get?_put_self _ born

theorem spawnsIn_unique
    (hrun : (steady fun _ => True).Runs (task.body cron cfg) w ds outcome w')
    (hchild : SpawnsIn ⟨w, .task task ds, w'⟩ parent child)
    (hchild' : SpawnsIn ⟨w, .task task ds, w'⟩ parent child') : child = child' := by
  obtain ⟨hreport, hnone, born, hborn⟩ := hchild
  obtain ⟨-, hnone', born', hborn'⟩ := hchild'
  obtain ⟨executionID, workerID, attempt, result, rfl⟩ := exists_report_of hreport
  simp only at hnone hborn hnone' hborn'
  rcases report_cases hrun with ⟨-, hjobs⟩ | ⟨job, x, hjob, -, hjobs, -⟩
  · rw [hjobs, hnone] at hborn
    cases hborn
  · rw [hjobs] at hborn hborn'
    rw [(added_of_settle hjob hnone hborn).2, (added_of_settle hjob hnone' hborn').2]

end OneOperation

section Runs

variable {cron : Cron} {cfg : SchedulerConfig} {history : History}
  {entry : Entry World Operation} {parent parent' child child' : String}

theorem spawns_cons :
    Spawns (entry :: history) parent child ↔
      SpawnsIn entry parent child ∨ Spawns history parent child := by
  simp only [Spawns, List.exists_mem_cons_iff]

/-- What a history without keyed requests leads to. -/
structure Chained (cron : Cron) (history : History) (w : World) : Prop where
  accepted : Accepted cron w.store.jobs
  completed : ∀ {parent child}, Spawns history parent child →
    ∃ job, w.store.jobs.get? parent = some job ∧ job.state = .completed
  stored : ∀ {parent child}, Spawns history parent child →
    ∃ job, w.store.jobs.get? child = some job
  one_child : ∀ {parent child child'}, Spawns history parent child →
    Spawns history parent child' → child = child'
  one_parent : ∀ {parent parent' child}, Spawns history parent child →
    Spawns history parent' child → parent = parent'
  spawns_iff : ∀ entry ∈ history, ∀ parent,
    (∃ child, SpawnsIn entry parent child) ↔ Completes entry parent

theorem chained_start {w : World} (hempty : w.store.jobs = .empty) : Chained cron [] w where
  accepted := by
    intro id job hjob
    rw [hempty, get?_empty] at hjob
    cases hjob
  completed := by simp [Spawns]
  stored := by simp [Spawns]
  one_child := by simp [Spawns]
  one_parent := by simp [Spawns]
  spawns_iff := by simp

theorem chained_task {w w' : World} {task : Task} {ds : List Draw} {outcome : Outcome}
    (h : Chained cron history w) (hkeyless : Keyless task)
    (hrun : (steady fun _ => True).Runs (task.body cron cfg) w ds outcome w') :
    Chained cron (⟨w, .task task ds, w'⟩ :: history) w' := by
  refine ⟨accepted_kept hrun h.accepted, ?_, ?_, ?_, ?_, ?_⟩
  · intro parent child hspawns
    rcases spawns_cons.mp hspawns with hnow | hearlier
    · obtain ⟨-, -, -, -, hcompleted⟩ := (spawns_iff_completes hrun h.accepted).mp ⟨child, hnow⟩
      exact Option.map_eq_some_iff.mp hcompleted
    · obtain ⟨job, hjob, hcompleted⟩ := h.completed hearlier
      exact ⟨job, completed_kept hrun hkeyless hjob hcompleted, hcompleted⟩
  · intro parent child hspawns
    rcases spawns_cons.mp hspawns with hnow | hearlier
    · exact hnow.added
    · obtain ⟨job, hjob⟩ := h.stored hearlier
      obtain ⟨job', hjob', -⟩ := schedule_kept hrun hjob
      exact ⟨job', hjob'⟩
  · -- a job that has spawned a child is COMPLETED, and does not become COMPLETED again
    have hfinal : ∀ {parent child child'}, SpawnsIn ⟨w, .task task ds, w'⟩ parent child →
        ¬Spawns history parent child' := by
      intro parent child child' hnow hearlier
      obtain ⟨job, hjob, -, hstate, -⟩ := (spawns_iff_completes hrun h.accepted).mp ⟨child, hnow⟩
      obtain ⟨old, hold, hcompleted⟩ := h.completed hearlier
      obtain rfl := Option.some.inj (hold.symm.trans hjob)
      exact hstate hcompleted
    intro parent child child' hchild hchild'
    rcases spawns_cons.mp hchild with hnow | hearlier <;>
      rcases spawns_cons.mp hchild' with hnow' | hearlier'
    · exact spawnsIn_unique hrun hnow hnow'
    · exact absurd hearlier' (hfinal hnow)
    · exact absurd hearlier (hfinal hnow')
    · exact h.one_child hearlier hearlier'
  · have hnew : ∀ {parent parent' child}, SpawnsIn ⟨w, .task task ds, w'⟩ parent child →
        ¬Spawns history parent' child := by
      intro parent parent' child hnow hearlier
      obtain ⟨job, hjob⟩ := h.stored hearlier
      exact absurd (hjob.symm.trans hnow.absent) (Option.some_ne_none job)
    intro parent parent' child hparent hparent'
    rcases spawns_cons.mp hparent with hnow | hearlier <;>
      rcases spawns_cons.mp hparent' with hnow' | hearlier'
    · exact Option.some.inj (hnow.report.symm.trans hnow'.report)
    · exact absurd hearlier' (hnew hnow)
    · exact absurd hearlier (hnew hnow')
    · exact h.one_parent hearlier hearlier'
  · refine List.forall_mem_cons.mpr ⟨fun parent => ?_, h.spawns_iff⟩
    exact spawns_iff_completes hrun h.accepted

theorem chained_workers {w w' : World} (h : Chained cron history w)
    (hchange : WorkersChange w w') : Chained cron (⟨w, .workers, w'⟩ :: history) w' := by
  have hjobs := jobs_of_workers hchange
  have hearlier : ∀ {parent child}, Spawns (⟨w, .workers, w'⟩ :: history) parent child →
      Spawns history parent child := by
    intro parent child hspawns
    exact (spawns_cons.mp hspawns).resolve_left fun hnow => by cases hnow.report
  refine ⟨hjobs ▸ h.accepted, fun hspawns => ?_, fun hspawns => ?_,
    fun hchild hchild' => h.one_child (hearlier hchild) (hearlier hchild'),
    fun hparent hparent' => h.one_parent (hearlier hparent) (hearlier hparent'), ?_⟩
  · rw [hjobs]
    exact h.completed (hearlier hspawns)
  · rw [hjobs]
    exact h.stored (hearlier hspawns)
  · refine List.forall_mem_cons.mpr ⟨fun parent => iff_of_false ?_ ?_, h.spawns_iff⟩
    · rintro ⟨child, hreport, -⟩
      cases hreport
    · rintro ⟨job, hjob, -, hstate, hcompleted⟩
      rw [World.jobState, hjobs, hjob] at hcompleted
      exact hstate (Option.some.inj hcompleted)

theorem chained_step {w w' : World} {operation : Operation} (h : Chained cron history w)
    (hstep : Step cron cfg w operation w') (hkeyless : ∀ task ∈ operation.task?, Keyless task) :
    Chained cron (⟨w, operation, w'⟩ :: history) w' := by
  cases hstep with
  | task hserves =>
      obtain ⟨outcome, hrun⟩ := hserves
      exact chained_task h (hkeyless _ rfl) hrun
  | workers hchange => exact chained_workers h hchange

theorem not_live_of_spawns {w : World} (h : Chained cron history w)
    (hspawns : Spawns history parent child) : ¬Live w parent := by
  rintro ⟨job, hjob, hlive⟩
  obtain ⟨old, hold, hcompleted⟩ := h.completed hspawns
  obtain rfl := Option.some.inj (hold.symm.trans hjob)
  rw [hcompleted] at hlive
  cases hlive

theorem lineage_live_last {w : World} (h : Chained cron history w) {earlier later : String}
    (hlineage : Lineage history earlier later) (hlive : Live w earlier) : earlier = later := by
  rcases hlineage.cases_head with heq | ⟨child, hspawns, -⟩
  · exact heq
  · exact absurd hlive (not_live_of_spawns h hspawns)

/-- Every new job is one of a request or the child of one job, an occurrence spawns a child
just when it becomes COMPLETED and never another one, and a lineage has at most one live
occurrence. -/
structure NeverForks (history : History) (w : World) : Prop where
  accounted : ∀ entry ∈ history, ∀ id job, entry.before.store.jobs.get? id = none →
    entry.after.store.jobs.get? id = some job →
      (∃ body, entry.label.task? = some (.createJob body)) ∨ ∃ parent, SpawnsIn entry parent id
  spawns_iff : ∀ entry ∈ history, ∀ parent,
    (∃ child, SpawnsIn entry parent child) ↔ Completes entry parent
  one_child : ∀ {parent child child'}, Spawns history parent child →
    Spawns history parent child' → child = child'
  one_parent : ∀ {parent parent' child}, Spawns history parent child →
    Spawns history parent' child → parent = parent'
  one_live : ∀ {root id id'}, Lineage history root id → Lineage history root id' →
    Live w id → Live w id' → id = id'

/-- In every run of complete operations from an empty job table, whose requests have no
idempotency key, a recurring job never forks. -/
theorem recurring_jobs_never_fork {start w : World} (hempty : start.store.jobs = .empty)
    (hrun : Run (Step cron cfg) start history w)
    (hkeyless : ∀ entry ∈ history, ∀ task ∈ entry.label.task?, Keyless task) :
    NeverForks history w := by
  have h : Chained cron history w :=
    run_invariant (P := fun entry => ∀ task ∈ entry.label.task?, Keyless task)
      (I := Chained cron) (chained_start hempty) chained_step hrun hkeyless
  refine ⟨?_, h.spawns_iff, h.one_child, h.one_parent, ?_⟩
  · rintro ⟨before, operation, after⟩ hentry id job hnone hjob
    have hstep : Step cron cfg before operation after := step_of_mem hrun hentry
    cases hstep with
    | task hserves =>
        obtain ⟨outcome, hperform⟩ := hserves
        rcases origin hperform hnone hjob with ⟨body, rfl⟩ | ⟨parent, old, hreport, -⟩
        · exact Or.inl ⟨body, rfl⟩
        · exact Or.inr ⟨parent, hreport, hnone, job, hjob⟩
    | workers hchange =>
        rw [jobs_of_workers hchange] at hjob
        exact absurd (hjob.symm.trans hnone) (Option.some_ne_none job)
  · intro root id id' hid hid' hlive hlive'
    have hunique : Relator.RightUnique (Spawns history) := fun _ _ _ => h.one_child
    rcases ReflTransGen.total_of_right_unique hunique hid hid' with hlater | hlater
    · exact lineage_live_last h hlater hlive
    · exact (lineage_live_last h hlater hlive').symm

end Runs

section Scenarios

def minutely : CreateJobRequest :=
  { echoRequest with schedule := { type := .recurring, cronExpr := "* * * * *" } }

/-- What the operation leaves, if its draws are enough for it. -/
def after (operation : Operation) (w : World) : Option World :=
  match operation with
  | .task task ds => perform everyMinute smallConfig (steady fun _ => True) task ds w
  | .workers => some w

theorem step_of_get {operation : Operation} {w : World} (hafter : (after operation w).isSome) :
    Step everyMinute smallConfig w operation ((after operation w).get hafter) := by
  cases operation with
  | task task ds => exact ServiceSteps.completes_of_get everyMinute smallConfig hafter
  | workers => exact .workers (ServiceSteps.silent_change w w.registry w.store.workers)

def created : Operation := .task (.createJob (some minutely)) ((createDraws 1 "job").take 6)

def dispatched : Operation := .task (.handleQueuedJob echoMessage) (handleDraws 2 "first")

def report : Task := .handleResult "job" "first" "worker" 1 succeeded

def reported : Operation :=
  .task report (List.replicate 7 { now := 3 } ++ [{ now := 3, uuid := "next" }, { now := 3 }])

def reportedAgain : Operation := .task report (List.replicate 3 {})

theorem repeated_report_spawns_once :
    ∃ history w, Run (Step everyMinute smallConfig) idleWorker history w ∧
      Spawns history "job" "next" ∧ Live w "next" ∧ NeverForks history w := by
  let w₁ := (after created idleWorker).get (by decide +kernel)
  let w₂ := (after dispatched w₁).get (by decide +kernel)
  let w₃ := (after reported w₂).get (by decide +kernel)
  let w₄ := (after reportedAgain w₃).get (by decide +kernel)
  have hrun : Run (Step everyMinute smallConfig) idleWorker
      [⟨w₃, reportedAgain, w₄⟩, ⟨w₂, reported, w₃⟩, ⟨w₁, dispatched, w₂⟩,
        ⟨idleWorker, created, w₁⟩] w₄ :=
    .next (.next (.next (.next .start (step_of_get _)) (step_of_get _)) (step_of_get _))
      (step_of_get _)
  have hspawns : SpawnsIn ⟨w₂, reported, w₃⟩ "job" "next" :=
    ⟨rfl, by decide +kernel, Option.isSome_iff_exists.mp (by decide +kernel)⟩
  have hscheduled : w₄.jobState "next" = some .scheduled := by decide +kernel
  refine ⟨_, w₄, hrun, ⟨_, by simp, hspawns⟩, live_of_jobState hscheduled rfl, ?_⟩
  refine recurring_jobs_never_fork rfl hrun ?_
  simp only [List.forall_mem_cons]
  exact ⟨by rintro _ ⟨⟩; trivial, by rintro _ ⟨⟩; trivial, by rintro _ ⟨⟩; trivial,
    by rintro _ ⟨⟩; rfl, fun _ h => absurd h List.not_mem_nil⟩

end Scenarios

end Chronos.RecurringLineage
