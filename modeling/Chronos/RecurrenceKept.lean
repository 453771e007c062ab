import Chronos.RecurringLineage
import Chronos.Watchdog

namespace Chronos.RecurrenceKept

open Chronos.Domain
open Chronos.InformedRuns
open Chronos.JobWrites (Writes)
open Chronos.Library.CallProgram
open Chronos.Library.CallMachine
open Chronos.Library.Histories
open Chronos.Library.KeyedTable
open Chronos.LifecycleGraph
open Chronos.MemoryStore
open Chronos.Operations
open Chronos.RecurringLineage
open Chronos.RecurringTimes (everyMinute)
open Chronos.ResultRecords
open Chronos.SchedulerService
open Chronos.SharedState
open Chronos.Watchdog (TimedOut TimesOut snapshot_timedOut watchdogTimeouts_pass)
open Chronos.WorkerLoss (Marks active active_cases recoveredState checkWorkers_recovers)
open Relation

/-- The report does not end the job for good: it cancels it, it succeeds, or it can be
retried. -/
def Retried (job : Job) (attempt : Int) (result : ExecutionResult) : Prop :=
  result.reason = .cancelled ∨ job.state = .cancelRequested ∨ result.success ∨
    (result.reason = .timeout ∨ result.retryable) ∧ attempt < job.maxAttempts

/-- No recurring job is out of attempts where the operation would fail it: the job of a
report, the jobs whose time is up for the watchdog, the jobs of the workers that a pass
marks. -/
def Unexhausted (cfg : SchedulerConfig) (w : World) : Operation → Prop
  | .task (.handleResult jobID _ _ attempt result) _ =>
      ∀ job, w.store.jobs.get? jobID = some job → job.schedule.type = .recurring →
        job.state.terminal = false → Retried job attempt (withReason result)
  | .task .watchdogTimeouts ds =>
      ∀ d ∈ ds.head?, ∀ id job, w.store.jobs.get? id = some job →
        job.schedule.type = .recurring → timedOutRunning d.now job →
          job.attempt < job.maxAttempts
  | .task .checkWorkers ds =>
      ∀ d ∈ ds.head?, ∀ id job, w.store.jobs.get? id = some job →
        job.schedule.type = .recurring → job.state = .running ∨ job.state = .assigned →
          Marks cfg w d.now job.workerID → job.attempt < job.maxAttempts
  | _ => True

/-- What an operation leaves of a live occurrence: it is live, or cancelled, or has a
child. -/
def Continued (entry : Entry World Operation) (id : String) : Prop :=
  Live entry.after id ∨ entry.after.jobState id = some .cancelled ∨
    ∃ child, SpawnsIn entry id child

section OneOperation

variable {cron : Cron} {cfg : SchedulerConfig} {task : Task} {ds : List Draw}
  {outcome : Outcome} {w w' : World} {id : String} {job : Job}

theorem outcome_of_retried (report : Report)
    (hretried : Retried job report.attempt (withReason report.result)) :
    report.outcome job = .cancelled ∨ report.outcome job = .completed ∨
      report.outcome job = .retrying := by
  unfold Report.outcome
  dsimp only
  split
  · exact Or.inl rfl
  · rename_i hcancel
    rw [not_or] at hcancel
    split
    · exact Or.inr (Or.inl rfl)
    · rename_i hsuccess
      have hagain : (_ ∨ _) ∧ report.attempt < job.maxAttempts :=
        ((hretried.resolve_left hcancel.1).resolve_left hcancel.2).resolve_left hsuccess
      split
      · exact Or.inr (Or.inr (if_pos hagain.2))
      · rename_i htimeout
        exact Or.inr (Or.inr (if_pos ⟨hagain.1.resolve_left htimeout, hagain.2⟩))

theorem report_continues {jobID executionID workerID : String} {attempt : Int}
    {result : ExecutionResult} (haccepted : Accepted cron w.store.jobs)
    (hjob : w.store.jobs.get? id = some job) (hlive : job.state.terminal = false)
    (hrecurring : job.schedule.type = .recurring)
    (hrun : (steady fun _ => True).Runs
      ((Task.handleResult jobID executionID workerID attempt result).body cron cfg) w ds
      outcome w')
    (hcondition : Unexhausted cfg w
      (.task (.handleResult jobID executionID workerID attempt result) ds)) :
    Continued ⟨w, .task (.handleResult jobID executionID workerID attempt result) ds, w'⟩
      id := by
  rcases report_cases hrun with ⟨-, hjobs⟩ | ⟨found, x, hfound, -, hjobs, hnew⟩
  · exact Or.inl ⟨job, by rw [hjobs, hjob], hlive⟩
  by_cases hid : id = jobID
  · subst hid
    obtain rfl := Option.some.inj (hfound.symm.trans hjob)
    have hstate := get?_settle hfound hnew
    rw [← hjobs] at hstate
    rcases outcome_of_retried ⟨workerID, attempt, result⟩
      (hcondition found hfound hrecurring hlive) with
      hcancelled | hcompleted | hretrying
    · refine Or.inr (Or.inl ?_)
      rw [World.jobState, hstate, Option.map_some, record_state, hcancelled]
    · refine Or.inr (Or.inr ((spawns_iff_completes hrun haccepted).mpr ⟨found, hfound, hrecurring,
        ?_, ?_⟩))
      · intro hdone
        rw [hdone] at hlive
        cases hlive
      · rw [World.jobState, hstate, Option.map_some, record_state, hcompleted]
    · refine Or.inl ⟨_, hstate, ?_⟩
      rw [record_state, hretrying]
      rfl
  · refine Or.inl ⟨job, ?_, hlive⟩
    rw [hjobs, Report.settle, get?_addJob fun child hchild => ?_, get?_put_of_ne, hjob]
    · rwa [record_id, key_of_get? hfound]
    · obtain ⟨hchildID, hfresh⟩ := child_fresh hnew child hchild
      rw [hchildID]
      exact fresh_ne hfresh hjob

theorem live_of_timesOut {jobs : List Job} (h : TimesOut jobs w w')
    (hattempts : ∀ job ∈ jobs, job.id = id → job.attempt < job.maxAttempts)
    (hlive : Live w id) : Live w' id := by
  by_cases hid : id ∈ jobs.map Job.id
  · obtain ⟨job, hjob, rfl⟩ := List.mem_map.mp hid
    have htimedOut := h.timedOut job hjob
    rw [TimedOut, if_pos (hattempts job hjob rfl)] at htimedOut
    obtain ⟨_, _, hrecord⟩ := htimedOut
    exact ⟨_, hrecord, rfl⟩
  · obtain ⟨job, hjob, hlive⟩ := hlive
    exact ⟨job, by rw [h.others id hid, hjob], hlive⟩

theorem watchdog_continues (hjob : w.store.jobs.get? id = some job)
    (hlive : job.state.terminal = false) (hrecurring : job.schedule.type = .recurring)
    (hrun : (steady fun _ => True).Runs (Task.watchdogTimeouts.body cron cfg) w ds outcome w')
    (hcondition : Unexhausted cfg w (.task .watchdogTimeouts ds)) : Live w' id := by
  obtain ⟨first, rest, value, w₁, rfl, hrun, hret⟩ := runs_bind_iff.mp hrun
  obtain ⟨-, -, rfl⟩ := runs_ret_iff.mp hret
  obtain ⟨d, d', ds, rfl, horder, htimesOut⟩ := watchdogTimeouts_pass hrun
  refine live_of_timesOut htimesOut ?_ ⟨job, hjob, hlive⟩
  rintro listed hmem rfl
  obtain rfl := Option.some.inj
    (((snapshot_timedOut horder d.now cfg.assignBatchSize).stored listed hmem).symm.trans hjob)
  have htimedOut := List.mem_filter.mp ((collect_sublist _ _ _ _).subset hmem)
  exact hcondition d rfl listed.id listed hjob hrecurring htimedOut.2

theorem checkWorkers_continues (hjob : w.store.jobs.get? id = some job)
    (hlive : job.state.terminal = false) (hrecurring : job.schedule.type = .recurring)
    (hrun : (steady fun _ => True).Runs (Task.checkWorkers.body cron cfg) w ds outcome w')
    (hcondition : Unexhausted cfg w (.task .checkWorkers ds)) :
    Live w' id ∨ w'.jobState id = some .cancelled := by
  obtain ⟨first, rest, value, w₁, rfl, hrun, hret⟩ := runs_bind_iff.mp hrun
  obtain ⟨-, -, rfl⟩ := runs_ret_iff.mp hret
  obtain ⟨d, ds, rfl, -⟩ := runs_perform_iff.mp hrun
  rcases checkWorkers_recovers hrun hjob with hsame | ⟨hmarks, hactive, hrecovered⟩
  · exact Or.inl ⟨job, hsame, hlive⟩
  have hstate := hrecovered.state
  rw [key_of_get? hjob, recoveredState] at hstate
  split at hstate
  · exact Or.inr hstate
  · rename_i hrequested
    have hruns : job.state = .running ∨ job.state = .assigned :=
      (active_cases hactive).imp_right fun h => h.resolve_right hrequested
    rw [if_pos (hcondition d rfl id job hjob hrecurring hruns hmarks)] at hstate
    exact Or.inl (live_of_jobState hstate rfl)

/-- The other operations end a job only by cancelling it. -/
theorem writes_live_or_cancelled {state : JobState} {fields : Fields} {onlyFrom : List JobState}
    (hwrites : Writes task id job state fields onlyFrom) (hreport : reportsOn task = none)
    (hwatchdog : task ≠ .watchdogTimeouts) (hcheck : task ≠ .checkWorkers) :
    state.terminal = false ∨ state = .cancelled := by
  cases task with
  | createJob body => exact Or.inl (hwrites.1 ▸ rfl)
  | cancelJob target =>
      obtain ⟨-, -, -, -, hstate⟩ := hwrites
      split at hstate
      · exact Or.inl (hstate ▸ rfl)
      · exact Or.inr hstate
  | promoteDueJobs => exact Or.inl (hwrites.1 ▸ rfl)
  | handleQueuedJob message =>
      rcases hwrites.2.2 with ⟨hstate, -⟩ | ⟨hstate, -⟩
      · exact Or.inl (hstate ▸ rfl)
      · exact Or.inl (hstate ▸ rfl)
  | handleResult jobID executionID workerID attempt result => cases hreport
  | pushPendingCancels => exact Or.inr hwrites.2.1
  | watchdogTimeouts => exact absurd rfl hwatchdog
  | checkWorkers => exact absurd rfl hcheck

theorem live_or_cancelled_kept
    (hrun : (steady fun _ => True).Runs (task.body cron cfg) w ds outcome w')
    (hreport : reportsOn task = none) (hwatchdog : task ≠ .watchdogTimeouts)
    (hcheck : task ≠ .checkWorkers) (hlive : Live w id) :
    Live w' id ∨ w'.jobState id = some .cancelled := by
  have hkept : ∃ job', w'.store.jobs.get? id = some job' ∧
      (job'.state.terminal = false ∨ job'.state = .cancelled) := by
    obtain ⟨job, hjob, hlive⟩ := hlive
    refine steady_informed (I := fun w' => ∃ job', w'.store.jobs.get? id = some job' ∧
      (job'.state.terminal = false ∨ job'.state = .cancelled)) cron cfg ?_
      ⟨job, hjob, Or.inl hlive⟩ _ _ _ hrun
    rintro w₁ c d hinformed hsound ⟨job₁, hjob₁, hstate₁⟩
    rcases informed_stored hinformed hsound hjob₁ with
      hsame | ⟨state, fields, onlyFrom, hwrites, hput⟩
    · exact ⟨job₁, hsame, hstate₁⟩
    · exact ⟨_, hput, writes_live_or_cancelled hwrites hreport hwatchdog hcheck⟩
  obtain ⟨job', hjob', hlive' | hcancelled⟩ := hkept
  · exact Or.inl ⟨job', hjob', hlive'⟩
  · refine Or.inr ?_
    rw [World.jobState, hjob', Option.map_some, hcancelled]

theorem operation_continues (haccepted : Accepted cron w.store.jobs)
    (hjob : w.store.jobs.get? id = some job) (hlive : job.state.terminal = false)
    (hrecurring : job.schedule.type = .recurring)
    (hrun : (steady fun _ => True).Runs (task.body cron cfg) w ds outcome w')
    (hcondition : Unexhausted cfg w (.task task ds)) :
    Continued ⟨w, .task task ds, w'⟩ id := by
  cases hreport : reportsOn task with
  | some jobID =>
      obtain ⟨executionID, workerID, attempt, result, rfl⟩ := exists_report_of hreport
      exact report_continues haccepted hjob hlive hrecurring hrun hcondition
  | none =>
      by_cases hwatchdog : task = .watchdogTimeouts
      · subst hwatchdog
        exact Or.inl (watchdog_continues hjob hlive hrecurring hrun hcondition)
      by_cases hcheck : task = .checkWorkers
      · subst hcheck
        exact (checkWorkers_continues hjob hlive hrecurring hrun hcondition).imp_right Or.inl
      · exact (live_or_cancelled_kept hrun hreport hwatchdog hcheck
          ⟨job, hjob, hlive⟩).imp_right Or.inl

end OneOperation

/-- The root is a recurring job that a request of the history has created. -/
def Requested (history : History) (root : String) : Prop :=
  ∃ entry ∈ history, (∃ body, entry.label.task? = some (.createJob body)) ∧
    entry.before.store.jobs.get? root = none ∧
    ∃ job, entry.after.store.jobs.get? root = some job ∧ job.schedule.type = .recurring

/-- No operation of the history has left an occurrence of the lineage CANCELLED. -/
def NeverCancelled (history : History) (root : String) : Prop :=
  ∀ entry ∈ history, ∀ id, Lineage history root id → entry.after.jobState id ≠ some .cancelled

/-- An occurrence of the lineage is live, and recurs. -/
def Recurs (history : History) (w : World) (root : String) : Prop :=
  ∃ id job, Lineage history root id ∧ w.store.jobs.get? id = some job ∧
    job.state.terminal = false ∧ job.schedule.type = .recurring

section Runs

variable {cron : Cron} {cfg : SchedulerConfig} {history : History} {w w' : World}
  {entry : Entry World Operation} {operation : Operation} {root id : String}

theorem lineage_cons (hlineage : Lineage history root id) :
    Lineage (entry :: history) root id := by
  have hspawns : Spawns history ≤ Spawns (entry :: history) :=
    fun _ _ hearlier => spawns_cons.mpr (Or.inr hearlier)
  exact ReflTransGen.mono hspawns _ _ hlineage

theorem neverCancelled_of_cons (hnever : NeverCancelled (entry :: history) root) :
    NeverCancelled history root := by
  intro earlier hearlier id hlineage
  exact hnever earlier (List.mem_cons_of_mem _ hearlier) id (lineage_cons hlineage)

/-- The job of a request starts a lineage. -/
theorem recurs_of_created {body : Option CreateJobRequest} {job : Job}
    (hstep : Step cron cfg w operation w') (hcreate : operation.task? = some (.createJob body))
    (hnone : w.store.jobs.get? root = none) (hjob : w'.store.jobs.get? root = some job)
    (hrecurring : job.schedule.type = .recurring) : Recurs history w' root := by
  cases hstep with
  | task hserves =>
      obtain ⟨outcome, hrun⟩ := hserves
      obtain rfl := Option.some.inj hcreate
      exact ⟨root, job, .refl, hjob, (requested_job hrun hnone hjob).1, hrecurring⟩
  | workers => cases hcreate

/-- A child of a lineage continues it. -/
theorem recurs_of_spawned {child : String} (hstep : Step cron cfg w operation w')
    (hlineage : Lineage history root id) (hspawns : SpawnsIn ⟨w, operation, w'⟩ id child) :
    Recurs (⟨w, operation, w'⟩ :: history) w' root := by
  cases hstep with
  | workers => cases hspawns.report
  | task hserves =>
      obtain ⟨outcome, hrun⟩ := hserves
      obtain ⟨born, hborn⟩ := hspawns.added
      rcases origin hrun hspawns.absent hborn with ⟨body, rfl⟩ |
        ⟨parent, old, -, -, hrecurring, -, -, hscheduled, hschedule⟩
      · cases hspawns.report
      · refine ⟨child, born, ?_, hborn, ?_, ?_⟩
        · exact (lineage_cons hlineage).tail (spawns_cons.mpr (Or.inl hspawns))
        · rw [hscheduled]
          rfl
        · rw [hschedule, hrecurring]

theorem recurs_step (haccepted : Accepted cron w.store.jobs) (hrecurs : Recurs history w root)
    (hstep : Step cron cfg w operation w') (hcondition : Unexhausted cfg w operation)
    (hnever : NeverCancelled (⟨w, operation, w'⟩ :: history) root) :
    Recurs (⟨w, operation, w'⟩ :: history) w' root := by
  obtain ⟨id, job, hlineage, hjob, hlive, hrecurring⟩ := hrecurs
  cases hstep with
  | workers hchange =>
      rw [← jobs_of_workers hchange] at hjob
      exact ⟨id, job, lineage_cons hlineage, hjob, hlive, hrecurring⟩
  | task hserves =>
      obtain ⟨outcome, hrun⟩ := hserves
      rcases operation_continues haccepted hjob hlive hrecurring hrun hcondition with
        ⟨job', hjob', hlive'⟩ | hcancelled | ⟨child, hspawns⟩
      · obtain ⟨kept, hkept, hschedule⟩ := schedule_kept hrun hjob
        obtain rfl := Option.some.inj (hkept.symm.trans hjob')
        exact ⟨id, kept, lineage_cons hlineage, hkept, hlive', by rw [hschedule, hrecurring]⟩
      · exact absurd hcancelled (hnever _ List.mem_cons_self id (lineage_cons hlineage))
      · exact recurs_of_spawned (.task ⟨outcome, hrun⟩) hlineage hspawns

/-- What the history leads to. -/
structure Kept (cron : Cron) (history : History) (w : World) : Prop where
  accepted : Accepted cron w.store.jobs
  recurs : ∀ {root}, Requested history root → NeverCancelled history root → Recurs history w root

theorem kept_step (h : Kept cron history w) (hstep : Step cron cfg w operation w')
    (hcondition : Unexhausted cfg w operation) :
    Kept cron (⟨w, operation, w'⟩ :: history) w' := by
  refine ⟨?_, fun hrequested hnever => ?_⟩
  · cases hstep with
    | task hserves =>
        obtain ⟨outcome, hrun⟩ := hserves
        exact accepted_kept hrun h.accepted
    | workers hchange => exact jobs_of_workers hchange ▸ h.accepted
  · obtain ⟨entry, hentry, ⟨body, hcreate⟩, hnone, job, hjob, hrecurring⟩ := hrequested
    rcases List.mem_cons.mp hentry with rfl | hearlier
    · exact recurs_of_created hstep hcreate hnone hjob hrecurring
    · have hrequested : Requested history _ :=
        ⟨entry, hearlier, ⟨body, hcreate⟩, hnone, job, hjob, hrecurring⟩
      exact recurs_step h.accepted (h.recurs hrequested (neverCancelled_of_cons hnever)) hstep
        hcondition hnever

/-- In every run of complete operations from an empty job table that never fail a recurring
job for good, a lineage that is never cancelled has a live occurrence. -/
theorem recurring_jobs_keep_recurring {start : World} (hempty : start.store.jobs = .empty)
    (hrun : Run (Step cron cfg) start history w)
    (hcondition : ∀ entry ∈ history, Unexhausted cfg entry.before entry.label)
    (hrequested : Requested history root) (hnever : NeverCancelled history root) :
    ∃ id, Lineage history root id ∧ Live w id := by
  have hstart : Kept cron [] start := by
    refine ⟨(chained_start hempty).accepted, ?_⟩
    rintro root ⟨entry, hentry, -⟩
    exact absurd hentry List.not_mem_nil
  have h : Kept cron history w :=
    run_invariant (P := fun entry => Unexhausted cfg entry.before entry.label) (I := Kept cron)
      hstart kept_step hrun hcondition
  obtain ⟨id, job, hlineage, hjob, hlive, -⟩ := h.recurs hrequested hnever
  exact ⟨id, hlineage, job, hjob, hlive⟩

end Runs

section Scenarios

theorem jobState_of_keys {w : World} {P : JobState → Prop}
    (hkeys : ∀ id ∈ w.store.jobs.keys, ∀ state ∈ w.jobState id, P state) {id : String}
    {state : JobState} (hstate : w.jobState id = some state) : P state := by
  obtain ⟨job, hjob, -⟩ := Option.map_eq_some_iff.mp hstate
  exact hkeys id (mem_keys.mpr ⟨job, hjob⟩) state hstate

theorem neverCancelled_of_keys {history : History} {root : String}
    (hkeys : ∀ entry ∈ history, ∀ id ∈ entry.after.store.jobs.keys,
      ∀ state ∈ entry.after.jobState id, state ≠ .cancelled) : NeverCancelled history root := by
  intro entry hentry id _ hcancelled
  exact jobState_of_keys (hkeys entry hentry) hcancelled rfl

theorem requested_of_all {history : History} {root : String} (entry : Entry World Operation)
    (hentry : entry ∈ history) (hcreate : ∃ body, entry.label.task? = some (.createJob body))
    (hnone : entry.before.store.jobs.get? root = none)
    (hadded : (entry.after.store.jobs.get? root).isSome)
    (hrecurring : ∀ job ∈ entry.after.store.jobs.get? root, job.schedule.type = .recurring) :
    Requested history root := by
  obtain ⟨job, hjob⟩ := Option.isSome_iff_exists.mp hadded
  exact ⟨entry, hentry, hcreate, hnone, job, hjob, hrecurring job hjob⟩

def promoted : Operation := .task .promoteDueJobs (sweepDraws 6 (60 * second))

def dueMessage : QueuedJob := queuedJob (echoJob .queued) (60 * second)

def handled : Operation :=
  .task (.handleQueuedJob dueMessage) (handleDraws (60 * second) "first")

def createdWorld : World :=
  (after created idleWorker).get (by decide +kernel)

def promotedWorld : World :=
  (after promoted createdWorld).get (by decide +kernel)

def runningWorld : World :=
  (after handled promotedWorld).get (by decide +kernel)

/-- A job that is to run every minute runs for the first time. -/
def firstRun : History :=
  [⟨promotedWorld, handled, runningWorld⟩, ⟨createdWorld, promoted, promotedWorld⟩,
    ⟨idleWorker, created, createdWorld⟩]

theorem run_firstRun : Run (Step everyMinute smallConfig) idleWorker firstRun runningWorld :=
  .next (.next (.next .start (step_of_get _)) (step_of_get _)) (step_of_get _)

theorem requested_firstRun (entry : Entry World Operation) :
    Requested (entry :: firstRun) "job" :=
  requested_of_all ⟨idleWorker, created, createdWorld⟩ (by simp [firstRun]) ⟨_, rfl⟩ rfl
    (by decide +kernel) (by decide +kernel)

/-- The worker reports an error that is not to be retried. -/
def broken : Operation :=
  .task (.handleResult "job" "first" "worker" 1 { success := false, error := "boom" })
    (sweepDraws 7 (61 * second))

/-- One failed execution ends a job that was to run every minute. -/
theorem failed_job_stops_recurring :
    ∃ history w, Run (Step everyMinute smallConfig) idleWorker history w ∧
      Requested history "job" ∧ NeverCancelled history "job" ∧ ∀ id, ¬Live w id := by
  let w := (after broken runningWorld).get (by decide +kernel)
  have hrun : Run (Step everyMinute smallConfig) idleWorker
      (⟨runningWorld, broken, w⟩ :: firstRun) w := .next run_firstRun (step_of_get _)
  refine ⟨_, w, hrun, requested_firstRun _, neverCancelled_of_keys (by decide +kernel), ?_⟩
  rintro id ⟨job, hjob, hlive⟩
  have hterminal : ∀ id ∈ w.store.jobs.keys, ∀ state ∈ w.jobState id, state.terminal := by
    decide +kernel
  have hstate : w.jobState id = some job.state := congrArg (Option.map Job.state) hjob
  rw [jobState_of_keys hterminal hstate] at hlive
  cases hlive

/-- The worker reports success, and the job is to run again. -/
def done : Operation :=
  .task report (List.replicate 7 { now := 61 * second } ++
    [{ now := 61 * second, uuid := "next" }, { now := 61 * second }])

theorem completed_job_keeps_recurring :
    ∃ history w, Run (Step everyMinute smallConfig) idleWorker history w ∧
      w.jobState "job" = some .completed ∧ ∃ id, Lineage history "job" id ∧ Live w id := by
  let w := (after done runningWorld).get (by decide +kernel)
  have hrun : Run (Step everyMinute smallConfig) idleWorker
      (⟨runningWorld, done, w⟩ :: firstRun) w := .next run_firstRun (step_of_get _)
  refine ⟨_, w, hrun, by decide +kernel, recurring_jobs_keep_recurring rfl hrun ?_
    (requested_firstRun _) (neverCancelled_of_keys (by decide +kernel))⟩
  simp only [firstRun, List.forall_mem_cons]
  refine ⟨?_, trivial, trivial, trivial, fun _ h => absurd h List.not_mem_nil⟩
  exact fun _ _ _ _ => Or.inr (Or.inr (Or.inl rfl))

end Scenarios

end Chronos.RecurrenceKept
