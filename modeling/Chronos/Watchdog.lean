import Chronos.ResultRecords
import Chronos.WorkerLoss

namespace Chronos.Watchdog

open Chronos.Domain
open Chronos.Library.CallMachine
open Chronos.Library.CallProgram
open Chronos.Library.KeyedTable
open Chronos.LifecycleGraph (Snapshot snapshot_collect stopExecution_quiet)
open Chronos.MemoryStore
open Chronos.Operations (echoJob oneWorker smallConfig sweepDraws utcOnly)
open Chronos.ResultRecords
open Chronos.SchedulerRuns (ensures_quiet handleResult_ensures)
open Chronos.SchedulerService
open Chronos.SharedState
open Chronos.WorkerLoss (Finishes closeExecution_finishes snapshot_tail)

/-- The update that the watchdog makes to a job whose time is up. -/
def TimedOut (jobs : JobTable) (job : Job) : Prop :=
  if job.attempt < job.maxAttempts then
    ∃ nextRetryAt now, jobs.get? job.id = some (applyUpdate job .retrying
      { nextRetryAt := some nextRetryAt, lastError := some "timeout", workerID := some "",
        executionID := some "" } now)
  else
    ∃ completedAt now, jobs.get? job.id = some (applyUpdate job .timeout
      { completedAt := some completedAt, lastError := some "timeout" } now)

/-- From `w` to `w'` the jobs have timed out, and their executions are finished as such. -/
structure TimesOut (jobs : List Job) (w w' : World) : Prop where
  timedOut : ∀ job ∈ jobs, TimedOut w'.store.jobs job
  finished : ∀ job ∈ jobs, job.executionID ≠ "" → ∀ ex,
    w.store.executions.get? job.executionID = some ex →
      ∃ ex', w'.store.executions.get? job.executionID = some ex' ∧ ex'.state = .timeout ∧
        ex'.finishedAt.isSome
  others : ∀ id, id ∉ jobs.map Job.id → w'.store.jobs.get? id = w.store.jobs.get? id
  untouched : ∀ id, (∀ job ∈ jobs, id = job.executionID → id = "") →
    w'.store.executions.get? id = w.store.executions.get? id

section Round

variable {cron : Cron} {clock : Time → Prop} {job : Job} {w : World}

theorem timedOutRunning_states {now : Time} (htimedOut : timedOutRunning now job) :
    job.state = .running ∨ job.state = .assigned := by
  simp only [timedOutRunning, Bool.and_eq_true, Bool.or_eq_true, beq_iff_eq] at htimedOut
  exact htimedOut.1

/-- The report of the watchdog on a job that runs is a timeout, so that no occurrence follows. -/
theorem outcome_of_watchdog (hstate : job.state = .running ∨ job.state = .assigned) :
    (Report.mk job.workerID job.attempt (watchdogResult job)).outcome job =
      if job.attempt < job.maxAttempts then .retrying else .timeout := by
  rcases hstate with hstate | hstate <;> simp [Report.outcome, withReason, watchdogResult, hstate]

theorem lastError_of_watchdog (hstate : job.state = .running ∨ job.state = .assigned) :
    (Report.mk job.workerID job.attempt (watchdogResult job)).lastError job = "timeout" := by
  rcases hstate with hstate | hstate <;> simp [Report.lastError, withReason, watchdogResult, hstate]

theorem live_of_running (hstate : job.state = .running ∨ job.state = .assigned) :
    job.state.terminal = false := by
  rcases hstate with hstate | hstate <;> rw [hstate] <;> rfl

theorem watchdogTimeout_records (hjob : w.store.jobs.get? job.id = some job)
    (hstate : job.state = .running ∨ job.state = .assigned) :
    (steady clock).Ensures (watchdogTimeout cron job) w fun _ w' =>
      ∃ x, w'.store.jobs = w.store.jobs.put
        ((Report.mk job.workerID job.attempt (watchdogResult job)).record job x) := by
  let report : Report := ⟨job.workerID, job.attempt, watchdogResult job⟩
  have hunspawned : ∀ now, report.successor cron job now = none := by
    refine successor_of_outcome ?_
    rw [outcome_of_watchdog hstate]
    split <;> exact JobState.noConfusion
  refine ensures_bind (ensures_mono (ensures_quiet (stopExecution_quiet job) w) ?_)
  rintro _ w₁ ⟨hsame, -⟩
  refine ensures_bind fun ds value w₂ hrun => ensures_ret ?_
  rw [← hsame] at hjob
  have hreport : (steady clock).Runs (report.handleResult cron job.id job.executionID) w₁ ds
      value w₂ := hrun
  obtain ⟨x, hjobs, -⟩ := settled_of_runs hjob (live_of_running hstate) hreport
  refine ⟨x, ?_⟩
  rw [hjobs, Report.settle, Report.child, hunspawned, hsame]
  rfl

theorem timedOut_record (hstate : job.state = .running ∨ job.state = .assigned) (jobs : JobTable)
    (x : Readings) : TimedOut (jobs.put
      ((Report.mk job.workerID job.attempt (watchdogResult job)).record job x)) job := by
  have hput := get?_put_self jobs
    ((Report.mk job.workerID job.attempt (watchdogResult job)).record job x)
  rw [record_id] at hput
  unfold TimedOut
  rw [hput, Report.record, Report.fields, outcome_of_watchdog hstate, lastError_of_watchdog hstate]
  split
  · exact ⟨_, _, rfl⟩
  · exact ⟨_, _, rfl⟩

theorem scheduleRetry_keeps (jobID executionID workerID : String) (attempt : Int) (now : Time)
    (lastError : String) :
    (scheduleRetry job jobID executionID workerID attempt now lastError).CallsOnly
      fun c => c.writesExecutions = false := by
  unfold scheduleRetry backoffDelay
  split
  · refine (callsOnly_perform ..).mpr ⟨rfl, fun _ => (callsOnly_perform ..).mpr ⟨rfl, fun _ => ?_⟩⟩
    exact (callsOnly_perform ..).mpr ⟨rfl, fun _ => trivial⟩
  · refine (callsOnly_perform ..).mpr ⟨rfl, fun _ => ?_⟩
    exact (callsOnly_perform ..).mpr ⟨rfl, fun _ => trivial⟩

theorem ensures_keeps {α : Type} {p : Prog α} (hp : p.CallsOnly fun c => c.writesExecutions = false)
    (w : World) :
    (steady clock).Ensures p w fun _ w' => w'.store.executions = w.store.executions := by
  refine ensures_of_calls ?_ hp rfl
  intro c w₁ d hc _ hw₁
  exact (executions_step hc w₁ d).trans hw₁

theorem maybeRescheduleRecurring_keeps (cron : Cron) (job : Job) (start : Time) :
    (maybeRescheduleRecurring cron job start).CallsOnly fun c => c.writesExecutions = false := by
  unfold maybeRescheduleRecurring
  split
  · trivial
  split
  · trivial
  · refine (callsOnly_perform ..).mpr ⟨rfl, fun created => ?_⟩
    cases created with
    | error e => trivial
    | ok child => exact (callsOnly_perform ..).mpr ⟨rfl, fun _ => trivial⟩

theorem closeExecution_bind_finishes {report : Report} {executionID : String}
    {state : ExecutionState} {result : ExecutionResult} {f : Unit → Prog Unit}
    (hstate : report.executionState job = state)
    (hf : (f ()).CallsOnly fun c => c.writesExecutions = false) :
    (steady clock).Ensures (closeExecution executionID state result >>= f) w fun _ w' =>
      Finishes (report.executionState job) executionID w.store.executions w'.store.executions := by
  refine ensures_bind (ensures_mono (closeExecution_finishes executionID state _ w) ?_)
  rintro _ w₁ ⟨-, hfinishes⟩
  rw [hstate]
  exact ensures_mono (ensures_keeps hf w₁) fun _ w' hsame => hsame ▸ hfinishes

theorem settleResult_finishes (report : Report) (jobID executionID : String) (now : Time) :
    (steady clock).Ensures (settleResult cron job jobID executionID report.workerID report.attempt
      (withReason report.result) now) w fun _ w' =>
      Finishes (report.executionState job) executionID w.store.executions w'.store.executions := by
  unfold settleResult
  split
  · rename_i hcancel
    refine closeExecution_bind_finishes (if_pos hcancel) ?_
    refine (callsOnly_perform ..).mpr ⟨rfl, fun _ => ?_⟩
    exact (callsOnly_perform ..).mpr ⟨rfl, fun _ => trivial⟩
  split
  · rename_i hcancel hsuccess
    refine closeExecution_bind_finishes ((if_neg hcancel).trans (if_pos hsuccess)) ?_
    refine (callsOnly_perform ..).mpr ⟨rfl, fun _ => (callsOnly_perform ..).mpr ⟨rfl, fun _ => ?_⟩⟩
    exact maybeRescheduleRecurring_keeps cron job now
  split
  · rename_i hcancel hsuccess htimeout
    refine closeExecution_bind_finishes
      ((if_neg hcancel).trans ((if_neg hsuccess).trans (if_pos htimeout))) ?_
    refine (callsOnly_perform ..).mpr ⟨rfl, fun _ => ?_⟩
    split
    · exact scheduleRetry_keeps _ _ _ _ _ _
    · exact (callsOnly_perform ..).mpr ⟨rfl, fun _ => trivial⟩
  · rename_i hcancel hsuccess htimeout
    refine closeExecution_bind_finishes
      ((if_neg hcancel).trans ((if_neg hsuccess).trans (if_neg htimeout))) ?_
    refine (callsOnly_perform ..).mpr ⟨rfl, fun _ => ?_⟩
    split
    · exact scheduleRetry_keeps _ _ _ _ _ _
    · exact (callsOnly_perform ..).mpr ⟨rfl, fun _ => trivial⟩

theorem handleResult_finishes (report : Report) {jobID : String} (executionID : String)
    (hjob : w.store.jobs.get? jobID = some job) (hlive : job.state.terminal = false) :
    (steady clock).Ensures (report.handleResult cron jobID executionID) w fun _ w' =>
      Finishes (report.executionState job) executionID w.store.executions w'.store.executions := by
  refine handleResult_ensures cron ?_ ?_ ?_
  · intro hmissing
    rw [hjob] at hmissing
    cases hmissing
  · intro found hfound hterminal
    obtain rfl := Option.some.inj (hjob.symm.trans hfound)
    rw [hlive] at hterminal
    cases hterminal
  · intro found hfound _ registry now
    obtain rfl := Option.some.inj (hjob.symm.trans hfound)
    exact settleResult_finishes report jobID executionID now

theorem executionState_of_watchdog (hstate : job.state = .running ∨ job.state = .assigned) :
    (Report.mk job.workerID job.attempt (watchdogResult job)).executionState job = .timeout := by
  rcases hstate with hstate | hstate <;>
    simp [Report.executionState, withReason, watchdogResult, hstate]

theorem watchdogTimeout_finishes (hjob : w.store.jobs.get? job.id = some job)
    (hstate : job.state = .running ∨ job.state = .assigned) :
    (steady clock).Ensures (watchdogTimeout cron job) w fun _ w' =>
      Finishes .timeout job.executionID w.store.executions w'.store.executions := by
  refine ensures_bind (ensures_mono (ensures_quiet (stopExecution_quiet job) w) ?_)
  rintro _ w₁ ⟨hjobs, hexecutions⟩
  rw [← hjobs] at hjob
  rw [← hexecutions]
  rw [← executionState_of_watchdog hstate]
  exact ensures_return (handleResult_finishes ⟨job.workerID, job.attempt, watchdogResult job⟩
    job.executionID hjob (live_of_running hstate))

theorem watchdogTimeout_timesOut (hjob : w.store.jobs.get? job.id = some job)
    (hstate : job.state = .running ∨ job.state = .assigned) :
    (steady clock).Ensures (watchdogTimeout cron job) w fun _ w' => TimesOut [job] w w' := by
  intro ds value w' hrun
  obtain ⟨x, hjobs⟩ := watchdogTimeout_records hjob hstate ds value w' hrun
  have hfinishes := watchdogTimeout_finishes hjob hstate ds value w' hrun
  refine ⟨?_, ?_, fun id hid => ?_, fun id hid => hfinishes.others id ?_⟩
  · intro other hother
    obtain rfl := List.mem_singleton.mp hother
    rw [hjobs]
    exact timedOut_record hstate _ x
  · intro other hother
    obtain rfl := List.mem_singleton.mp hother
    exact hfinishes.finished
  · rw [hjobs, get?_put_of_ne]
    simpa using hid
  · by_cases hid' : id = job.executionID
    · exact Or.inr (Or.inl (hid job List.mem_cons_self hid'))
    · exact Or.inl hid'

end Round

/-- Rounds over different jobs add up. -/
theorem timesOut_append {first second : List Job} {w w₁ w₂ : World} (h : TimesOut first w w₁)
    (h' : TimesOut second w₁ w₂)
    (hdistinct : ∀ job ∈ first, job.id ∉ second.map Job.id) :
    TimesOut (first ++ second) w w₂ := by
  have hkept : ∀ {id ex}, w.store.executions.get? id = some ex →
      ∃ ex', w₁.store.executions.get? id = some ex' := by
    intro id ex hex
    by_cases hid : ∃ job ∈ first, id = job.executionID ∧ id ≠ ""
    · obtain ⟨job, hjob, rfl, hne⟩ := hid
      obtain ⟨ex', hex', -⟩ := h.finished job hjob hne ex hex
      exact ⟨ex', hex'⟩
    · push Not at hid
      exact ⟨ex, by rw [h.untouched id hid, hex]⟩
  refine ⟨?_, ?_, fun id hid => ?_, fun id hid => ?_⟩
  · intro job hjob
    rcases List.mem_append.mp hjob with hjob | hjob
    · have htimedOut := h.timedOut job hjob
      unfold TimedOut at htimedOut ⊢
      rwa [h'.others job.id (hdistinct job hjob)]
    · exact h'.timedOut job hjob
  · intro job hjob hne ex hex
    by_cases hsecond : ∃ later ∈ second, job.executionID = later.executionID
    · obtain ⟨later, hlater, heq⟩ := hsecond
      obtain ⟨ex₁, hex₁⟩ := hkept hex
      rw [heq] at hne hex₁ ⊢
      exact h'.finished later hlater hne ex₁ hex₁
    · push Not at hsecond
      rcases List.mem_append.mp hjob with hjob | hjob
      · rw [h'.untouched _ fun later hlater heq => absurd heq (hsecond later hlater)]
        exact h.finished job hjob hne ex hex
      · exact absurd rfl (hsecond job hjob)
  · rw [List.map_append, List.mem_append, not_or] at hid
    rw [h'.others id hid.2, h.others id hid.1]
  · rw [h'.untouched id fun job hjob => hid job (List.mem_append_right _ hjob),
      h.untouched id fun job hjob => hid job (List.mem_append_left _ hjob)]

theorem watchdogTimeouts_timesOut {cron : Cron} {clock : Time → Prop} {jobs : List Job}
    {w : World}
    (hlisted : Snapshot w.store.jobs (fun state => state = .running ∨ state = .assigned) jobs) :
    (steady clock).Ensures (forEach jobs (watchdogTimeout cron)) w fun _ w' =>
      TimesOut jobs w w' := by
  induction jobs generalizing w with
  | nil =>
      refine ensures_ret ⟨?_, ?_, fun _ _ => rfl, fun _ _ => rfl⟩
      · exact fun _ h => absurd h List.not_mem_nil
      · exact fun _ h => absurd h List.not_mem_nil
  | cons job jobs ih =>
      have hfresh := (List.nodup_cons.mp hlisted.nodup).1
      have htail := snapshot_tail hlisted
      refine ensures_bind (ensures_mono (watchdogTimeout_timesOut
        (hlisted.stored job List.mem_cons_self) (hlisted.states job List.mem_cons_self)) ?_)
      intro _ w₁ hfirst
      have hrest : Snapshot w₁.store.jobs
          (fun state => state = .running ∨ state = .assigned) jobs := by
        refine ⟨htail.nodup, fun other hother => ?_, htail.states⟩
        rw [hfirst.others, htail.stored other hother]
        intro hid
        obtain heq : other.id = job.id := by simpa using hid
        exact hfresh (heq ▸ List.mem_map_of_mem hother)
      refine ensures_mono (ih hrest) fun _ w₂ hloop => timesOut_append hfirst hloop ?_
      intro other hother
      obtain rfl := List.mem_singleton.mp hother
      exact hfresh

theorem snapshot_timedOut {w : World} {order : List String} (horder : w.store.jobs.Enumerates order)
    (now : Time) (limit : Int) :
    Snapshot w.store.jobs (fun state => state = .running ∨ state = .assigned)
      (w.store.listTimedOutRunning order now limit) :=
  snapshot_collect horder (fun _ => timedOutRunning_states) _

/-- A pass of the watchdog times out the jobs of its listing. -/
theorem watchdogTimeouts_pass {cron : Cron} {cfg : SchedulerConfig} {w w' : World}
    {ds : List Draw} {result : Except Err Unit}
    (hrun : (steady fun _ => True).Runs (watchdogTimeouts cron cfg) w ds result w') :
    ∃ d d' rest, ds = d :: d' :: rest ∧ w.store.jobs.Enumerates d'.order ∧
      TimesOut (w.store.listTimedOutRunning d'.order d.now cfg.assignBatchSize) w w' := by
  obtain ⟨d, ds, rfl, -, hrun⟩ := runs_perform_iff.mp hrun
  obtain ⟨d', ds, rfl, hallowed, hrun⟩ := runs_perform_iff.mp hrun
  simp only [steady_step, step, guarded_of_none (hallowed.2.1 rfl)] at hrun
  obtain ⟨loop, rest, value, w₁, rfl, hloop, hret⟩ := runs_bind_iff.mp hrun
  obtain ⟨-, -, rfl⟩ := runs_ret_iff.mp hret
  have horder : w.store.jobs.Enumerates d'.order := hallowed.1
  exact ⟨d, d', _, rfl, horder,
    watchdogTimeouts_timesOut (snapshot_timedOut horder d.now _) _ _ _ hloop⟩

/-- Every overdue job times out, and nothing else changes in the tables. -/
structure ClearsOverdue (now : Time) (w w' : World) : Prop where
  timedOut : ∀ id job, w.store.jobs.get? id = some job → timedOutRunning now job →
    TimedOut w'.store.jobs job
  finished : ∀ id job, w.store.jobs.get? id = some job → timedOutRunning now job →
    job.executionID ≠ "" → ∀ ex, w.store.executions.get? job.executionID = some ex →
      ∃ ex', w'.store.executions.get? job.executionID = some ex' ∧ ex'.state = .timeout ∧
        ex'.finishedAt.isSome
  others : ∀ id, (∀ job, w.store.jobs.get? id = some job → timedOutRunning now job = false) →
    w'.store.jobs.get? id = w.store.jobs.get? id
  untouched : ∀ executionID, (∀ id job, w.store.jobs.get? id = some job →
      timedOutRunning now job → executionID = job.executionID → executionID = "") →
    w'.store.executions.get? executionID = w.store.executions.get? executionID

/-- A pass of the watchdog with the reading `d.now` clears every overdue job if there are no
more of them than its listing takes. -/
theorem watchdog_clears_overdue {cron : Cron} {cfg : SchedulerConfig} {w w' : World} {d : Draw}
    {ds : List Draw} {result : Except Err Unit}
    (hfew : ((w.store.jobs.matching (timedOutRunning d.now)).card : Int) ≤
      defaultLimit cfg.assignBatchSize)
    (hrun : (steady fun _ => True).Runs (watchdogTimeouts cron cfg) w (d :: ds) result w') :
    ClearsOverdue d.now w w' := by
  obtain ⟨_, d', ds, ⟨⟩, horder, h⟩ := watchdogTimeouts_pass hrun
  have hmem : ∀ job, job ∈ w.store.listTimedOutRunning d'.order d.now cfg.assignBatchSize ↔
      w.store.jobs.get? job.id = some job ∧ timedOutRunning d.now job := by
    intro job
    have hroom : ((([] : List Job).length + ((w.store.jobs.inOrder d'.order).filter
        (timedOutRunning d.now)).length : Nat) : Int) ≤ defaultLimit cfg.assignBatchSize := by
      rwa [Enumerates.length_filter horder, List.length_nil, Nat.zero_add]
    rw [Store.listTimedOutRunning, collect_eq_filter hroom, List.nil_append, List.mem_filter,
      Enumerates.mem_inOrder horder]
  refine ⟨fun id job hjob hlate => ?_, fun id job hjob hlate => ?_, fun id hid => ?_,
    fun executionID hid => ?_⟩
  · obtain rfl := key_of_get? hjob
    exact h.timedOut job ((hmem job).mpr ⟨hjob, hlate⟩)
  · obtain rfl := key_of_get? hjob
    exact h.finished job ((hmem job).mpr ⟨hjob, hlate⟩)
  · refine h.others id fun hlate => ?_
    obtain ⟨job, hjob, rfl⟩ := List.mem_map.mp hlate
    obtain ⟨hstored, htimedOut⟩ := (hmem job).mp hjob
    rw [hid job hstored] at htimedOut
    cases htimedOut
  · refine h.untouched executionID fun job hjob => ?_
    obtain ⟨hstored, htimedOut⟩ := (hmem job).mp hjob
    exact hid job.id job hstored htimedOut

/-- A job that started at time 0, alone in the store. -/
def overdueJob : Job := { echoJob .running with startedAt := some 0, attempt := 1 }

theorem overdue_job_cleared :
    ∃ ds result w', (steady fun _ => True).Runs (watchdogTimeouts utcOnly smallConfig)
        (oneWorker overdueJob []) ds result w' ∧
      ClearsOverdue (60 * second) (oneWorker overdueJob []) w' := by
  have hexec : ((steady fun _ => True).exec (watchdogTimeouts utcOnly smallConfig)
      (oneWorker overdueJob []) (sweepDraws 9 (60 * second))).isSome := by
    decide +kernel
  exact ⟨_, _, _, runs_of_get hexec, watchdog_clears_overdue (by decide +kernel)
    (runs_of_get hexec)⟩

end Chronos.Watchdog
