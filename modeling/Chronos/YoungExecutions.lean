import Chronos.RecurringLineage
import Chronos.SlotAccounting.Runs
import Chronos.Watchdog

namespace Chronos.YoungExecutions

open Chronos.Domain
open Chronos.Library.Bookkeeping
open Chronos.Library.CallProgram
open Chronos.Library.Interleaving
open Chronos.Library.KeyedTable
open Chronos.MemoryStore
open Chronos.Operations
open Chronos.RecurringLineage (createJob_calls)
open Chronos.SchedulerCalls
open Chronos.SchedulerService
open Chronos.SharedState
open Chronos.SlotAccounting (SameSlots consumers finishTask_same handleResult_untouched
  issued_kept startTask_same stopExecution_untouched touchesSlots)
open Chronos.Watchdog (snapshot_timedOut timedOutRunning_states)

/-- A timeout that the watchdog reports: the job as it was listed, and the clock. -/
structure Timeout where
  job : Job
  now : Time

/-- When each execution was assigned, and the timeouts that were reported. -/
structure Books where
  assignedAt : String → Option Time
  timeouts : List Timeout

def Books.new : Books := ⟨fun _ => none, []⟩

/-- How far a delivery has come with its execution, and a pass of the watchdog with the jobs
it has listed. -/
inductive Duty
  | other
  | delivering
  | named (executionID : String)
  | timed (executionID : String) (now : Time)
  | assigned (executionID : String) (now : Time)
  | watching
  | listing (now : Time)
  | reporting (now : Time) (jobs : List Job)

def startDuty : Task → Duty
  | .handleQueuedJob _ => .delivering
  | .watchdogTimeouts => .watching
  | _ => .other

def Duty.after (duty : Duty) (c : Call) (answer : Answer c) : Duty :=
  match duty with
  | .delivering =>
      match c, answer with
      | .newUUID, executionID => .named executionID
      | _, _ => .delivering
  | .named executionID =>
      match c, answer with
      | .timeNow, now => .timed executionID now
      | _, _ => .named executionID
  | .timed executionID now =>
      match c, answer with
      | .updateJobStateIf _ _ _ _, .ok _ => .assigned executionID now
      | _, _ => .timed executionID now
  | .watching =>
      match c, answer with
      | .timeNow, now => .listing now
      | _, _ => .watching
  | .listing now =>
      match c, answer with
      | .listTimedOutRunning _ _, .ok jobs => .reporting now jobs
      | _, _ => .listing now
  | .reporting now jobs =>
      match c with
      -- the first call of `HandleResult`
      | .decActiveJobs _ => .reporting now jobs.tail
      | _ => .reporting now jobs
  | .other => .other
  | .assigned executionID now => .assigned executionID now

def Duty.record (duty : Duty) (c : Call) (answer : Answer c) (books : Books) : Books :=
  match duty with
  | .timed executionID now =>
      match c, answer with
      | .updateJobStateIf _ _ _ _, .ok _ =>
          { books with assignedAt := Function.update books.assignedAt executionID (some now) }
      | _, _ => books
  | .reporting now (job :: _) =>
      match c with
      | .decActiveJobs _ => { books with timeouts := ⟨job, now⟩ :: books.timeouts }
      | _ => books
  | _ => books

def ledger : Ledger Call Answer Task Duty Books where
  duty := startDuty
  after := Duty.after
  record := Duty.record

def marksRunning : Call → Bool
  | .updateJobStateIf _ state _ _ => state == .running
  | .createJob job => job.state == .running
  | _ => false

/-- A delivery assigns its own execution and starts it with the reading of the clock that it
took before, the watchdog lists with the reading it took, and nobody else marks a job RUNNING. -/
def Duty.Admits (duty : Duty) (c : Call) : Prop :=
  match duty, c with
  | .timed executionID _, .updateJobStateIf _ state fields _ =>
      state = .assigned ∧ fields.executionID = some executionID
  | .assigned _ now, .updateJobStateIf _ state fields _ =>
      state = .running ∧ fields.executionID = none ∧ fields.startedAt = some now
  | .listing now, .listTimedOutRunning now' _ => now' = now
  | .reporting _ jobs, .decActiveJobs _ => jobs ≠ []
  | _, c => marksRunning c = false

abbrev Disciplined {α : Type} (p : Prog α) (duty : Duty) : Prop :=
  p.Follows (ledger.protocol Duty.Admits) (fun _ _ => True) duty

section Bodies

variable {α : Type}

abbrev Plain (p : Prog α) : Prop := p.CallsOnly fun c => marksRunning c = false

theorem disciplined_of_plain {p : Prog α} (hp : Plain p) : Disciplined p .other := by
  refine follows_of_callsOnly hp (fun c hc => ⟨?_, fun _ => rfl⟩) fun _ => trivial
  exact hc

theorem plain_resultCall {jobID : String} {c : Call} (hc : resultCall jobID c) :
    marksRunning c = false := by
  cases c with
  | updateJobStateIf id state fields onlyFrom => cases state <;> first | rfl | cases hc.2.1
  | createJob job => rw [marksRunning, hc.2.2]; rfl
  | _ => rfl

theorem plain_create (cron : Cron) (body : Option CreateJobRequest) :
    Plain (ApiServer.createJob cron body) := by
  refine callsOnly_mono (createJob_calls cron body) fun c hc => ?_
  cases c with
  | updateJobStateIf id state fields onlyFrom => rw [marksRunning, (hc : state = .queued)]; rfl
  | createJob job => rw [marksRunning, hc.1]; rfl
  | _ => rfl

theorem plain_promote (cfg : SchedulerConfig) : Plain (promoteDueJobs cfg) := by
  refine callsOnly_mono (promoteDueJobs_calls cfg) fun c hc => ?_
  cases c with
  | updateJobStateIf id state fields onlyFrom => rw [marksRunning, hc.1]; rfl
  | createJob job => exact hc.elim
  | _ => rfl

theorem plain_cancel (cron : Cron) (cfg : SchedulerConfig) (id : String) :
    Plain (Task.body cron cfg (.cancelJob id)) := by
  refine callsOnly_mono (LostCancellation.cancelJob_calls cron cfg id) fun c hc => ?_
  cases c with
  | updateJobStateIf id state fields onlyFrom =>
      rcases hc.2 with hstate | hstate <;> rw [marksRunning, hstate] <;> rfl
  | createJob job => exact hc.elim
  | _ => rfl

theorem plain_pushCancels (cfg : SchedulerConfig) : Plain (pushPendingCancels cfg) := by
  refine callsOnly_mono (pushPendingCancels_calls cfg) fun c hc => ?_
  cases c with
  | updateJobStateIf id state fields onlyFrom =>
      rw [marksRunning, (hc : state = .cancelled)]
      rfl
  | createJob job => exact hc.elim
  | _ => rfl

theorem settledState_running (found : JobState) : settledState found .running = false := by
  cases found <;> rfl

theorem plain_settleCall {found : JobState} {jobID : String} {c : Call}
    (hc : settleCall found jobID false c) : marksRunning c = false := by
  cases c with
  | updateJobStateIf id state fields onlyFrom =>
      have hsettled : settledState found state := hc.2
      cases state with
      | running => rw [settledState_running] at hsettled; cases hsettled
      | _ => rfl
  | createJob job => cases hc.1
  | _ => rfl

theorem plain_recoverJobs (workerID : String) (jobs : List Job) :
    Plain (recoverJobs workerID jobs) := by
  refine (callsOnly_perform ..).mpr ⟨rfl, fun now => ?_⟩
  refine callsOnly_bind (callsOnly_forEach fun job _ => ?_) fun _ => ?_
  · split
    · trivial
    · exact callsOnly_mono (LifecycleGraph.recoverJob_calls workerID now job)
        fun _ => plain_settleCall
  · exact (callsOnly_perform ..).mpr ⟨rfl, fun _ => trivial⟩

theorem plain_checkWorkers (cfg : SchedulerConfig) : Plain (checkWorkers cfg) := by
  refine (callsOnly_perform ..).mpr ⟨rfl, fun marked => ?_⟩
  cases marked with
  | error e => trivial
  | ok marked =>
      refine callsOnly_bind (callsOnly_forEach fun workerID _ => ?_) fun _ => trivial
      refine (callsOnly_perform ..).mpr ⟨rfl, fun _ => ?_⟩
      refine (callsOnly_perform ..).mpr ⟨rfl, fun _ => ?_⟩
      exact callsOnly_bind (recoverWorkerJobs_callsOnly workerID (fun _ _ => rfl)
        (plain_recoverJobs workerID)) fun _ => trivial

theorem handleQueuedJob_disciplined (message : QueuedJob) :
    Disciplined (handleQueuedJob message) .delivering := by
  refine (follows_perform ..).mpr ⟨rfl, fun found => ?_⟩
  cases found with
  | error e => trivial
  | ok job =>
      dsimp only
      split
      · refine (follows_perform ..).mpr ⟨rfl, fun picked => ?_⟩
        cases picked with
        | none => trivial
        | some wc =>
            refine (follows_perform ..).mpr ⟨rfl, fun executionID => ?_⟩
            refine (follows_perform ..).mpr ⟨rfl, fun created => ?_⟩
            cases created with
            | error e => trivial
            | ok _ =>
                refine (follows_perform ..).mpr ⟨rfl, fun now => ?_⟩
                refine (follows_perform ..).mpr ⟨⟨rfl, rfl⟩, fun assigned => ?_⟩
                cases assigned with
                | error e => trivial
                | ok _ =>
                    refine (follows_perform ..).mpr ⟨rfl, fun _ => ?_⟩
                    refine (follows_perform ..).mpr ⟨rfl, fun reply => ?_⟩
                    split
                    · trivial
                    · refine (follows_perform ..).mpr ⟨⟨rfl, rfl, rfl⟩, fun started => ?_⟩
                      cases started with
                      | error e => trivial
                      | ok _ =>
                          refine (follows_perform ..).mpr ⟨rfl, fun _ => ?_⟩
                          exact (follows_perform ..).mpr ⟨rfl, fun _ => trivial⟩
      · trivial

/-- While it reports, the watchdog comes to the next job by its decrement only. -/
theorem reporting_of_calls {p : Prog α} {now : Time} {jobs : List Job}
    (hp : p.CallsOnly fun c => touchesSlots c = false ∧ marksRunning c = false) :
    p.Follows (ledger.protocol Duty.Admits) (fun reached _ => reached = .reporting now jobs)
      (.reporting now jobs) := by
  refine follows_of_callsOnly hp (fun c hc => ⟨?_, fun answer => ?_⟩) fun _ => rfl
  · cases c with
    | decActiveJobs workerID => cases hc.1
    | _ => exact hc.2
  · cases c with
    | decActiveJobs workerID => cases hc.1
    | _ => rfl

theorem watchdogTimeout_reports (cron : Cron) (job : Job) (now : Time) (jobs : List Job) :
    (watchdogTimeout cron job).Follows (ledger.protocol Duty.Admits)
      (fun reached _ => reached = .reporting now jobs) (.reporting now (job :: jobs)) := by
  have hstop : Plain (stopExecution job) := by
    refine callsOnly_mono (LifecycleGraph.stopExecution_quiet job) fun c hc => ?_
    cases c <;> first | rfl | cases hc
  refine follows_bind (reporting_of_calls (callsOnly_and (stopExecution_untouched job) hstop)) ?_
  rintro _ _ rfl
  obtain ⟨rest, heq, huntouched⟩ := handleResult_untouched cron job.id job.executionID
    job.workerID job.attempt (watchdogResult job)
  have hcalls := handleResult_calls cron job.id job.executionID job.workerID job.attempt
    (watchdogResult job)
  rw [heq] at hcalls ⊢
  have hrest : Plain rest :=
    callsOnly_mono (((callsOnly_perform ..).mp hcalls).2 ()) fun _ => plain_resultCall
  have hreport : (ask (.decActiveJobs job.workerID) >>= fun _ => rest).Follows
      (ledger.protocol Duty.Admits) (fun reached _ => reached = .reporting now jobs)
      (.reporting now (job :: jobs)) :=
    (follows_perform ..).mpr ⟨List.cons_ne_nil job jobs, fun _ =>
      reporting_of_calls (callsOnly_and huntouched hrest)⟩
  exact follows_bind hreport fun _ _ hreached => hreached

theorem watchdogTimeouts_disciplined (cron : Cron) (cfg : SchedulerConfig) :
    Disciplined (watchdogTimeouts cron cfg) .watching := by
  refine (follows_perform ..).mpr ⟨rfl, fun now => ?_⟩
  refine (follows_perform ..).mpr ⟨rfl, fun listed => ?_⟩
  cases listed with
  | error e => trivial
  | ok jobs =>
      refine follows_bind (follows_forEach (I := fun (rest : List Job) duty =>
        duty = .reporting now rest) ?_ rfl) fun _ _ _ => trivial
      rintro job rest _ rfl
      exact watchdogTimeout_reports cron job now rest

theorem body_disciplined (cron : Cron) (cfg : SchedulerConfig) (task : Task) :
    Disciplined (Task.body cron cfg task) (startDuty task) := by
  cases task with
  | createJob body =>
      exact disciplined_of_plain (callsOnly_bind (plain_create cron body) fun _ => trivial)
  | cancelJob id => exact disciplined_of_plain (plain_cancel cron cfg id)
  | promoteDueJobs =>
      exact disciplined_of_plain (callsOnly_bind (plain_promote cfg) fun _ => trivial)
  | handleQueuedJob message =>
      exact follows_bind (handleQueuedJob_disciplined message) fun _ _ _ => trivial
  | handleResult jobID executionID workerID attempt result =>
      refine disciplined_of_plain (callsOnly_bind (callsOnly_mono (handleResult_calls cron jobID
        executionID workerID attempt result) fun _ => plain_resultCall) fun _ => trivial)
  | pushPendingCancels =>
      exact disciplined_of_plain (callsOnly_bind (plain_pushCancels cfg) fun _ => trivial)
  | watchdogTimeouts =>
      exact follows_bind (watchdogTimeouts_disciplined cron cfg) fun _ _ _ => trivial
  | checkWorkers =>
      exact disciplined_of_plain (callsOnly_bind (plain_checkWorkers cfg) fun _ => trivial)

end Bodies

/-- The readings at which the call lists overdue jobs. -/
def listsAt : Call → Option Time
  | .listTimedOutRunning now _ => some now
  | _ => none

/-- The execution with which a delivery marks a job RUNNING, and the job. -/
def starts : Duty × Call → Option (String × String)
  | (.assigned executionID _, .updateJobStateIf id _ _ _) => some (executionID, id)
  | _ => none

/-- No ASSIGNED job is overdue where the watchdog lists, and a delivery marks a job RUNNING
only while its own execution is the current one, or the job has none. -/
def Timely (s : World × Books) (c : Duty × Call) (_ : Draw) : Prop :=
  (∀ now ∈ listsAt c.2, ∀ id ∈ s.1.store.jobs.keys, ∀ job ∈ s.1.store.jobs.get? id,
    timedOutRunning now job → job.state ≠ .assigned) ∧
  ∀ start ∈ starts c, ∀ job ∈ s.1.store.jobs.get? start.2,
    job.executionID = start.1 ∨ job.executionID = ""

instance (s : World × Books) (c : Duty × Call) (d : Draw) : Decidable (Timely s c d) :=
  inferInstanceAs (Decidable (_ ∧ _))

/-- More than the timeout of the job has passed since its execution was assigned. -/
def Late (books : Books) (job : Job) (now : Time) : Prop :=
  job.executionID ≠ "" →
    ∃ t, books.assignedAt job.executionID = some t ∧ t + effectiveTimeout job < now

/-- The reading that a RUNNING job was started with is the one of its assignment. -/
def Started (books : Books) (job : Job) : Prop :=
  job.state = .running → job.executionID ≠ "" →
    ∃ t, books.assignedAt job.executionID = some t ∧ job.startedAt = some t

def Knows (books : Books) : Duty → Prop
  | .assigned executionID now => books.assignedAt executionID = some now
  | .reporting now jobs => ∀ job ∈ jobs, Late books job now
  | _ => True

def Duty.held? : Duty → Option String
  | .named executionID | .timed executionID _ => some executionID
  | _ => none

/-- The invariant of the books. -/
structure InOrder (w : World) (books : Books) (duties : Multiset Duty) : Prop where
  started : ∀ {id job}, w.store.jobs.get? id = some job → Started books job
  late : ∀ timeout ∈ books.timeouts, Late books timeout.job timeout.now
  known : ∀ duty ∈ duties, Knows books duty
  tickets : Tickets w.issued (duties.filterMap Duty.held?) fun executionID =>
    (books.assignedAt executionID).isSome

section Calls

variable {w : World} {books books' : Books} {duty : Duty} {duties : Multiset Duty} {c : Call}
  {d : Draw}

/-- What is assigned stays assigned. -/
def Extends (books books' : Books) : Prop :=
  ∀ {executionID t}, books.assignedAt executionID = some t → books'.assignedAt executionID = some t

theorem late_extends (h : Extends books books') {job : Job} {now : Time}
    (hlate : Late books job now) : Late books' job now := by
  intro hexecution
  obtain ⟨t, ht, hnow⟩ := hlate hexecution
  exact ⟨t, h ht, hnow⟩

theorem started_extends (h : Extends books books') {job : Job} (hstarted : Started books job) :
    Started books' job := by
  intro hstate hexecution
  obtain ⟨t, ht, hstart⟩ := hstarted hstate hexecution
  exact ⟨t, h ht, hstart⟩

theorem knows_extends (h : Extends books books') (hknows : Knows books duty) :
    Knows books' duty := by
  cases duty with
  | assigned executionID now => exact h hknows
  | reporting now jobs => exact fun job hjob => late_extends h (hknows job hjob)
  | _ => trivial

theorem held_timed {executionID : String} {now : Time} :
    (Duty.timed executionID now ::ₘ duties).filterMap Duty.held? =
      executionID ::ₘ duties.filterMap Duty.held? :=
  Multiset.filterMap_cons_some _ _ _ rfl

theorem record_extends (h : InOrder w books (duty ::ₘ duties)) (answer : Answer c) :
    Extends books (duty.record c answer books) := by
  cases duty with
  | timed executionID now =>
      have htickets := h.tickets
      rw [held_timed] at htickets
      have hunspent : books.assignedAt executionID = none := by
        have hnone := htickets.unspent executionID (Multiset.mem_cons_self _ _)
        simpa using hnone
      intro other t ht
      simp only [Duty.record]
      split
      · dsimp only
        rw [Function.update_of_ne, ht]
        rintro rfl
        rw [hunspent] at ht
        cases ht
      · exact ht
  | reporting now jobs =>
      cases jobs with
      | nil => exact id
      | cons job jobs =>
          intro other t ht
          simp only [Duty.record]
          split <;> exact ht
  | _ => exact id

theorem record_late (h : InOrder w books (duty ::ₘ duties)) (answer : Answer c) :
    ∀ timeout ∈ (duty.record c answer books).timeouts,
      Late (duty.record c answer books) timeout.job timeout.now := by
  intro timeout htimeout
  refine late_extends (record_extends h answer) ?_
  cases duty with
  | timed executionID now =>
      simp only [Duty.record] at htimeout
      split at htimeout <;> exact h.late timeout htimeout
  | reporting now jobs =>
      cases jobs with
      | nil => exact h.late timeout htimeout
      | cons job jobs =>
          simp only [Duty.record] at htimeout
          split at htimeout
          · rcases List.mem_cons.mp htimeout with rfl | hearlier
            · exact h.known _ (Multiset.mem_cons_self _ _) job List.mem_cons_self
            · exact h.late timeout hearlier
          · exact h.late timeout htimeout
  | _ => exact h.late timeout htimeout

/-- What the watchdog lists is late: the job runs, so that it was started with the reading of
its assignment. -/
theorem listed_late (h : InOrder w books duties) {now : Time} {limit : Int}
    (hsound : Sound w (.listTimedOutRunning now limit) d)
    (htimely : Timely (w, books) (duty, .listTimedOutRunning now limit) d) :
    ∀ job ∈ w.store.listTimedOutRunning d.order now limit, Late books job now := by
  intro job hjob hexecution
  have hsnapshot := snapshot_timedOut (w := w) hsound now limit
  have hstored := hsnapshot.stored job hjob
  have htimedOut := (List.mem_filter.mp ((collect_sublist _ _ _ _).subset hjob)).2
  have hrunning : job.state = .running := by
    refine (timedOutRunning_states htimedOut).resolve_right ?_
    exact htimely.1 now rfl job.id (mem_keys.mpr ⟨job, hstored⟩) job hstored htimedOut
  obtain ⟨t, ht, hstart⟩ := h.started hstored hrunning hexecution
  refine ⟨t, ht, ?_⟩
  simp only [timedOutRunning, hstart, Bool.and_eq_true, decide_eq_true_eq] at htimedOut
  exact htimedOut.2

theorem knows_after (h : InOrder w books (duty ::ₘ duties)) (hadmits : duty.Admits c)
    (hsound : Sound w c d) (htimely : Timely (w, books) (duty, c) d) :
    Knows (duty.record c (step c w d).1 books) (duty.after c (step c w d).1) := by
  have hknows := h.known duty (Multiset.mem_cons_self _ _)
  cases duty with
  | timed executionID now =>
      simp only [Duty.after, Duty.record]
      split
      · exact Function.update_self ..
      · trivial
  | listing now =>
      cases c with
      | listTimedOutRunning now' limit =>
          obtain rfl : now' = now := hadmits
          simp only [step, guarded]
          cases d.fault with
          | some e => trivial
          | none => exact listed_late h hsound htimely
      | _ => trivial
  | reporting now jobs =>
      refine knows_extends (record_extends h _) ?_
      simp only [Duty.after]
      split
      · exact fun job hjob => hknows job (List.mem_of_mem_tail hjob)
      · exact hknows
  | assigned executionID now => exact hknows
  | delivering => simp only [Duty.after]; split <;> trivial
  | named executionID => simp only [Duty.after]; split <;> trivial
  | watching => simp only [Duty.after]; split <;> trivial
  | other => trivial

/-- An execution is named by a fresh id and assigned once. -/
theorem tickets_call (h : InOrder w books (duty ::ₘ duties)) (hsound : Sound w c d) :
    Tickets (step c w d).2.issued
      ((duty.after c (step c w d).1 ::ₘ duties).filterMap Duty.held?)
      fun executionID => ((duty.record c (step c w d).1 books).assignedAt executionID).isSome := by
  have hissued : ∀ executionID ∈ w.issued, executionID ∈ (step c w d).2.issued :=
    fun _ => issued_kept
  have hlater := tickets_later h.tickets hissued le_rfl
  have hkept {after : Duty} {books' : Books} (hheld : after.held? = duty.held?)
      (hbooks : books'.assignedAt = books.assignedAt) :
      Tickets (step c w d).2.issued ((after ::ₘ duties).filterMap Duty.held?)
        fun executionID => (books'.assignedAt executionID).isSome := by
    rw [Multiset.filterMap_cons, hheld, ← Multiset.filterMap_cons, hbooks]
    exact hlater
  cases duty with
  | delivering =>
      cases c with
      | newUUID =>
          have hfresh : Fresh w d.uuid := hsound
          have htickets := h.tickets
          rw [Multiset.filterMap_cons_none _ _ rfl] at htickets
          have hafter : (Duty.named d.uuid ::ₘ duties).filterMap Duty.held? =
              d.uuid ::ₘ duties.filterMap Duty.held? := Multiset.filterMap_cons_some _ _ _ rfl
          exact hafter ▸ tickets_issue htickets hfresh.2.1
      | _ => exact hkept rfl rfl
  | named executionID =>
      refine hkept ?_ rfl
      simp only [Duty.after]
      split <;> rfl
  | timed executionID now =>
      simp only [Duty.after, Duty.record]
      split
      · rw [held_timed] at hlater
        rw [Multiset.filterMap_cons_none _ _ rfl]
        refine tickets_spend hlater fun other hspent => ?_
        by_cases hother : other = executionID
        · exact Or.inl hother
        · dsimp only at hspent
          rw [Function.update_of_ne hother] at hspent
          exact Or.inr hspent
      · exact hkept rfl rfl
  | watching =>
      refine hkept ?_ rfl
      simp only [Duty.after]
      split <;> rfl
  | listing now =>
      refine hkept ?_ rfl
      simp only [Duty.after]
      split <;> rfl
  | reporting now jobs =>
      refine hkept ?_ ?_
      · simp only [Duty.after]
        split <;> rfl
      · cases jobs with
        | nil => rfl
        | cons job jobs =>
            simp only [Duty.record]
            split <;> rfl
  | other => exact hlater
  | assigned executionID now => exact hlater

theorem plain_of_admits_create {job : Job} (hadmits : duty.Admits (.createJob job)) :
    job.state ≠ .running := by
  have hplain : marksRunning (.createJob job) = false := by cases duty <;> exact hadmits
  rintro hstate
  rw [marksRunning, hstate] at hplain
  cases hplain

/-- Only a delivery marks a job RUNNING, and then with the reading of its assignment. -/
theorem started_update {id : String} {state : JobState} {fields : Fields}
    {onlyFrom : List JobState} {job : Job} (h : InOrder w books (duty ::ₘ duties))
    (hadmits : duty.Admits (.updateJobStateIf id state fields onlyFrom))
    (htimely : Timely (w, books) (duty, .updateJobStateIf id state fields onlyFrom) d)
    (hjob : w.store.jobs.get? id = some job) (now : Time) :
    Started books (applyUpdate job state fields now) := by
  intro hstate hexecution
  obtain rfl : state = .running := hstate
  cases duty with
  | assigned executionID reading =>
      obtain ⟨-, hfields, hstart⟩ := hadmits
      have hknows := h.known _ (Multiset.mem_cons_self _ _)
      have hkept : (applyUpdate job .running fields now).executionID = job.executionID := by
        simp [applyUpdate, hfields]
      rw [hkept] at hexecution ⊢
      have howner := (htimely.2 (executionID, id) rfl job hjob).resolve_right hexecution
      refine ⟨reading, howner ▸ hknows, ?_⟩
      simp [applyUpdate, hstart]
  | timed executionID reading => cases hadmits.1
  | _ => cases hadmits

theorem started_call (h : InOrder w books (duty ::ₘ duties)) (hadmits : duty.Admits c)
    (htimely : Timely (w, books) (duty, c) d) {id : String} {job : Job}
    (hjob : (step c w d).2.store.jobs.get? id = some job) : Started books job := by
  rcases step_jobs c w d with hsame | ⟨new, rfl, hput⟩ |
    ⟨id', state, fields, onlyFrom, old, rfl, hold, -, hput⟩
  · exact h.started (hsame ▸ hjob)
  · rw [hput, get?_put] at hjob
    split at hjob
    · obtain rfl := Option.some.inj hjob
      have hplain := plain_of_admits_create hadmits
      exact fun hstate => absurd hstate hplain
    · exact h.started hjob
  · rw [hput, get?_put] at hjob
    split at hjob
    · obtain rfl := Option.some.inj hjob
      exact started_update h hadmits htimely hold d.now
    · exact h.started hjob

theorem inOrder_call (h : InOrder w books (duty ::ₘ duties)) (hadmits : duty.Admits c)
    (hsound : Sound w c d) (htimely : Timely (w, books) (duty, c) d) :
    InOrder (step c w d).2 (duty.record c (step c w d).1 books)
      (duty.after c (step c w d).1 ::ₘ duties) where
  started := fun hjob => started_extends (record_extends h _) (started_call h hadmits htimely hjob)
  late := record_late h _
  known := by
    intro duty' hduty'
    rcases Multiset.mem_cons.mp hduty' with rfl | hrest
    · exact knows_after h hadmits hsound htimely
    · exact knows_extends (record_extends h _) (h.known duty' (Multiset.mem_cons_of_mem hrest))
  tickets := tickets_call h hsound

end Calls

abbrev BookedPool := AnnotatedPool Call Answer World Books Task Duty Outcome

def opening (w : World) : BookedPool := ⟨(w, .new), []⟩

section Runs

variable {cron : Cron} {cfg : SchedulerConfig} {w w' : World} {books : Books} {duty : Duty}
  {duties : Multiset Duty}

theorem inOrder_opening
    (hfresh : ∀ id job, w.store.jobs.get? id = some job → job.executionID = "") :
    InOrder w .new 0 where
  started := fun hjob _ hexecution => absurd (hfresh _ _ hjob) hexecution
  late := fun _ h => absurd h List.not_mem_nil
  known := fun _ h => absurd h (Multiset.notMem_zero _)
  tickets := ⟨by simp, by simp [Books.new], by simp, by simp⟩

theorem inOrder_start (h : InOrder w books duties) (hsame : SameSlots w w') (task : Task) :
    InOrder w' books (startDuty task ::ₘ duties) where
  started := fun hjob => h.started (hsame.store ▸ hjob)
  late := h.late
  known := by
    intro duty hduty
    rcases Multiset.mem_cons.mp hduty with rfl | hrest
    · cases task <;> trivial
    · exact h.known duty hrest
  tickets := by
    have hheld : (startDuty task).held? = none := by cases task <;> rfl
    rw [Multiset.filterMap_cons_none _ _ hheld, hsame.issued]
    exact h.tickets

theorem inOrder_finish (h : InOrder w books (duty ::ₘ duties)) (hsame : SameSlots w w') :
    InOrder w' books duties where
  started := fun hjob => h.started (hsame.store ▸ hjob)
  late := h.late
  known := fun duty hduty => h.known duty (Multiset.mem_cons_of_mem hduty)
  tickets := by
    rw [hsame.issued]
    exact tickets_later h.tickets (fun _ hx => hx)
      (Multiset.filterMap_le_filterMap _ (Multiset.le_cons_self duties duty))

/-- In every run of the operations, interleaved call by call, with any number of consumers and
with a store, a queue and a network that may fail, whose steps are all timely: when the
watchdog reports a timeout of an execution, more than the timeout of the job has passed since
the execution was assigned. -/
theorem timeouts_are_late {start : World} {p : BookedPool}
    (hstart : ∀ id job, start.store.jobs.get? id = some job → job.executionID = "")
    (hreach : (ledger.system (consumers cron cfg) Timely).Reaches (fun _ _ => True)
      (opening start) p) {timeout : Timeout} (htimeout : timeout ∈ p.state.2.timeouts) :
    Late p.state.2 timeout.job timeout.now := by
  have hopen : ledger.Kept Duty.Admits (fun _ => True) (opening start) :=
    fun thread hthread => absurd hthread List.not_mem_nil
  have h : InOrder p.state.1 p.state.2 (duties p) := by
    refine kept_reaches (P := fun _ _ => True) (I := InOrder)
      (fun _ task _ => body_disciplined cron cfg task) ?_ ?_ ?_ hreach hopen
      (inOrder_opening hstart)
    · intro p task s books rest h _ hstart
      have hplain : startTask ⟨p.state, []⟩ task = some s := hstart
      exact inOrder_start h (startTask_same (p := ⟨p.state, []⟩) hplain) task
    · intro s books duty rest c d h hadmits hsound htimely
      exact inOrder_call h hadmits hsound htimely
    · intro s books duty rest task value d h _
      exact inOrder_finish h (finishTask_same task value d s)
  exact h.late timeout htimeout

end Runs

section Scenarios

abbrev bookedService := ledger.system smallService fun _ _ _ => True

def queuedWorld : World := oneWorker (echoJob .queued) [echoMessage]

/-- The first execution of the job is assigned and started at time 2. -/
def firstStarted : List (Move Task Draw) :=
  .start (.handleQueuedJob echoMessage) :: movesToPush 0 "first" ++
    List.replicate 3 (.advance 0 { now := 2 }) ++ [.finish 0 {}]

/-- It fails after forty seconds, and twenty seconds later the job is queued again. -/
def retried : List (Move Task Draw) :=
  .start (.handleResult "job" "first" "worker" 1
      { success := false, retryable := true, reason := .failed }) ::
    List.replicate 8 (.advance 0 { now := 40 * second }) ++ .finish 0 {} ::
    .start .promoteDueJobs ::
    List.replicate 6 (.advance 0 { now := 60 * second, order := ["job"] }) ++ [.finish 0 {}]

/-- The second execution is assigned one second after that, and the worker refuses it. -/
def refused (message : QueuedJob) : List (Move Task Draw) :=
  [.start (.handleQueuedJob message), .advance 0 {}, .advance 0 { order := ["worker"] },
    .advance 0 { uuid := "second" }, .advance 0 {}, .advance 0 { now := 61 * second },
    .advance 0 { now := 61 * second }, .advance 0 {},
    .advance 0 { reply := .ok (some { accepted := false }) }, .finish 0 {}]

/-- The watchdog up to its report of the first job that it lists. -/
def watched : List (Move Task Draw) :=
  .start .watchdogTimeouts ::
    List.replicate 5 (.advance 0 { now := 62 * second, order := ["job"] })

def queuedAgain : BookedPool :=
  (bookedService.follow (fun _ _ => true) (opening queuedWorld) (firstStarted ++ retried)).get
    (by decide +kernel)

def reported : BookedPool :=
  (bookedService.follow (fun _ _ => true) queuedAgain
    (refused (queuedAgain.state.1.queue.items.head (by decide +kernel)) ++ watched)).get
    (by decide +kernel)

theorem reported_reached :
    bookedService.Reaches (fun _ _ => True) (opening queuedWorld) reported := by
  have hretried : bookedService.Reaches (fun _ _ => True) (opening queuedWorld) queuedAgain :=
    reaches_of_follow (fun _ _ _ => trivial) (Option.some_get _).symm
  have hreported : bookedService.Reaches (fun _ _ => True) queuedAgain reported :=
    reaches_of_follow (fun _ _ _ => trivial) (Option.some_get _).symm
  exact hretried.trans hreported

/-- The job is ASSIGNED with the StartedAt of its first execution, and the second one is
reported as timed out one second after it was assigned. -/
theorem young_execution_timed_out :
    ∃ p : BookedPool, bookedService.Reaches (fun _ _ => True) (opening queuedWorld) p ∧
      ∃ timeout ∈ p.state.2.timeouts, timeout.job.executionID = "second" ∧
        (p.state.1.store.jobs.get? "job").map Job.executionID = some "second" ∧
        p.state.2.assignedAt "second" = some (61 * second) ∧ timeout.now = 62 * second ∧
        effectiveTimeout timeout.job = 30 * second ∧
        ¬Late p.state.2 timeout.job timeout.now := by
  let timeout := reported.state.2.timeouts.head (by decide +kernel)
  have hmem : timeout ∈ reported.state.2.timeouts := List.head_mem _
  have hexecution : timeout.job.executionID = "second" := by decide +kernel
  have hassigned : reported.state.2.assignedAt "second" = some (61 * second) := by decide +kernel
  have hnow : timeout.now = 62 * second := by decide +kernel
  have heffective : effectiveTimeout timeout.job = 30 * second := by decide +kernel
  refine ⟨reported, reported_reached, timeout, hmem, hexecution, by decide +kernel, hassigned,
    hnow, heffective, fun hlate => ?_⟩
  obtain ⟨t, ht, hlate⟩ := hlate (by rw [hexecution]; decide)
  rw [hexecution, hassigned] at ht
  obtain rfl := Option.some.inj ht
  rw [heffective, hnow] at hlate
  exact absurd hlate (by decide)

/-- The watchdog lists the first execution after it was left running for too long. -/
def overdue : BookedPool :=
  ((ledger.system (consumers utcOnly smallConfig) Timely).follow (fun _ _ => true)
    (opening queuedWorld) (firstStarted ++ watched)).get (by decide +kernel)

theorem overdue_execution_timed_out :
    ∃ p : BookedPool, ∃ timeout ∈ p.state.2.timeouts, timeout.job.executionID = "first" ∧
      Late p.state.2 timeout.job timeout.now := by
  have hreach : (ledger.system (consumers utcOnly smallConfig) Timely).Reaches (fun _ _ => True)
      (opening queuedWorld) overdue :=
    reaches_of_follow (fun _ _ _ => trivial) (Option.some_get _).symm
  let timeout := overdue.state.2.timeouts.head (by decide +kernel)
  have hmem : timeout ∈ overdue.state.2.timeouts := List.head_mem _
  have hexecution : timeout.job.executionID = "first" := by decide +kernel
  have hlate : Late overdue.state.2 timeout.job timeout.now := by
    refine timeouts_are_late ?_ hreach hmem
    intro id job hjob
    have hstored : (Table.empty.put (echoJob .queued) : JobTable).get? id = some job := hjob
    rw [get?_put, get?_empty] at hstored
    split at hstored
    · obtain rfl := Option.some.inj hstored
      rfl
    · cases hstored
  exact ⟨overdue, timeout, hmem, hexecution, hlate⟩

end Scenarios

end Chronos.YoungExecutions
