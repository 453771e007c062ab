import Chronos.SchedulerService
import Chronos.SharedState.Steps

namespace Chronos.ResultRecords

open Chronos.Domain
open Chronos.Library.CallProgram
open Chronos.Library.CallMachine
open Chronos.Library.KeyedTable
open Chronos.MemoryStore
open Chronos.SchedulerService
open Chronos.SharedState

/-- What a `HandleResult` call is given besides the job and the execution. -/
structure Report where
  workerID : String
  attempt : Int
  result : ExecutionResult

abbrev Report.handleResult (report : Report) (cron : Cron) (jobID executionID : String) :
    Prog (Except Err Unit) :=
  SchedulerService.handleResult cron jobID executionID report.workerID report.attempt
    report.result

/-- The state that the report puts a live job in. -/
def Report.outcome (report : Report) (job : Job) : JobState :=
  let result := withReason report.result
  if result.reason = .cancelled ∨ job.state = .cancelRequested then .cancelled
  else if result.success then .completed
  else if result.reason = .timeout then
    if report.attempt < job.maxAttempts then .retrying else .timeout
  else if result.retryable ∧ report.attempt < job.maxAttempts then .retrying
  else .failed

/-- The state in which the report finishes the execution. -/
def Report.executionState (report : Report) (job : Job) : ExecutionState :=
  let result := withReason report.result
  if result.reason = .cancelled ∨ job.state = .cancelRequested then .cancelled
  else if result.success then .completed
  else if result.reason = .timeout then .timeout
  else .failed

def Report.lastError (report : Report) (job : Job) : String :=
  let result := withReason report.result
  if result.reason = .timeout ∧ job.state ≠ .cancelRequested then "timeout" else result.error

def Report.fields (report : Report) (job : Job) (now : Time) (rand : ℚ) : Fields :=
  match report.outcome job with
  | .completed => { completedAt := some now }
  | .retrying =>
      { nextRetryAt := some (now + computeBackoff job.retryPolicy report.attempt rand),
        lastError := some (report.lastError job), workerID := some "", executionID := some "" }
  | _ => { completedAt := some now, lastError := some (report.lastError job) }

/-- The next occurrence of a recurring job, as it is handed to the store. -/
def nextOccurrence (cron : Cron) (job : Job) (start : Time) : Option Job :=
  if job.schedule.type ≠ .recurring then none
  else
    match nextRunAt cron job.schedule start with
    | .error _ => none
    | .ok next => some
        { id := "", name := job.name, type := job.type, payload := job.payload,
          priority := job.priority, state := .scheduled, schedule := job.schedule,
          retryPolicy := job.retryPolicy, timeout := job.timeout,
          maxAttempts := job.maxAttempts, scheduledAt := some next, metadata := job.metadata }

def Report.successor (report : Report) (cron : Cron) (job : Job) (now : Time) : Option Job :=
  if report.outcome job = .completed then nextOccurrence cron job now else none

/-- What one call takes from outside: the time it reads, the random number, the times of
its two writes and the identifier of the job it creates. -/
structure Readings where
  now : Time
  rand : ℚ
  wroteAt : Time
  uuid : String
  createdAt : Time
  unit : 0 ≤ rand ∧ rand < 1

instance : Inhabited Readings :=
  ⟨⟨0, 0, 0, "", 0, le_rfl, one_pos⟩⟩

def Report.record (report : Report) (job : Job) (x : Readings) : Job :=
  applyUpdate job (report.outcome job) (report.fields job x.now x.rand) x.wroteAt

@[simp] theorem record_id (report : Report) (job : Job) (x : Readings) :
    (report.record job x).id = job.id := rfl

@[simp] theorem record_state (report : Report) (job : Job) (x : Readings) :
    (report.record job x).state = report.outcome job := rfl

def Report.child (report : Report) (cron : Cron) (job : Job) (x : Readings) : Option Job :=
  (report.successor cron job x.now).map fun child => stampJob child x.uuid x.createdAt

def addJob (jobs : JobTable) : Option Job → JobTable
  | none => jobs
  | some job => jobs.put job

/-- The job table after the call alone. -/
def Report.settle (report : Report) (cron : Cron) (job : Job) (x : Readings)
    (jobs : JobTable) : JobTable :=
  addJob (jobs.put (report.record job x)) (report.child cron job x)

section Outcome

variable {cron : Cron} {report : Report} {job : Job}

theorem outcome_terminal_or (report : Report) (job : Job) :
    (report.outcome job).terminal = true ∨ report.outcome job = .retrying := by
  unfold Report.outcome
  dsimp only
  split
  · exact Or.inl rfl
  split
  · exact Or.inl rfl
  split
  · split
    · exact Or.inr rfl
    · exact Or.inl rfl
  split
  · exact Or.inr rfl
  · exact Or.inl rfl

theorem successor_of_outcome (hne : report.outcome job ≠ .completed) (now : Time) :
    report.successor cron job now = none :=
  if_neg hne

theorem nextOccurrence_new {start : Time} {child : Job}
    (hchild : nextOccurrence cron job start = some child) :
    child.id = "" ∧ child.idempotencyKey = "" := by
  unfold nextOccurrence at hchild
  split at hchild
  · cases hchild
  split at hchild
  · cases hchild
  · obtain rfl := Option.some.inj hchild
    exact ⟨rfl, rfl⟩

theorem successor_new {now : Time} {child : Job}
    (hchild : report.successor cron job now = some child) :
    child.id = "" ∧ child.idempotencyKey = "" := by
  unfold Report.successor at hchild
  split at hchild
  · exact nextOccurrence_new hchild
  · cases hchild

theorem fields_terminal (hterminal : (report.outcome job).terminal) (now : Time) (rand : ℚ) :
    report.fields job now rand =
      if report.outcome job = .completed then { completedAt := some now }
      else { completedAt := some now, lastError := some (report.lastError job) } := by
  unfold Report.fields
  split
  · rename_i hcompleted
    rw [if_pos hcompleted]
  · rename_i hretrying
    rw [hretrying] at hterminal
    exact absurd hterminal Bool.false_ne_true
  · rename_i hcompleted _
    rw [if_neg hcompleted]

end Outcome

section Calls

/-- How far a call has come: before its read, with the job it has read, with the time and
the random number it has taken, after its write with the job still to be created, or done
without a write. -/
inductive Phase
  | reading
  | read (job : Job)
  | timed (job : Job) (now : Time) (rand : Option ℚ)
  | wrote (child : Option Job)
  | over

def Phase.Ended (φ : Phase) : Prop :=
  φ = .over ∨ φ = .wrote none

def sideCall : Call → Bool
  | .decActiveJobs _ | .clearPendingCancel _ _ | .finishExecution _ _ _ | .emit _ => true
  | _ => false

variable (cron : Cron) (jobID : String) (report : Report)

/-- The discipline of one `HandleResult` call: one read, at most one write of what the
report makes of the job read, and then at most one new job. -/
def settling : Protocol Call Answer Phase where
  Admits
    | .reading, .getJob id => id = jobID
    | .read _, .timeNow => True
    | .timed _ _ none, .randFloat64 => True
    | .timed job now rand, .updateJobStateIf id state fields onlyFrom =>
        id = jobID ∧ onlyFrom = [] ∧ state = report.outcome job ∧
          ∀ y, (∀ z ∈ rand, z = y) → fields = report.fields job now y
    | .wrote child, .createJob job => child = some job ∧ job.id = "" ∧ job.idempotencyKey = ""
    | _, c => sideCall c
  after
    | .reading, .getJob _, .ok job => if job.state.terminal then .over else .read job
    | .reading, .getJob _, .error _ => .over
    | .read job, .timeNow, now => .timed job now none
    | .timed job now _, .randFloat64, rand => .timed job now (some rand)
    | .timed job now _, .updateJobStateIf _ _ _ _, _ => .wrote (report.successor cron job now)
    | .wrote _, .createJob _, _ => .wrote none
    | φ, _, _ => φ

variable {cron jobID report}

theorem admits_side {c : Call} (hc : sideCall c) (φ : Phase) :
    (settling cron jobID report).Admits φ c := by
  cases c with
  | decActiveJobs | clearPendingCancel | finishExecution | emit =>
      cases φ with
      | timed job now rand => cases rand <;> exact hc
      | _ => exact hc
  | _ => cases hc

theorem after_side {c : Call} (hc : sideCall c) (φ : Phase) (answer : Answer c) :
    (settling cron jobID report).after φ c answer = φ := by
  cases c with
  | decActiveJobs | clearPendingCancel | finishExecution | emit => cases φ <;> rfl
  | _ => cases hc

theorem side_follows {α : Type} {c : Call} (hc : sideCall c) {f : Answer c → Prog α}
    {final : Phase → α → Prop} {φ : Phase}
    (hf : ∀ answer, (f answer).Follows (settling cron jobID report) final φ) :
    (ask c >>= f).Follows (settling cron jobID report) final φ := by
  refine (follows_perform ..).mpr ⟨admits_side hc φ, fun answer => ?_⟩
  rw [after_side hc]
  exact hf answer

theorem closeExecution_follows {α : Type} {executionID : String} {state : ExecutionState}
    {result : ExecutionResult} {f : Unit → Prog α} {final : Phase → α → Prop} {φ : Phase}
    (hf : (f ()).Follows (settling cron jobID report) final φ) :
    (closeExecution executionID state result >>= f).Follows (settling cron jobID report)
      final φ := by
  unfold closeExecution
  split
  · exact hf
  · exact side_follows rfl fun _ => hf

theorem update_follows {α : Type} {job : Job} {now : Time} {rand : Option ℚ}
    {state : JobState} {fields : Fields} {f : Except Err Unit → Prog α}
    {final : Phase → α → Prop} (hstate : report.outcome job = state)
    (hfields : ∀ y, (∀ z ∈ rand, z = y) → fields = report.fields job now y)
    (hf : ∀ answer, (f answer).Follows (settling cron jobID report) final
      (.wrote (report.successor cron job now))) :
    (ask (.updateJobStateIf jobID state fields []) >>= f).Follows (settling cron jobID report)
      final (.timed job now rand) := by
  refine (follows_perform ..).mpr ⟨?_, hf⟩
  cases rand <;> exact ⟨rfl, rfl, hstate.symm, hfields⟩

theorem computeBackoff_unjittered {p : RetryPolicy} (hp : p.jitter = false) (attempt : Int)
    (rand rand' : ℚ) : computeBackoff p attempt rand = computeBackoff p attempt rand' := by
  simp only [computeBackoff, hp, Bool.false_eq_true, if_false]

theorem scheduleRetry_follows {job : Job} {executionID workerID : String} {now : Time}
    (hretrying : report.outcome job = .retrying) :
    (scheduleRetry job jobID executionID workerID report.attempt now
      (report.lastError job)).Follows (settling cron jobID report) (fun φ _ => φ.Ended)
      (.timed job now none) := by
  have hsuccessor : report.successor cron job now = none := by
    apply successor_of_outcome
    rw [hretrying]
    exact JobState.noConfusion
  unfold scheduleRetry backoffDelay
  split
  · refine (follows_perform ..).mpr ⟨trivial, fun rand => ?_⟩
    refine update_follows hretrying (fun y hy => ?_) fun _ => side_follows rfl fun _ => ?_
    · obtain rfl := hy rand rfl
      simp only [Report.fields, hretrying]
    · exact Or.inr (congrArg Phase.wrote hsuccessor)
  · rename_i hjitter
    refine update_follows hretrying (fun y _ => ?_) fun _ => side_follows rfl fun _ => ?_
    · simp only [Report.fields, hretrying]
      rw [computeBackoff_unjittered (by simpa using hjitter) report.attempt 0 y]
    · exact Or.inr (congrArg Phase.wrote hsuccessor)

theorem maybeRescheduleRecurring_follows (job : Job) (start : Time) :
    (maybeRescheduleRecurring cron job start).Follows (settling cron jobID report)
      (fun φ _ => φ.Ended) (.wrote (nextOccurrence cron job start)) := by
  unfold maybeRescheduleRecurring nextOccurrence
  split
  · exact Or.inr rfl
  · cases nextRunAt cron job.schedule start with
    | error message => exact Or.inr rfl
    | ok next =>
        refine (follows_perform ..).mpr ⟨⟨rfl, rfl, rfl⟩, fun created => ?_⟩
        cases created with
        | error e => exact Or.inr rfl
        | ok child => exact side_follows rfl fun _ => Or.inr rfl

theorem settleResult_follows (job : Job) (executionID workerID : String) (now : Time) :
    (settleResult cron job jobID executionID workerID report.attempt
      (withReason report.result) now).Follows (settling cron jobID report)
      (fun φ _ => φ.Ended) (.timed job now none) := by
  have hdone : ∀ {φ : Phase}, report.outcome job ≠ .completed →
      φ = .wrote (report.successor cron job now) → φ.Ended := by
    rintro _ hne rfl
    exact Or.inr (congrArg Phase.wrote (successor_of_outcome hne now))
  unfold settleResult
  split
  · rename_i hcancel
    have houtcome : report.outcome job = .cancelled := if_pos hcancel
    refine closeExecution_follows (update_follows houtcome (fun y _ => ?_) fun _ =>
      side_follows rfl fun _ => hdone (houtcome ▸ JobState.noConfusion) rfl)
    have herror : report.lastError job = (withReason report.result).error := by
      refine if_neg fun htimeout => ?_
      rcases hcancel with hreason | hstate
      · rw [hreason] at htimeout
        exact ResultReason.noConfusion htimeout.1
      · exact htimeout.2 hstate
    simp only [Report.fields, houtcome, herror]
  · rename_i hcancel
    split
    · rename_i hsuccess
      have houtcome : report.outcome job = .completed := by
        rw [Report.outcome, if_neg hcancel, if_pos hsuccess]
      refine closeExecution_follows (update_follows houtcome (fun y _ => ?_) fun _ =>
        side_follows rfl fun _ => ?_)
      · simp only [Report.fields, houtcome]
      · rw [Report.successor, if_pos houtcome]
        exact maybeRescheduleRecurring_follows job now
    split
    · rename_i hsuccess htimeout
      have herror : report.lastError job = "timeout" :=
        if_pos ⟨htimeout, fun hstate => hcancel (Or.inr hstate)⟩
      refine closeExecution_follows (side_follows rfl fun _ => ?_)
      split
      · rename_i hattempt
        have houtcome : report.outcome job = .retrying := by
          rw [Report.outcome, if_neg hcancel, if_neg hsuccess, if_pos htimeout, if_pos hattempt]
        rw [← herror]
        exact scheduleRetry_follows houtcome
      · rename_i hattempt
        have houtcome : report.outcome job = .timeout := by
          rw [Report.outcome, if_neg hcancel, if_neg hsuccess, if_pos htimeout, if_neg hattempt]
        refine update_follows houtcome (fun y _ => ?_) fun _ =>
          hdone (houtcome ▸ JobState.noConfusion) rfl
        simp only [Report.fields, houtcome, herror]
    · rename_i hsuccess htimeout
      have herror : report.lastError job = (withReason report.result).error :=
        if_neg fun h => htimeout h.1
      refine closeExecution_follows (side_follows rfl fun _ => ?_)
      split
      · rename_i hattempt
        have houtcome : report.outcome job = .retrying := by
          rw [Report.outcome, if_neg hcancel, if_neg hsuccess, if_neg htimeout, if_pos hattempt]
        rw [← herror]
        exact scheduleRetry_follows houtcome
      · rename_i hattempt
        have houtcome : report.outcome job = .failed := by
          rw [Report.outcome, if_neg hcancel, if_neg hsuccess, if_neg htimeout, if_neg hattempt]
        refine update_follows houtcome (fun y _ => ?_) fun _ =>
          hdone (houtcome ▸ JobState.noConfusion) rfl
        simp only [Report.fields, houtcome, herror]

theorem handleResult_follows (executionID : String) :
    (report.handleResult cron jobID executionID).Follows (settling cron jobID report)
      (fun φ _ => φ.Ended) .reading := by
  refine side_follows rfl fun _ => side_follows rfl fun _ => ?_
  refine (follows_perform ..).mpr ⟨rfl, fun read => ?_⟩
  cases read with
  | error e => exact Or.inl rfl
  | ok job =>
      dsimp only [settling]
      split
      · exact Or.inl rfl
      · refine (follows_perform ..).mpr ⟨trivial, fun now => ?_⟩
        exact follows_bind (settleResult_follows job executionID report.workerID now)
          fun _ _ hended => hended

end Calls

section Steps

variable {cron : Cron} {jobID : String} {report : Report} {φ φ' : Phase} {c : Call}
  {w : World} {d : Draw} {clock : Time → Prop}

def Phase.found : Option Job → Phase
  | none => .over
  | some job => if job.state.terminal then .over else .read job

variable (cron jobID report w d φ φ') in
/-- Everything an admitted call can do to the phase and to the job table. -/
inductive Advance (jobs : JobTable) : Call → Prop
  | side {c : Call} (hc : sideCall c) (hφ' : φ' = φ) (hjobs : jobs = w.store.jobs) :
      Advance jobs c
  | read (hφ : φ = .reading) (hφ' : φ' = .found (w.store.jobs.get? jobID))
      (hjobs : jobs = w.store.jobs) : Advance jobs (.getJob jobID)
  | clock (job : Job) (hφ : φ = .read job) (hφ' : φ' = .timed job d.now none)
      (hjobs : jobs = w.store.jobs) : Advance jobs .timeNow
  | random (job : Job) (now : Time) (hφ : φ = .timed job now none)
      (hφ' : φ' = .timed job now (some d.rand)) (hunit : 0 ≤ d.rand ∧ d.rand < 1)
      (hjobs : jobs = w.store.jobs) : Advance jobs .randFloat64
  | write (job : Job) (now : Time) (rand : Option ℚ) (fields : Fields)
      (hφ : φ = .timed job now rand) (hφ' : φ' = .wrote (report.successor cron job now))
      (hjobs : ∀ stored y, w.store.jobs.get? jobID = some stored → (∀ z ∈ rand, z = y) →
        jobs = w.store.jobs.put
          (applyUpdate stored (report.outcome job) (report.fields job now y) d.now)) :
      Advance jobs (.updateJobStateIf jobID (report.outcome job) fields [])
  | spawn (child : Job) (hφ : φ = .wrote (some child)) (hφ' : φ' = .wrote none)
      (hfresh : Fresh w d.uuid)
      (hjobs : jobs = w.store.jobs.put (stampJob child d.uuid d.now)) :
      Advance jobs (.createJob child)

/-- The call draws the readings `x`. -/
def Readings.Drawn (x : Readings) (d : Draw) : Call → Prop
  | .timeNow => d.now = x.now
  | .randFloat64 => d.rand = x.rand
  | .updateJobStateIf _ _ _ _ => d.now = x.wroteAt
  | .createJob _ => d.uuid = x.uuid ∧ d.now = x.createdAt
  | _ => True

theorem side_call (hc : sideCall c) :
    c.writesJobs = false ∧ c.namesNew = false ∧ (∀ w d, Sound w c d) ∧
      ∀ (x : Readings) (d : Draw), x.Drawn d c := by
  cases c with
  | decActiveJobs | clearPendingCancel | finishExecution | emit =>
      exact ⟨rfl, rfl, fun _ _ => trivial, fun _ _ => trivial⟩
  | _ => cases hc

theorem advance_of_admits (hadmits : (settling cron jobID report).Admits φ c)
    (hallowed : (steady clock).Allowed w c d) :
    Advance cron jobID report φ ((settling cron jobID report).after φ c (step c w d).1) w d
      (step c w d).2.store.jobs c := by
  dsimp only [settling] at hadmits
  split at hadmits
  · obtain rfl := hadmits
    refine .read rfl ?_ ?_
    · simp only [step, guarded_of_none (hallowed.2.1 rfl), Store.getJob]
      cases w.store.jobs.get? _ <;> rfl
    · simp only [step, guarded_of_none (hallowed.2.1 rfl)]
  · exact .clock _ rfl rfl rfl
  · exact .random _ _ rfl rfl hallowed.1 rfl
  · obtain ⟨rfl, rfl, rfl, hfields⟩ := hadmits
    refine .write _ _ _ _ rfl rfl fun stored y hstored hy => ?_
    simp only [step, guarded_of_none (hallowed.2.1 rfl)]
    rw [updateJobStateIf_of_some hstored _ _ (Or.inl rfl), putJob_jobs, hfields y hy]
  · obtain ⟨rfl, hid, hkey⟩ := hadmits
    refine .spawn _ rfl rfl (hallowed.1 hid) ?_
    have hstamped : (stampJob _ d.uuid d.now).idempotencyKey = "" := hkey
    simp only [step, guarded_of_none (hallowed.2.1 rfl), Store.createJob]
    rw [if_pos hstamped, putJob_jobs]
  · exact .side hadmits (after_side hadmits φ _) (jobs_step (side_call hadmits).1 w d)

end Steps

section Alone

/-- What a call that has not written yet knows: the record `found`, and of the readings
`x` those it has taken. -/
def Knows (x : Readings) (found : Option Job) : Phase → Prop
  | .reading => True
  | .read job => found = some job ∧ job.state.terminal = false
  | .timed job now rand =>
      found = some job ∧ job.state.terminal = false ∧ now = x.now ∧ ∀ z ∈ rand, z = x.rand
  | .wrote _ => False
  | .over => ∀ job ∈ found, job.state.terminal

/-- Of the new job that a report leads to: the job still to be created, and the job that
has been created. -/
inductive Spawned (cron : Cron) (report : Report) (w₀ : World) (job : Job) (x : Readings) :
    Option Job → Option Job → Prop
  | pending : Spawned cron report w₀ job x (report.successor cron job x.now) none
  | created {child : Job} (hchild : report.successor cron job x.now = some child)
      (hfresh : Fresh w₀ x.uuid) :
      Spawned cron report w₀ job x none (some (stampJob child x.uuid x.createdAt))

variable {cron : Cron} {jobID : String} {report : Report} {φ : Phase} {c : Call}
  {w₀ w : World} {d : Draw} {x : Readings} {job : Job} {clock : Time → Prop}

theorem spawned_done {rest made : Option Job} (h : Spawned cron report w₀ job x rest made)
    (hrest : rest = none) :
    made = report.child cron job x ∧
      ((report.successor cron job x.now).isSome → Fresh w₀ x.uuid) := by
  cases h with
  | pending =>
      rw [Report.child, hrest]
      exact ⟨rfl, fun h => absurd h Bool.false_ne_true⟩
  | created hchild hfresh =>
      rw [Report.child, hchild]
      exact ⟨rfl, fun _ => hfresh⟩

theorem spawned_pending {child : Job} {made : Option Job}
    (h : Spawned cron report w₀ job x (some child) made) :
    report.successor cron job x.now = some child ∧ made = none := by
  generalize hrest : some child = rest at h
  cases h with
  | pending => exact ⟨rfl, rfl⟩
  | created => cases hrest

theorem stamp_successor {now : Time} {child : Job}
    (hchild : report.successor cron job now = some child) (uuid : String) (createdAt : Time) :
    (stampJob child uuid createdAt).id = uuid :=
  if_pos (successor_new hchild).1

theorem spawned_fresh {rest : Option Job} {child : Job}
    (h : Spawned cron report w₀ job x rest (some child)) : Fresh w₀ child.id := by
  cases h with
  | created hchild hfresh =>
      rw [stamp_successor hchild]
      exact hfresh

theorem knows_found (found : Option Job) : Knows x found (.found found) := by
  cases found with
  | none => exact fun job hjob => absurd hjob.symm (Option.some_ne_none job)
  | some job =>
      cases hterminal : job.state.terminal with
      | true =>
          simp only [Phase.found, hterminal, if_true]
          rintro _ ⟨⟩
          exact hterminal
      | false =>
          simp only [Phase.found, hterminal, Bool.false_eq_true, if_false]
          exact ⟨rfl, hterminal⟩

variable (cron jobID report w₀) in
/-- One call alone, from the world `w₀` on, with the readings `x`. -/
inductive Settling (x : Readings) (φ : Phase) (w : World) : Prop
  | before (hknows : Knows x (w₀.store.jobs.get? jobID) φ)
      (hjobs : w.store.jobs = w₀.store.jobs) (hfresh : ∀ id, Fresh w id ↔ Fresh w₀ id)
  | after (rest : Option Job) (job : Job) (made : Option Job) (hφ : φ = .wrote rest)
      (hjob : w₀.store.jobs.get? jobID = some job) (hlive : job.state.terminal = false)
      (hspawned : Spawned cron report w₀ job x rest made)
      (hjobs : w.store.jobs = addJob (w₀.store.jobs.put (report.record job x)) made)
      (hfresh : made = none → ∀ id, Fresh w id ↔ Fresh w₀ id)

theorem settling_step (hs : Settling cron jobID report w₀ x φ w)
    (hadmits : (settling cron jobID report).Admits φ c)
    (hallowed : (steady clock).Allowed w c d) (hdrawn : x.Drawn d c) :
    Settling cron jobID report w₀ x ((settling cron jobID report).after φ c (step c w d).1)
      (step c w d).2 := by
  have hnames : c.namesNew = false → ∀ id, Fresh (step c w d).2 id ↔ Fresh w id :=
    fun hc => fresh_step hc w d
  have hadvance := advance_of_admits hadmits hallowed
  cases hs with
  | before hknows hjobs₀ hfresh₀ =>
      have hfresh : c.namesNew = false → ∀ id, Fresh (step c w d).2 id ↔ Fresh w₀ id :=
        fun hc id => (hnames hc id).trans (hfresh₀ id)
      cases hadvance with
      | side hc hφ' hjobs =>
          rw [hφ']
          exact .before hknows (hjobs.trans hjobs₀) (hfresh (side_call hc).2.1)
      | read hφ hφ' hjobs =>
          rw [hφ', hjobs₀]
          exact .before (knows_found _) (hjobs.trans hjobs₀) (hfresh rfl)
      | clock job hφ hφ' hjobs =>
          subst hφ
          rw [hφ']
          refine .before ⟨hknows.1, hknows.2, hdrawn, ?_⟩ (hjobs.trans hjobs₀) (hfresh rfl)
          exact fun z hz => absurd hz.symm (Option.some_ne_none z)
      | random job now hφ hφ' hunit hjobs =>
          subst hφ
          obtain ⟨hjob, hlive, hnow, -⟩ := hknows
          rw [hφ']
          refine .before ⟨hjob, hlive, hnow, ?_⟩ (hjobs.trans hjobs₀) (hfresh rfl)
          rintro _ ⟨⟩
          exact hdrawn
      | write job now rand fields hφ hφ' hjobs =>
          subst hφ
          obtain ⟨hjob, hlive, rfl, hrand⟩ := hknows
          refine .after _ job none hφ' hjob hlive .pending ?_ fun _ => hfresh rfl
          rw [hjobs job x.rand (by rw [hjobs₀, hjob]) hrand, hjobs₀, hdrawn]
          rfl
      | spawn child hφ hφ' hfresh hjobs =>
          subst hφ
          exact hknows.elim
  | after rest job made hφ₀ hjob hlive hspawned hjobs₀ hfresh₀ =>
      subst hφ₀
      cases hadvance with
      | side hc hφ' hjobs =>
          exact .after rest job made hφ' hjob hlive hspawned (hjobs.trans hjobs₀)
            fun hmade id => (hnames (side_call hc).2.1 id).trans (hfresh₀ hmade id)
      | spawn child hφ hφ' hfresh hjobs =>
          obtain rfl := Phase.wrote.inj hφ
          obtain ⟨hchild, rfl⟩ := spawned_pending hspawned
          refine .after none job _ hφ' hjob hlive (.created hchild ?_) ?_ ?_
          · rw [← hdrawn.1]
            exact (hfresh₀ rfl _).mp hfresh
          · rw [hjobs, hjobs₀, hdrawn.1, hdrawn.2]
            rfl
          · exact fun hmade => absurd hmade (Option.some_ne_none _)
      | read hφ => cases hφ
      | clock job hφ => cases hφ
      | random job now hφ => cases hφ
      | write job now rand fields hφ => cases hφ

/-- Whatever an admitted call draws, some readings fit it. -/
theorem exists_readings (hs : Settling cron jobID report w₀ x φ w)
    (hadmits : (settling cron jobID report).Admits φ c)
    (hallowed : (steady clock).Allowed w c d) :
    ∃ x', Settling cron jobID report w₀ x' φ w ∧ x'.Drawn d c := by
  cases advance_of_admits hadmits hallowed with
  | side hc => exact ⟨x, hs, (side_call hc).2.2.2 x d⟩
  | read => exact ⟨x, hs, trivial⟩
  | clock job hφ =>
      subst hφ
      cases hs with
      | before hknows hjobs hfresh =>
          exact ⟨{ x with now := d.now }, .before hknows hjobs hfresh, rfl⟩
      | after rest job made hφ => cases hφ
  | random job now hφ hφ' hunit =>
      subst hφ
      cases hs with
      | before hknows hjobs hfresh =>
          obtain ⟨hjob, hlive, hnow, -⟩ := hknows
          refine ⟨{ x with rand := d.rand, unit := hunit }, .before ?_ hjobs hfresh, rfl⟩
          exact ⟨hjob, hlive, hnow, fun z hz => absurd hz.symm (Option.some_ne_none z)⟩
      | after rest job made hφ => cases hφ
  | write job now rand fields hφ =>
      subst hφ
      cases hs with
      | before hknows hjobs hfresh =>
          exact ⟨{ x with wroteAt := d.now }, .before hknows hjobs hfresh, rfl⟩
      | after rest job made hφ => cases hφ
  | spawn child hφ hφ' hnew =>
      subst hφ
      cases hs with
      | before hknows => exact hknows.elim
      | after rest job made hφ hjob hlive hspawned hjobs hfresh =>
          obtain rfl := Phase.wrote.inj hφ
          obtain ⟨hchild, rfl⟩ := spawned_pending hspawned
          refine ⟨{ x with uuid := d.uuid, createdAt := d.now }, ?_, rfl, rfl⟩
          refine .after _ job none rfl hjob hlive ?_ hjobs hfresh
          rw [← hchild]
          exact .pending

/-- An admitted call can draw the readings `x`. -/
theorem exists_draw_of_readings
    (hnew : ∀ job, w₀.store.jobs.get? jobID = some job →
      (report.successor cron job x.now).isSome → Fresh w₀ x.uuid)
    (hs : Settling cron jobID report w₀ x φ w)
    (hadmits : (settling cron jobID report).Admits φ c) :
    ∃ d, memory.Allowed w c d ∧ x.Drawn d c := by
  dsimp only [settling] at hadmits
  split at hadmits
  · exact ⟨{}, ⟨trivial, rfl⟩, trivial⟩
  · exact ⟨{ now := x.now }, ⟨trivial, rfl⟩, rfl⟩
  · exact ⟨{ rand := x.rand }, ⟨x.unit, rfl⟩, rfl⟩
  · exact ⟨{ now := x.wroteAt }, ⟨trivial, rfl⟩, rfl⟩
  · rename_i child created
    obtain ⟨rfl, -, -⟩ := hadmits
    refine ⟨{ uuid := x.uuid, now := x.createdAt }, ⟨fun _ => ?_, rfl⟩, rfl, rfl⟩
    cases hs with
    | before hknows => exact hknows.elim
    | after rest job made hφ hjob hlive hspawned hjobs hfresh =>
        obtain rfl := Phase.wrote.inj hφ
        obtain ⟨hchild, rfl⟩ := spawned_pending hspawned
        refine (hfresh rfl _).mpr (hnew job hjob ?_)
        rw [hchild]
        rfl
  · obtain ⟨-, -, hsound, hdrawn⟩ := side_call hadmits
    exact ⟨{}, ⟨hsound w {}, rfl⟩, hdrawn x {}⟩

/-- Where one call alone ends. -/
theorem settling_ended (hs : Settling cron jobID report w₀ x φ w) (hφ : φ.Ended) :
    ((∀ job ∈ w₀.store.jobs.get? jobID, job.state.terminal) ∧
        w.store.jobs = w₀.store.jobs) ∨
      ∃ job, w₀.store.jobs.get? jobID = some job ∧ job.state.terminal = false ∧
        w.store.jobs = report.settle cron job x w₀.store.jobs ∧
        ((report.successor cron job x.now).isSome → Fresh w₀ x.uuid) ∧
        (report.successor cron job x.now = none → ∀ id, Fresh w id ↔ Fresh w₀ id) := by
  cases hs with
  | before hknows hjobs hfresh =>
      rcases hφ with rfl | rfl
      · exact Or.inl ⟨hknows, hjobs⟩
      · exact hknows.elim
  | after rest job made hrest hjob hlive hspawned hjobs hfresh =>
      subst hrest
      rcases hφ with hφ | hφ
      · cases hφ
      · obtain ⟨hmade, hnew⟩ := spawned_done hspawned (Phase.wrote.inj hφ)
        rw [hmade] at hjobs hfresh
        refine Or.inr ⟨job, hjob, hlive, hjobs, hnew, fun hnone => hfresh ?_⟩
        rw [Report.child, hnone]
        rfl

theorem settling_start (x : Readings) (w : World) :
    Settling cron jobID report w x .reading w :=
  .before trivial rfl fun _ => Iff.rfl

theorem settling_of_runs {executionID : String} {ds : List Draw} {value : Except Err Unit}
    (hrun : (steady clock).Runs (report.handleResult cron jobID executionID) w₀ ds value w) :
    ∃ x φ, Settling cron jobID report w₀ x φ w ∧ φ.Ended := by
  have hcall : ∀ {w φ c d}, (∃ x, Settling cron jobID report w₀ x φ w) →
      (settling cron jobID report).Admits φ c → (steady clock).Allowed w c d →
      ∃ x, Settling cron jobID report w₀ x
        ((settling cron jobID report).after φ c (step c w d).1) (step c w d).2 := by
    rintro w φ c d ⟨x, hs⟩ hadmits hallowed
    obtain ⟨x', hs', hdrawn⟩ := exists_readings hs hadmits hallowed
    exact ⟨x', settling_step hs' hadmits hallowed hdrawn⟩
  obtain ⟨φ, ⟨x, hs⟩, hended⟩ := ensures_of_follows hcall (handleResult_follows executionID)
    ⟨default, settling_start default w₀⟩ ds value w hrun
  exact ⟨x, φ, hs, hended⟩

theorem settled_of_runs {executionID : String} {ds : List Draw} {value : Except Err Unit}
    (hjob : w₀.store.jobs.get? jobID = some job) (hlive : job.state.terminal = false)
    (hrun : (steady clock).Runs (report.handleResult cron jobID executionID) w₀ ds value w) :
    ∃ x, w.store.jobs = report.settle cron job x w₀.store.jobs ∧
      ((report.successor cron job x.now).isSome → Fresh w₀ x.uuid) := by
  obtain ⟨x, φ, hs, hended⟩ := settling_of_runs hrun
  rcases settling_ended hs hended with ⟨hterminal, -⟩ | ⟨job', hjob', -, hjobs, hnew, -⟩
  · rw [hterminal job hjob] at hlive
    cases hlive
  · obtain rfl := Option.some.inj (hjob.symm.trans hjob')
    exact ⟨x, hjobs, hnew⟩

theorem unchanged_of_runs {executionID : String} {ds : List Draw} {value : Except Err Unit}
    (hterminal : ∀ job ∈ w₀.store.jobs.get? jobID, job.state.terminal)
    (hrun : (steady clock).Runs (report.handleResult cron jobID executionID) w₀ ds value w) :
    w.store.jobs = w₀.store.jobs := by
  obtain ⟨x, φ, hs, hended⟩ := settling_of_runs hrun
  rcases settling_ended hs hended with ⟨-, hjobs⟩ | ⟨job, hjob, hlive, -⟩
  · exact hjobs
  · rw [hterminal job hjob] at hlive
    cases hlive

/-- A live job can be settled with any given readings. -/
theorem exists_runs_settle (executionID : String)
    (hjob : w₀.store.jobs.get? jobID = some job) (hlive : job.state.terminal = false)
    (hnew : (report.successor cron job x.now).isSome → Fresh w₀ x.uuid) :
    ∃ ds value w, memory.Runs (report.handleResult cron jobID executionID) w₀ ds value w ∧
      w.store.jobs = report.settle cron job x w₀.store.jobs ∧
      (report.successor cron job x.now = none → ∀ id, Fresh w id ↔ Fresh w₀ id) := by
  have hnew' : ∀ job', w₀.store.jobs.get? jobID = some job' →
      (report.successor cron job' x.now).isSome → Fresh w₀ x.uuid := by
    intro job' hjob'
    obtain rfl := Option.some.inj (hjob.symm.trans hjob')
    exact hnew
  have hcall : ∀ {w φ c}, Settling cron jobID report w₀ x φ w →
      (settling cron jobID report).Admits φ c → ∃ d, memory.Allowed w c d ∧
      Settling cron jobID report w₀ x
        ((settling cron jobID report).after φ c (memory.step c w d).1) (memory.step c w d).2 := by
    intro w φ c hs hadmits
    obtain ⟨d, hallowed, hdrawn⟩ := exists_draw_of_readings hnew' hs hadmits
    exact ⟨d, hallowed, settling_step hs hadmits (steady_of_memory hallowed) hdrawn⟩
  obtain ⟨ds, value, w, φ, hrun, hs, hended⟩ := exists_runs_of_follows hcall
    (handleResult_follows executionID) (settling_start x w₀)
  refine ⟨ds, value, w, hrun, ?_⟩
  rcases settling_ended hs hended with ⟨hterminal, -⟩ | ⟨job', hjob', -, hjobs, -, hfresh⟩
  · rw [hterminal job hjob] at hlive
    cases hlive
  · obtain rfl := Option.some.inj (hjob.symm.trans hjob')
    exact ⟨hjobs, hfresh⟩

theorem get?_addJob {t : JobTable} {made : Option Job} {id : String}
    (hne : ∀ child ∈ made, child.id ≠ id) : (addJob t made).get? id = t.get? id := by
  cases made with
  | none => rfl
  | some child => exact get?_put_of_ne t (hne child rfl).symm

theorem get?_written {job record : Job} {made : Option Job}
    (hjob : w₀.store.jobs.get? jobID = some job) (hrecord : record.id = job.id)
    (hfresh : ∀ child ∈ made, Fresh w₀ child.id) :
    (addJob (w₀.store.jobs.put record) made).get? jobID = some record := by
  obtain rfl := key_of_get? hjob
  rw [get?_addJob fun child hchild => fresh_ne (hfresh child hchild) hjob, ← hrecord]
  exact get?_put_self _ record

theorem child_fresh (hnew : (report.successor cron job x.now).isSome → Fresh w x.uuid) :
    ∀ child ∈ report.child cron job x, child.id = x.uuid ∧ Fresh w x.uuid := by
  intro child hchild
  obtain ⟨successor, hsuccessor, rfl⟩ := Option.map_eq_some_iff.mp hchild
  exact ⟨stamp_successor hsuccessor _ _, hnew (by rw [hsuccessor]; rfl)⟩

theorem get?_settle (hjob : w.store.jobs.get? jobID = some job)
    (hnew : (report.successor cron job x.now).isSome → Fresh w x.uuid) :
    (report.settle cron job x w.store.jobs).get? jobID = some (report.record job x) := by
  refine get?_written hjob rfl fun child hchild => ?_
  obtain ⟨hid, hfresh⟩ := child_fresh hnew child hchild
  rwa [hid]

end Alone

end Chronos.ResultRecords
