import Chronos.SharedState

namespace Chronos.WorkerProcess

open Chronos.Domain
open Chronos.SharedState

inductive ContextErr
  | canceled
  | deadlineExceeded
  deriving DecidableEq, Repr

/-- A context made by `context.WithTimeout`. -/
structure Context where
  deadline : Time
  err : Option ContextErr := none
  deriving DecidableEq, Repr

def Context.errAt (ctx : Context) (now : Time) : Option ContextErr :=
  ctx.err.or (if ctx.deadline ≤ now then some .deadlineExceeded else none)

/-- The context's cancel function: a context that is done keeps its error. -/
def Context.cancel (ctx : Context) (now : Time) : Context :=
  { ctx with err := (ctx.errAt now).or (some .canceled) }

theorem err_of_errAt {ctx : Context} {now : Time} (herr : ctx.errAt now = some .canceled) :
    ctx.err = some .canceled := by
  unfold Context.errAt at herr
  cases hctx : ctx.err with
  | some err => rwa [hctx, Option.some_or] at herr
  | none =>
      rw [hctx, Option.none_or] at herr
      split at herr
      · cases herr
      · cases herr

def ctxResult (duration : Duration) : ContextErr → ExecutionResult
  | .deadlineExceeded =>
      { success := false, error := "timeout", retryable := true, duration := duration,
        reason := .timeout }
  | .canceled =>
      { success := false, error := "cancelled", duration := duration, reason := .cancelled }

/-- What `Execute` may return: a result of the handler's own, or the one for the end of
its context. -/
inductive Executes : Option ContextErr → ExecutionResult → Prop
  | own {err : Option ContextErr} {result : ExecutionResult}
      (hreason : result.reason ≠ .cancelled) : Executes err result
  | ended (err : ContextErr) (duration : Duration) :
      Executes (some err) (ctxResult duration err)

theorem canceled_of_executes {err : Option ContextErr} {result : ExecutionResult}
    (hresult : Executes err result) (hreason : result.reason = .cancelled) :
    err = some .canceled := by
  cases hresult with
  | own hother => exact absurd hreason hother
  | ended err duration =>
      cases err with
      | canceled => rfl
      | deadlineExceeded => cases hreason

/-- The goroutine of one accepted push.  It stays until its report is through, also once
`Execute` has returned. -/
structure Execution where
  serial : Nat
  request : ExecuteJobRequest
  context : Context
  returned : Bool := false
  deriving DecidableEq, Repr

/-- A worker: its goroutines, and the cancel functions it keeps by job. -/
structure Process where
  capacity : Int
  next : Nat
  running : List Execution
  cancels : Finmap fun _ : String => Nat
  issued : ∀ e ∈ running, e.serial < next
  owned : ∀ {jobID serial}, cancels.lookup jobID = some serial →
    serial < next ∧ ∀ e ∈ running, e.serial = serial → e.request.jobID = jobID

def Process.new (capacity : Int) : Process where
  capacity := capacity
  next := 0
  running := []
  cancels := ∅
  issued := fun _ h => absurd h List.not_mem_nil
  owned := by
    intro jobID serial hlookup
    rw [Finmap.lookup_empty] at hlookup
    cases hlookup

def executionTimeout (request : ExecuteJobRequest) : Duration :=
  let timeout := wrap64 (request.timeoutMs * 1000000)
  if timeout ≤ 0 then 30 * second else timeout

def Process.executeJob (p : Process) (request : ExecuteJobRequest) (now : Time) :
    ExecuteJobResponse × Process :=
  if p.capacity ≤ p.running.length then
    ({ accepted := false, message := "at capacity" }, p)
  else
    ({ accepted := true },
      { p with
        next := p.next + 1
        running :=
          { serial := p.next, request := request,
            context := { deadline := now + executionTimeout request } } :: p.running
        -- the entry of an earlier execution of the job is overwritten
        cancels := p.cancels.insert request.jobID p.next
        issued := by
          intro e he
          rcases List.mem_cons.mp he with rfl | hold
          · exact Nat.lt_succ_self p.next
          · exact Nat.lt_succ_of_lt (p.issued e hold)
        owned := by
          intro jobID serial hlookup
          by_cases hjobID : jobID = request.jobID
          · subst hjobID
            obtain rfl := Option.some.inj ((Finmap.lookup_insert _).symm.trans hlookup)
            refine ⟨Nat.lt_succ_self _, fun e he hserial => ?_⟩
            rcases List.mem_cons.mp he with rfl | hold
            · rfl
            · exact absurd hserial (p.issued e hold).ne
          · rw [Finmap.lookup_insert_of_ne _ hjobID] at hlookup
            obtain ⟨hless, hrunning⟩ := p.owned hlookup
            refine ⟨Nat.lt_succ_of_lt hless, fun e he hserial => ?_⟩
            rcases List.mem_cons.mp he with rfl | hold
            · exact absurd hserial hless.ne'
            · exact hrunning e hold hserial })

theorem amended_same (serial : Nat) {f : Execution → Execution}
    (hf : ∀ e, (f e).serial = e.serial ∧ (f e).request = e.request) (e : Execution) :
    (if e.serial = serial then f e else e).serial = e.serial ∧
      (if e.serial = serial then f e else e).request = e.request := by
  split
  · exact hf e
  · exact ⟨rfl, rfl⟩

/-- Changes the state of one goroutine. -/
def Process.amend (p : Process) (serial : Nat) (f : Execution → Execution)
    (hf : ∀ e, (f e).serial = e.serial ∧ (f e).request = e.request) : Process :=
  { p with
    running := p.running.map fun e => if e.serial = serial then f e else e
    issued := by
      intro e he
      obtain ⟨old, hold, rfl⟩ := List.mem_map.mp he
      rw [(amended_same _ hf old).1]
      exact p.issued old hold
    owned := by
      intro jobID serial' hlookup
      obtain ⟨hless, hrunning⟩ := p.owned hlookup
      refine ⟨hless, fun e he hserial => ?_⟩
      obtain ⟨old, hold, rfl⟩ := List.mem_map.mp he
      rw [(amended_same _ hf old).1] at hserial
      rw [(amended_same _ hf old).2]
      exact hrunning old hold hserial }

theorem cancelled_same (now : Time) (e : Execution) :
    { e with context := e.context.cancel now }.serial = e.serial ∧
      { e with context := e.context.cancel now }.request = e.request :=
  ⟨rfl, rfl⟩

def Process.cancelLocal (p : Process) (jobID : String) (now : Time) : Process :=
  match p.cancels.lookup jobID with
  | none => p
  | some serial =>
      p.amend serial (fun e => { e with context := e.context.cancel now }) (cancelled_same now)

def Process.markReturned (p : Process) (serial : Nat) : Process :=
  p.amend serial (fun e => { e with returned := true }) fun _ => ⟨rfl, rfl⟩

/-- The deferred calls of a goroutine.  The entry of its job is deleted, whichever
execution made it. -/
def Process.exit (p : Process) (e : Execution) : Process :=
  { p with
    running := p.running.filter fun other => other.serial ≠ e.serial
    cancels := p.cancels.erase e.request.jobID
    issued := fun other hother => p.issued other (List.mem_of_mem_filter hother)
    owned := by
      intro jobID serial hlookup
      by_cases hjobID : jobID = e.request.jobID
      · rw [hjobID, Finmap.lookup_erase] at hlookup
        cases hlookup
      · rw [Finmap.lookup_erase_ne hjobID] at hlookup
        obtain ⟨hless, hrunning⟩ := p.owned hlookup
        exact ⟨hless, fun other hother => hrunning other (List.mem_of_mem_filter hother)⟩ }

structure ReportResultRequest where
  jobID : String
  executionID : String
  workerID : String
  attempt : Int
  success : Bool
  output : Option RawMessage
  error : String
  retryable : Bool
  durationMs : Int
  reason : ResultReason
  deriving DecidableEq, Repr

def report (workerID : String) (request : ExecuteJobRequest) (result : ExecutionResult) :
    ReportResultRequest where
  jobID := request.jobID
  executionID := request.executionID
  workerID := workerID
  attempt := request.attempt
  success := result.success
  output := result.output
  error := result.error
  retryable := result.retryable
  durationMs := Int.tdiv result.duration 1000000
  reason :=
    if result.reason = .unset then if result.success then .success else .failed
    else result.reason

theorem report_cancelled {workerID : String} {request : ExecuteJobRequest}
    {result : ExecutionResult} (hreason : (report workerID request result).reason = .cancelled) :
    result.reason = .cancelled := by
  unfold report at hreason
  split at hreason
  · split at hreason
    · cases hreason
    · cases hreason
  · exact hreason

/-- An execution of the job has been cancelled. -/
def Stopped (p : Process) (jobID : String) : Prop :=
  ∃ e ∈ p.running, e.request.jobID = jobID ∧ e.context.err = some .canceled

section Stopped

variable {p : Process} {id : String}

theorem stopped_executeJob {request : ExecuteJobRequest} {now : Time}
    (h : Stopped (p.executeJob request now).2 id) : Stopped p id := by
  unfold Process.executeJob at h
  split at h
  · exact h
  · obtain ⟨e, he, hid, herr⟩ := h
    rcases List.mem_cons.mp he with rfl | hold
    · cases herr
    · exact ⟨e, hold, hid, herr⟩

theorem stopped_cancelLocal {jobID : String} {now : Time}
    (h : Stopped (p.cancelLocal jobID now) id) : Stopped p id ∨ id = jobID := by
  unfold Process.cancelLocal at h
  split at h
  · exact Or.inl h
  · rename_i serial hlookup
    obtain ⟨e, he, hid, herr⟩ := h
    obtain ⟨old, hold, rfl⟩ := List.mem_map.mp he
    split at hid
    · rename_i hserial
      exact Or.inr (hid.symm.trans ((p.owned hlookup).2 old hold hserial))
    · rename_i hserial
      rw [if_neg hserial] at herr
      exact Or.inl ⟨old, hold, hid, herr⟩

theorem cancelLocal_of_none {jobID : String} (hnone : p.cancels.lookup jobID = none)
    (now : Time) : p.cancelLocal jobID now = p := by
  unfold Process.cancelLocal
  rw [hnone]

theorem stopped_cancelAll {ids : List String} {now : Time}
    (h : Stopped (ids.foldl (fun p jobID => p.cancelLocal jobID now) p) id) :
    Stopped p id ∨ id ∈ ids := by
  induction ids generalizing p with
  | nil => exact Or.inl h
  | cons jobID rest ih =>
      rcases ih h with hstopped | hrest
      · rcases stopped_cancelLocal hstopped with hold | rfl
        · exact Or.inl hold
        · exact Or.inr List.mem_cons_self
      · exact Or.inr (List.mem_cons_of_mem _ hrest)

theorem stopped_markReturned {serial : Nat} (h : Stopped (p.markReturned serial) id) :
    Stopped p id := by
  obtain ⟨e, he, hid, herr⟩ := h
  obtain ⟨old, hold, rfl⟩ := List.mem_map.mp he
  refine ⟨old, hold, ?_⟩
  split at hid
  · rename_i hserial
    rw [if_pos hserial] at herr
    exact ⟨hid, herr⟩
  · rename_i hserial
    rw [if_neg hserial] at herr
    exact ⟨hid, herr⟩

theorem stopped_exit {e : Execution} (h : Stopped (p.exit e) id) : Stopped p id := by
  obtain ⟨other, hother, hstopped⟩ := h
  exact ⟨other, List.mem_of_mem_filter hother, hstopped⟩

end Stopped

end Chronos.WorkerProcess
