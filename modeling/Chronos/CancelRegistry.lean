import Chronos.Library.Histories
import Chronos.Operations
import Chronos.WorkerProcess

namespace Chronos.CancelRegistry

open Chronos.Domain
open Chronos.Library.Histories
open Chronos.SharedState
open Chronos.WorkerProcess

/-- How far a `CancelJob` handler is.  It looks the job up once for its answer, once more
for the cancel function, and calls that function outside the lock. -/
inductive Phase
  | received
  | looked (existed : Bool)
  | fetched (existed : Bool) (serial : Option Nat)
  | answered (existed : Bool)
  deriving DecidableEq, Repr

/-- A `CancelJob` request.  `before` is the number of executions the worker had accepted
when the request came in. -/
structure CancelCall where
  jobID : String
  executionID : String
  before : Nat
  phase : Phase := .received
  deriving DecidableEq, Repr

structure Worker where
  process : Process
  calls : List CancelCall

def Worker.new (capacity : Int) : Worker := ⟨.new capacity, []⟩

def Worker.advance (s : Worker) (index : Nat) (call : CancelCall) (phase : Phase) : Worker :=
  { s with calls := s.calls.set index { call with phase := phase } }

/-- The call of a cancel function. -/
def cancelSerial (p : Process) (now : Time) : Option Nat → Process
  | none => p
  | some serial =>
      p.amend serial (fun e => { e with context := e.context.cancel now }) (cancelled_same now)

theorem cancelLocal_eq (p : Process) (jobID : String) (now : Time) :
    p.cancelLocal jobID now = cancelSerial p now (p.cancels.lookup jobID) := by
  unfold Process.cancelLocal
  cases p.cancels.lookup jobID <;> rfl

inductive Event
  | accepted (request : ExecuteJobRequest) (now : Time)
  | returned (serial : Nat)
  | exited (serial : Nat)
  | received (jobID executionID : String)
  | looked (index : Nat)
  | fetched (index : Nat)
  | cancelled (index : Nat) (now : Time)
  deriving DecidableEq, Repr

/-- The critical sections of a worker in any order.  Between its return from the executor
and its exit, an execution sends its report.  The capacity is only read when a push is
accepted. -/
inductive Step : Worker → Event → Worker → Prop
  | accepted (s : Worker) (request : ExecuteJobRequest) (now : Time)
      (haccepted : (s.process.executeJob request now).1.accepted) :
      Step s (.accepted request now) { s with process := (s.process.executeJob request now).2 }
  | returned {s : Worker} {e : Execution} (he : e ∈ s.process.running)
      (hfirst : e.returned = false) :
      Step s (.returned e.serial) { s with process := s.process.markReturned e.serial }
  | exited {s : Worker} {e : Execution} (he : e ∈ s.process.running) (hreturned : e.returned) :
      Step s (.exited e.serial) { s with process := s.process.exit e }
  | received (s : Worker) (jobID executionID : String) :
      Step s (.received jobID executionID)
        { s with calls := s.calls ++ [⟨jobID, executionID, s.process.next, .received⟩] }
  | looked {s : Worker} {index : Nat} {call : CancelCall} (hcall : s.calls[index]? = some call)
      (hphase : call.phase = .received) :
      Step s (.looked index)
        (s.advance index call (.looked (s.process.cancels.lookup call.jobID).isSome))
  | fetched {s : Worker} {index : Nat} {call : CancelCall} {existed : Bool}
      (hcall : s.calls[index]? = some call) (hphase : call.phase = .looked existed) :
      Step s (.fetched index)
        (s.advance index call (.fetched existed (s.process.cancels.lookup call.jobID)))
  | cancelled {s : Worker} {index : Nat} {call : CancelCall} {existed : Bool}
      {serial : Option Nat} (now : Time) (hcall : s.calls[index]? = some call)
      (hphase : call.phase = .fetched existed serial) :
      Step s (.cancelled index now)
        { s.advance index call (.answered existed) with
          process := cancelSerial s.process now serial }

/-- A push is accepted only when no execution of the same job is left on the worker. -/
def Alone : Entry Worker Event → Prop
  | ⟨s, .accepted request _, _⟩ => ∀ e ∈ s.process.running, e.request.jobID ≠ request.jobID
  | _ => True

/-- What a handler has found about every execution of its job that was there when the
request came in and is still there. -/
def Found (p : Process) (call : CancelCall) : Prop :=
  ∀ e ∈ p.running, e.request.jobID = call.jobID → e.serial < call.before →
    match call.phase with
    | .received => True
    | .looked existed => existed
    | .fetched existed serial => existed ∧ serial = some e.serial
    | .answered _ => True

/-- Every execution has the entry of its job, and every handler has found it. -/
structure Tracks (s : Worker) : Prop where
  entry : ∀ e ∈ s.process.running, s.process.cancels.lookup e.request.jobID = some e.serial
  found : ∀ call ∈ s.calls, Found s.process call
  before : ∀ call ∈ s.calls, call.before ≤ s.process.next

section Steps

variable {s : Worker} {call : CancelCall} {p q : Process}

/-- What the other critical sections do to the executions leaves what was found. -/
theorem found_of_running (hfound : Found p call)
    (hrunning : ∀ e ∈ q.running, e.serial < call.before →
      ∃ old ∈ p.running, old.serial = e.serial ∧ old.request = e.request) : Found q call := by
  intro e he hjob hbefore
  obtain ⟨old, hold, hserial, hrequest⟩ := hrunning e he hbefore
  have h := hfound old hold (by rw [hrequest, hjob]) (by rwa [hserial])
  rwa [hserial] at h

theorem tracks_amend {serial : Nat} {f : Execution → Execution}
    (hf : ∀ e, (f e).serial = e.serial ∧ (f e).request = e.request) (htracks : Tracks s) :
    Tracks { s with process := s.process.amend serial f hf } := by
  have hsame : ∀ e ∈ (s.process.amend serial f hf).running,
      ∃ old ∈ s.process.running, old.serial = e.serial ∧ old.request = e.request := by
    intro e he
    obtain ⟨old, hold, rfl⟩ := List.mem_map.mp he
    obtain ⟨hserial, hrequest⟩ := amended_same serial hf old
    exact ⟨old, hold, hserial.symm, hrequest.symm⟩
  refine ⟨fun e he => ?_, fun call hcall => ?_, htracks.before⟩
  · obtain ⟨old, hold, hserial, hrequest⟩ := hsame e he
    rw [← hserial, ← hrequest]
    exact htracks.entry old hold
  · exact found_of_running (htracks.found call hcall) fun e he _ => hsame e he

theorem tracks_executeJob {request : ExecuteJobRequest} {now : Time}
    (halone : ∀ e ∈ s.process.running, e.request.jobID ≠ request.jobID) (htracks : Tracks s) :
    Tracks { s with process := (s.process.executeJob request now).2 } := by
  unfold Process.executeJob
  split
  · exact htracks
  · refine ⟨fun e he => ?_, fun call hcall => ?_, fun call hcall => ?_⟩
    · rcases List.mem_cons.mp he with rfl | hold
      · exact Finmap.lookup_insert _
      · exact (Finmap.lookup_insert_of_ne _ (halone e hold)).trans (htracks.entry e hold)
    · refine found_of_running (htracks.found call hcall) fun e he hbefore => ?_
      rcases List.mem_cons.mp he with rfl | hold
      · exact absurd hbefore (not_lt.mpr (htracks.before call hcall))
      · exact ⟨e, hold, rfl, rfl⟩
    · exact Nat.le_succ_of_le (htracks.before call hcall)

/-- Two executions of one job are one: they have the same entry. -/
theorem serial_eq_of_jobID (htracks : Tracks s) {e e' : Execution}
    (he : e ∈ s.process.running) (he' : e' ∈ s.process.running)
    (hjob : e.request.jobID = e'.request.jobID) : e.serial = e'.serial := by
  have hentry := htracks.entry e he
  rw [hjob, htracks.entry e' he'] at hentry
  exact (Option.some.inj hentry).symm

theorem tracks_exit {e : Execution} (he : e ∈ s.process.running) (htracks : Tracks s) :
    Tracks { s with process := s.process.exit e } := by
  refine ⟨fun other hother => ?_, fun call hcall => ?_, htracks.before⟩
  · obtain ⟨hmem, hserial⟩ := List.mem_filter.mp hother
    have hjob : other.request.jobID ≠ e.request.jobID := fun h =>
      of_decide_eq_true hserial (serial_eq_of_jobID htracks hmem he h)
    exact (Finmap.lookup_erase_ne hjob).trans (htracks.entry other hmem)
  · refine found_of_running (htracks.found call hcall) fun other hother _ => ?_
    exact ⟨other, List.mem_of_mem_filter hother, rfl, rfl⟩

theorem tracks_advance {index : Nat} {phase : Phase} (hcall : s.calls[index]? = some call)
    (hfound : Found s.process { call with phase := phase }) (htracks : Tracks s) :
    Tracks (s.advance index call phase) := by
  have hcases : ∀ other ∈ (s.advance index call phase).calls,
      other ∈ s.calls ∨ other = { call with phase := phase } :=
    fun _ h => List.mem_or_eq_of_mem_set h
  refine ⟨htracks.entry, fun other hother => ?_, fun other hother => ?_⟩
  · rcases hcases other hother with hold | rfl
    · exact htracks.found other hold
    · exact hfound
  · rcases hcases other hother with hold | rfl
    · exact htracks.before other hold
    · exact htracks.before call (List.mem_of_getElem? hcall)

theorem tracks_cancelSerial {serial : Option Nat} {now : Time} (htracks : Tracks s) :
    Tracks { s with process := cancelSerial s.process now serial } := by
  cases serial with
  | none => exact htracks
  | some serial =>
      exact tracks_amend (f := fun e => { e with context := e.context.cancel now })
        (cancelled_same now) htracks

theorem tracks_step {s' : Worker} {event : Event} (htracks : Tracks s)
    (hstep : Step s event s') (halone : Alone ⟨s, event, s'⟩) : Tracks s' := by
  cases hstep with
  | accepted request now _ => exact tracks_executeJob halone htracks
  | returned he _ => exact tracks_amend _ htracks
  | exited he _ => exact tracks_exit he htracks
  | received jobID executionID =>
      refine ⟨htracks.entry, fun call hcall => ?_, fun call hcall => ?_⟩
      · rcases List.mem_append.mp hcall with hold | hnew
        · exact htracks.found call hold
        · rw [List.mem_singleton.mp hnew]
          exact fun _ _ _ _ => trivial
      · rcases List.mem_append.mp hcall with hold | hnew
        · exact htracks.before call hold
        · rw [List.mem_singleton.mp hnew]
  | looked hcall hphase =>
      refine tracks_advance hcall (fun e he hjob _ => ?_) htracks
      have hentry := htracks.entry e he
      rw [hjob] at hentry
      exact Option.isSome_of_eq_some hentry
  | fetched hcall hphase =>
      refine tracks_advance hcall (fun e he hjob hbefore => ?_) htracks
      have hentry := htracks.entry e he
      have hlooked := htracks.found _ (List.mem_of_getElem? hcall) e he hjob hbefore
      rw [hphase] at hlooked
      rw [hjob] at hentry
      exact ⟨hlooked, hentry⟩
  | cancelled now hcall hphase =>
      exact tracks_cancelSerial (tracks_advance hcall (fun _ _ _ _ => trivial) htracks)

theorem tracks_of_run {capacity : Int} {history : List (Entry Worker Event)}
    (hrun : Run Step (.new capacity) history s) (halone : ∀ entry ∈ history, Alone entry) :
    Tracks s := by
  have hnew : Tracks (.new capacity) :=
    ⟨fun _ h => absurd h List.not_mem_nil, fun _ h => absurd h List.not_mem_nil,
      fun _ h => absurd h List.not_mem_nil⟩
  exact run_invariant (I := fun _ s => Tracks s) hnew (fun h hstep halone =>
    tracks_step h hstep halone) hrun halone

end Steps

/-- The handler answers that it cancelled, and the step cancels the context of the
execution and of no other one. -/
structure Hits (e : Execution) (index : Nat) (now : Time) (s s' : Worker) : Prop where
  answer : s'.calls[index]?.map CancelCall.phase = some (.answered true)
  contexts : s'.process.running = s.process.running.map fun other =>
    if other.serial = e.serial then { other with context := other.context.cancel now } else other

/-- In every run in which no push is accepted while an execution of its job is left on the
worker, a request to cancel an execution that is there from its receipt to its end hits
that execution. -/
theorem cancel_hits_its_execution {capacity : Int} {history : List (Entry Worker Event)}
    {s s' : Worker} (hrun : Run Step (.new capacity) history s)
    (halone : ∀ entry ∈ history, Alone entry) {index : Nat} {now : Time}
    (hstep : Step s (.cancelled index now) s') {call : CancelCall}
    (hcall : s.calls[index]? = some call) {e : Execution} (he : e ∈ s.process.running)
    (hjob : e.request.jobID = call.jobID) (hbefore : e.serial < call.before) :
    Hits e index now s s' := by
  have htracks := tracks_of_run hrun halone
  cases hstep with
  | cancelled _ hfound hphase =>
      obtain rfl := Option.some.inj (hcall.symm.trans hfound)
      have hfetched := htracks.found _ (List.mem_of_getElem? hcall) e he hjob hbefore
      rw [hphase] at hfetched
      obtain ⟨rfl, rfl⟩ := hfetched
      refine ⟨?_, rfl⟩
      rw [Worker.advance, List.getElem?_set_self (List.getElem?_eq_some_iff.mp hcall).1]
      rfl

section Scenarios

def pushed (executionID : String) : ExecuteJobRequest :=
  SchedulerService.executeJobRequest Operations.echoMessage executionID

def started (serial : Nat) (executionID : String) : Execution where
  serial := serial
  request := pushed executionID
  context := { deadline := 30 * second }

/-- The first execution of a job is still sending its report when the retry is accepted.
When it exits, it deletes the entry of the retry, and a request to cancel the retry finds
nothing to cancel. -/
theorem retry_cannot_be_cancelled :
    ∃ history s, Run Step (.new 4) history s ∧
      started 1 "second" ∈ s.process.running ∧
      s.calls = [⟨"job", "second", 2, .answered false⟩] := by
  have hstart : Run Step (.new 4) [] (.new 4) := .start
  have hfirst := hstart.next (.accepted _ (pushed "first") 0 rfl)
  have hretry := (hfirst.next (.returned (e := started 0 "first") (by decide) rfl)).next
    (.accepted _ (pushed "second") 0 rfl)
  have hexited := hretry.next
    (.exited (e := { started 0 "first" with returned := true }) (by decide) rfl)
  have hreceived := hexited.next (.received _ "job" "second")
  have hlooked := hreceived.next (@Step.looked _ 0 _ rfl rfl)
  have hfetched := hlooked.next (@Step.fetched _ 0 _ _ rfl rfl)
  refine ⟨_, _, hfetched.next (@Step.cancelled _ 0 _ _ _ 1 rfl rfl), ?_, ?_⟩
  · decide
  · decide

theorem single_execution_cancelled :
    ∃ history s s', Run Step (.new 4) history s ∧ started 0 "first" ∈ s.process.running ∧
      Step s (.cancelled 0 1) s' ∧ Hits (started 0 "first") 0 1 s s' := by
  have hstart : Run Step (.new 4) [] (.new 4) := .start
  have haccepted := hstart.next (.accepted _ (pushed "first") 0 rfl)
  have hreceived := haccepted.next (.received _ "job" "first")
  have hlooked := hreceived.next (@Step.looked _ 0 _ rfl rfl)
  have hfetched := hlooked.next (@Step.fetched _ 0 _ _ rfl rfl)
  refine ⟨_, _, _, hfetched, ?_, @Step.cancelled _ 0 _ _ _ 1 rfl rfl, ?_⟩
  · decide
  · refine cancel_hits_its_execution hfetched ?_ (@Step.cancelled _ 0 _ _ _ 1 rfl rfl) rfl ?_ rfl ?_
    · simp only [List.forall_mem_cons, List.not_mem_nil, false_implies, implies_true, and_true]
      exact ⟨trivial, trivial, trivial, fun _ h => absurd h List.not_mem_nil⟩
    · decide
    · decide

end Scenarios

end Chronos.CancelRegistry
