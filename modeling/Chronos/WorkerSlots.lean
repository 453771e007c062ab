import Chronos.Library.Histories
import Chronos.Library.Settling
import Chronos.WorkerProcess
import Mathlib.Algebra.BigOperators.Group.List.Basic
import Mathlib.Order.Bounds.Defs

namespace Chronos.WorkerSlots

open Chronos.Domain
open Chronos.Library.Histories
open Chronos.Library.Settling
open Chronos.SharedState
open Chronos.WorkerProcess

/-- How far a call of `ExecuteJob` is, with the goroutine that it starts.  The counter is read in
one step and raised in another. -/
inductive Phase
  | arrived
  | refused
  | admitted
  | counted
  | running (context : Context)
  | executed (result : ExecutionResult)
  | reported
  | forgotten
  | released
  deriving DecidableEq, Repr

structure Call where
  request : ExecuteJobRequest
  phase : Phase := .arrived
  deriving DecidableEq, Repr

/-- A worker with all the calls it has had.  The cancel functions are kept by job, as the index of
the call whose context they end. -/
structure Worker where
  id : String
  capacity : Int
  active : Int := 0
  calls : List Call := []
  cancels : Finmap fun _ : String => Nat := ∅
  reports : List (Nat × ReportResultRequest) := []

structure HealthResponse where
  workerID : String
  capacity : Int
  activeJobs : Int
  healthy : Bool
  deriving DecidableEq, Repr

def Worker.health (s : Worker) : HealthResponse where
  workerID := s.id
  capacity := wrap32 s.capacity
  activeJobs := s.active
  healthy := true

def Worker.move (s : Worker) (i : Nat) (call : Call) (phase : Phase) : Worker :=
  { s with calls := s.calls.set i { call with phase := phase } }

def Worker.cancelLocal (s : Worker) (jobID : String) (now : Time) : Worker :=
  match (s.cancels.lookup jobID).bind fun i => s.calls[i]?.map (i, ·) with
  | some (i, ⟨request, .running context⟩) =>
      s.move i ⟨request, .running context⟩ (.running (context.cancel now))
  | _ => s

inductive Event
  | arrive (request : ExecuteJobRequest)
  | cancel (jobID : String) (now : Time)
  | advance (i : Nat)
  deriving DecidableEq, Repr

/-- The steps of all calls in any order.  The deferred calls run in the order delete, cancel and
`Add(-1)`, and a report may get no connection. -/
inductive Step : Worker → Event → Worker → Prop
  | arrive (s : Worker) (request : ExecuteJobRequest) :
      Step s (.arrive request) { s with calls := s.calls ++ [⟨request, .arrived⟩] }
  | cancel (s : Worker) (jobID : String) (now : Time) :
      Step s (.cancel jobID now) (s.cancelLocal jobID now)
  | refuse {s : Worker} {i : Nat} {call : Call} (hcall : s.calls[i]? = some call)
      (hphase : call.phase = .arrived) (hfull : s.capacity ≤ s.active) :
      Step s (.advance i) (s.move i call .refused)
  | enter {s : Worker} {i : Nat} {call : Call} (hcall : s.calls[i]? = some call)
      (hphase : call.phase = .arrived) (hfree : s.active < s.capacity) :
      Step s (.advance i) (s.move i call .admitted)
  | add {s : Worker} {i : Nat} {call : Call} (hcall : s.calls[i]? = some call)
      (hphase : call.phase = .admitted) :
      Step s (.advance i) { s.move i call .counted with active := wrap32 (s.active + 1) }
  | register {s : Worker} {i : Nat} {call : Call} (now : Time)
      (hcall : s.calls[i]? = some call) (hphase : call.phase = .counted) :
      Step s (.advance i)
        { s.move i call (.running { deadline := now + executionTimeout call.request }) with
          cancels := s.cancels.insert call.request.jobID i }
  | execute {s : Worker} {i : Nat} {call : Call} {context : Context} {now : Time}
      {result : ExecutionResult} (hcall : s.calls[i]? = some call)
      (hphase : call.phase = .running context)
      (hresult : Executes (context.errAt now) result) :
      Step s (.advance i) (s.move i call (.executed result))
  | report {s : Worker} {i : Nat} {call : Call} {result : ExecutionResult} (sent : Bool)
      (hcall : s.calls[i]? = some call) (hphase : call.phase = .executed result) :
      Step s (.advance i)
        { s.move i call .reported with
          reports :=
            if sent then (i, report s.id call.request result) :: s.reports else s.reports }
  | forget {s : Worker} {i : Nat} {call : Call} (hcall : s.calls[i]? = some call)
      (hphase : call.phase = .reported) :
      Step s (.advance i)
        { s.move i call .forgotten with cancels := s.cancels.erase call.request.jobID }
  | release {s : Worker} {i : Nat} {call : Call} (hcall : s.calls[i]? = some call)
      (hphase : call.phase = .forgotten) :
      Step s (.advance i) { s.move i call .released with active := wrap32 (s.active - 1) }

/-- An accepted call that has not ended. -/
def Phase.holds : Phase → Nat
  | .counted | .running _ | .executed _ | .reported | .forgotten => 1
  | _ => 0

/-- A call between its look at the counter and its change of it. -/
def Phase.admission : Phase → Nat
  | .admitted => 1
  | _ => 0

/-- The steps that are left. -/
def Phase.left : Phase → Nat
  | .arrived => 7
  | .admitted => 6
  | .counted => 5
  | .running _ => 4
  | .executed _ => 3
  | .reported => 2
  | .forgotten => 1
  | .refused | .released => 0

/-- The cancel function of the call may be in the map. -/
def Phase.registered : Phase → Bool
  | .running _ | .executed _ | .reported => true
  | _ => false

/-- The call has made its report. -/
def Phase.hasReported : Phase → Bool
  | .reported | .forgotten | .released => true
  | _ => false

def Worker.total (f : Phase → Nat) (s : Worker) : Nat :=
  (s.calls.map fun call => f call.phase).sum

def Worker.holding : Worker → Nat := Worker.total Phase.holds

def Worker.admissions : Worker → Nat := Worker.total Phase.admission

section Totals

variable {s s' : Worker} {i : Nat} {call : Call}

theorem sum_set {calls : List Call} (f : Phase → Nat) (hcall : calls[i]? = some call)
    (phase : Phase) :
    ((calls.set i { call with phase := phase }).map fun call => f call.phase).sum +
        f call.phase =
      (calls.map fun call => f call.phase).sum + f phase := by
  induction calls generalizing i with
  | nil => cases hcall
  | cons first calls ih =>
      cases i with
      | zero =>
          obtain rfl := Option.some.inj hcall
          simp only [List.set_cons_zero, List.map_cons, List.sum_cons]
          omega
      | succ i =>
          have hrest := ih (i := i) hcall
          simp only [List.set_cons_succ, List.map_cons, List.sum_cons]
          omega

theorem total_move (f : Phase → Nat) (hcall : s.calls[i]? = some call) (phase : Phase) :
    (s.move i call phase).total f + f call.phase = s.total f + f phase :=
  sum_set f hcall phase

theorem total_arrive (f : Phase → Nat) (hf : f .arrived = 0) (request : ExecuteJobRequest) :
    ({ s with calls := s.calls ++ [⟨request, .arrived⟩] } : Worker).total f = s.total f := by
  simp [Worker.total, hf]

/-- A cancel ends a context and nothing else. -/
theorem cancelLocal_cases (s : Worker) (jobID : String) (now : Time) :
    s.cancelLocal jobID now = s ∨ ∃ i call context, s.calls[i]? = some call ∧
      call.phase = .running context ∧
      s.cancelLocal jobID now = s.move i call (.running (context.cancel now)) := by
  rw [Worker.cancelLocal]
  split
  · rename_i i request context hfound
    obtain ⟨j, -, hj⟩ := Option.bind_eq_some_iff.mp hfound
    obtain ⟨call, hcall, heq⟩ := Option.map_eq_some_iff.mp hj
    obtain ⟨rfl, rfl⟩ := Prod.mk.inj heq
    exact Or.inr ⟨_, _, context, hcall, rfl, rfl⟩
  · exact Or.inl rfl

/-- What a step can do to the counter and to the calls that it stands for. -/
inductive Effect (s s' : Worker) : Prop
  | none (hholding : s'.holding = s.holding) (hadmissions : s'.admissions = s.admissions)
      (hactive : s'.active = s.active)
  | enter (hholding : s'.holding = s.holding) (hadmissions : s'.admissions = s.admissions + 1)
      (hactive : s'.active = s.active) (hfree : s.active < s.capacity)
  | add (hholding : s'.holding = s.holding + 1) (hadmissions : s.admissions = s'.admissions + 1)
      (hactive : s'.active = wrap32 (s.active + 1))
  | release (hholding : s.holding = s'.holding + 1) (hadmissions : s'.admissions = s.admissions)
      (hactive : s'.active = wrap32 (s.active - 1))

/-- A change of phase that the counter does not stand for. -/
theorem effect_move (hcall : s.calls[i]? = some call) (phase : Phase)
    (hholds : phase.holds = call.phase.holds)
    (hadmission : phase.admission = call.phase.admission) :
    (s.move i call phase).holding = s.holding ∧
      (s.move i call phase).admissions = s.admissions := by
  have hholding := total_move Phase.holds hcall phase
  have hadmissions := total_move Phase.admission hcall phase
  rw [hholds] at hholding
  rw [hadmission] at hadmissions
  exact ⟨Nat.add_right_cancel hholding, Nat.add_right_cancel hadmissions⟩

theorem step_effect {event : Event} (hstep : Step s event s') :
    s'.capacity = s.capacity ∧ Effect s s' := by
  cases hstep with
  | arrive request =>
      exact ⟨rfl, .none (total_arrive Phase.holds rfl request)
        (total_arrive Phase.admission rfl request) rfl⟩
  | cancel jobID now =>
      rcases cancelLocal_cases s jobID now with hsame | ⟨i, call, context, hcall, hphase, hmove⟩
      · rw [hsame]
        exact ⟨rfl, .none rfl rfl rfl⟩
      · rw [hmove]
        obtain ⟨hholding, hadmissions⟩ := effect_move hcall
          (.running (context.cancel now)) (by rw [hphase]; rfl) (by rw [hphase]; rfl)
        exact ⟨rfl, .none hholding hadmissions rfl⟩
  | refuse hcall hphase _ =>
      obtain ⟨hholding, hadmissions⟩ := effect_move hcall
        Phase.refused (by rw [hphase]; rfl) (by rw [hphase]; rfl)
      exact ⟨rfl, .none hholding hadmissions rfl⟩
  | enter hcall hphase hfree =>
      have hholding := total_move Phase.holds hcall .admitted
      have hadmissions := total_move Phase.admission hcall .admitted
      rw [hphase] at hholding hadmissions
      exact ⟨rfl, .enter hholding hadmissions rfl hfree⟩
  | add hcall hphase =>
      have hholding := total_move Phase.holds hcall .counted
      have hadmissions := total_move Phase.admission hcall .counted
      rw [hphase] at hholding hadmissions
      exact ⟨rfl, .add hholding hadmissions.symm rfl⟩
  | register now hcall hphase =>
      obtain ⟨hholding, hadmissions⟩ := effect_move hcall
        (.running _) (by rw [hphase]; rfl) (by rw [hphase]; rfl)
      exact ⟨rfl, .none hholding hadmissions rfl⟩
  | execute hcall hphase _ =>
      obtain ⟨hholding, hadmissions⟩ := effect_move hcall
        (.executed _) (by rw [hphase]; rfl) (by rw [hphase]; rfl)
      exact ⟨rfl, .none hholding hadmissions rfl⟩
  | report sent hcall hphase =>
      obtain ⟨hholding, hadmissions⟩ := effect_move hcall
        Phase.reported (by rw [hphase]; rfl) (by rw [hphase]; rfl)
      exact ⟨rfl, .none hholding hadmissions rfl⟩
  | forget hcall hphase =>
      obtain ⟨hholding, hadmissions⟩ := effect_move hcall
        Phase.forgotten (by rw [hphase]; rfl) (by rw [hphase]; rfl)
      exact ⟨rfl, .none hholding hadmissions rfl⟩
  | release hcall hphase =>
      have hholding := total_move Phase.holds hcall .released
      have hadmissions := total_move Phase.admission hcall .released
      rw [hphase] at hholding hadmissions
      exact ⟨rfl, .release hholding.symm hadmissions rfl⟩

theorem wrap32_add (m n : Int) : wrap32 (wrap32 m + n) = wrap32 (m + n) :=
  Int.bmod_add_bmod

/-- The counter is exact, up to the width of an int32. -/
theorem active_step (hactive : s.active = wrap32 s.holding) (heffect : Effect s s') :
    s'.active = wrap32 s'.holding := by
  cases heffect with
  | none hholding _ hsame => rw [hsame, hactive, hholding]
  | enter hholding _ hsame _ => rw [hsame, hactive, hholding]
  | add hholding _ hchange =>
      rw [hchange, hactive, wrap32_add, hholding]
      congr 1
  | release hholding _ hchange =>
      rw [hchange, hactive, Int.sub_eq_add_neg, wrap32_add, hholding]
      congr 1
      omega

end Totals

section Bound

variable {s s' : Worker} {capacity : Int} {k : Nat}

structure Bounded (capacity : Int) (k : Nat) (s : Worker) : Prop where
  same : s.capacity = capacity
  active : s.active = wrap32 s.holding
  bound : (s.holding + s.admissions : Int) ≤ capacity + k - 1

theorem active_of_bounded (hfits : capacity + k ≤ 2 ^ 31) (hs : Bounded capacity k s) :
    s.active = s.holding := by
  have hbound := hs.bound
  rw [hs.active]
  exact Int.bmod_eq_of_le (by omega) (by omega)

theorem bounded_step (hfits : capacity + k ≤ 2 ^ 31) (hs : Bounded capacity k s) {event : Event}
    (hstep : Step s event s') (hk : s'.admissions ≤ k) : Bounded capacity k s' := by
  obtain ⟨hcapacity, heffect⟩ := step_effect hstep
  refine ⟨hcapacity.trans hs.same, active_step hs.active heffect, ?_⟩
  have hbound := hs.bound
  cases heffect with
  | none hholding hadmissions _ => rwa [hholding, hadmissions]
  | enter hholding _ _ hfree =>
      -- the call has seen a free slot, and at most `k` calls are on their way to the counter
      rw [active_of_bounded hfits hs, hs.same] at hfree
      rw [hholding]
      omega
  | add hholding hadmissions _ => omega
  | release hholding hadmissions _ => omega

theorem bounded_run (hcapacity : 1 ≤ capacity) (hfits : capacity + k ≤ 2 ^ 31) {id : String}
    {history : List (Entry Worker Event)}
    (hrun : Run Step { id := id, capacity := capacity } history s)
    (hk : ∀ entry ∈ history, entry.after.admissions ≤ k) : Bounded capacity k s := by
  have hstart : Bounded capacity k { id := id, capacity := capacity } :=
    ⟨rfl, by simp [Worker.holding, Worker.total, wrap32], by
      simp only [Worker.holding, Worker.admissions, Worker.total, List.map_nil, List.sum_nil]
      omega⟩
  exact run_invariant (P := fun entry => entry.after.admissions ≤ k)
    (I := fun _ s => Bounded capacity k s) hstart
    (fun hs hstep hentry => bounded_step hfits hs hstep hentry) hrun hk

end Bound

/-- The worker can come to the state while at most `k` calls at a time are between their look at
the counter and their change of it. -/
def Reachable (k : Nat) (start s : Worker) : Prop :=
  ∃ history, Run Step start history s ∧ ∀ entry ∈ history, entry.after.admissions ≤ k

theorem reachable_next {k : Nat} {start s s' : Worker} {event : Event}
    (hs : Reachable k start s) (hstep : Step s event s') (hk : s'.admissions ≤ k) :
    Reachable k start s' := by
  obtain ⟨history, hrun, hhistory⟩ := hs
  refine ⟨_, .next hrun hstep, fun entry hentry => ?_⟩
  rcases List.mem_cons.mp hentry with rfl | hearlier
  · exact hk
  · exact hhistory entry hearlier

section Crowd

variable {id : String} {capacity : Int} {request : ExecuteJobRequest} {k n m : Nat}

/-- A worker with `n` calls that are counted and `m` that are admitted. -/
def crowd (id : String) (capacity : Int) (request : ExecuteJobRequest) (n m : Nat) : Worker where
  id := id
  capacity := capacity
  active := n
  calls := List.replicate n ⟨request, .counted⟩ ++ List.replicate m ⟨request, .admitted⟩

theorem holding_crowd : (crowd id capacity request n m).holding = n := by
  simp [Worker.holding, Worker.total, crowd, Phase.holds]

theorem admissions_crowd : (crowd id capacity request n m).admissions = m := by
  simp [Worker.admissions, Worker.total, crowd, Phase.admission]

theorem reachable_enter (hfree : (n : Int) < capacity) (hm : m + 1 ≤ k)
    (hs : Reachable k { id := id, capacity := capacity } (crowd id capacity request n m)) :
    Reachable k { id := id, capacity := capacity } (crowd id capacity request n (m + 1)) := by
  let s := crowd id capacity request n m
  let arrived : Worker := { s with calls := s.calls ++ [⟨request, .arrived⟩] }
  have hlength : s.calls.length = n + m := by simp [s, crowd]
  have hadmissions : arrived.admissions = m :=
    (total_arrive Phase.admission rfl request).trans admissions_crowd
  have harrived := reachable_next hs (.arrive s request) (by
    change arrived.admissions ≤ k
    omega)
  have hcall : arrived.calls[n + m]? = some ⟨request, .arrived⟩ := by
    rw [← hlength]
    exact List.getElem?_concat_length
  have hmove : arrived.move (n + m) ⟨request, .arrived⟩ .admitted =
      crowd id capacity request n (m + 1) := by
    simp only [arrived, Worker.move, ← hlength, List.set_append_right _ _ le_rfl, Nat.sub_self,
      List.set_cons_zero]
    simp [s, crowd, List.replicate_succ']
  rw [← hmove]
  refine reachable_next harrived (.enter hcall rfl hfree) ?_
  rw [hmove, admissions_crowd]
  exact hm

theorem reachable_add (hfits : (n : Int) + 1 < 2 ^ 31) (hm : m ≤ k)
    (hs : Reachable k { id := id, capacity := capacity } (crowd id capacity request n (m + 1))) :
    Reachable k { id := id, capacity := capacity } (crowd id capacity request (n + 1) m) := by
  let s := crowd id capacity request n (m + 1)
  have hcall : s.calls[n]? = some ⟨request, .admitted⟩ := by
    simp [s, crowd]
  have hactive : wrap32 (s.active + 1) = (n + 1 : Nat) :=
    Int.bmod_eq_of_le (by simp [s, crowd]; omega) (by simp [s, crowd]; omega)
  have hmove : { s.move n ⟨request, .admitted⟩ .counted with active := wrap32 (s.active + 1) } =
      crowd id capacity request (n + 1) m := by
    have hset : s.calls.set n ⟨request, .counted⟩ =
        List.replicate (n + 1) ⟨request, .counted⟩ ++ List.replicate m ⟨request, .admitted⟩ := by
      rw [List.replicate_succ' (n := n), List.append_assoc]
      simp [s, crowd, List.set_append_right, List.replicate_succ]
    rw [hactive]
    simp only [Worker.move, hset]
    rfl
  rw [← hmove]
  refine reachable_next hs (.add hcall rfl) ?_
  rw [hmove, admissions_crowd]
  exact hm

theorem reachable_counted (hk : 1 ≤ k) (hcapacity : (n : Int) ≤ capacity)
    (hfits : (n : Int) < 2 ^ 31) :
    Reachable k { id := id, capacity := capacity } (crowd id capacity request n 0) := by
  induction n with
  | zero => exact ⟨[], .start, fun _ hentry => absurd hentry List.not_mem_nil⟩
  | succ n ih =>
      have hadmitted := reachable_enter (by omega) hk (ih (by omega) (by omega))
      exact reachable_add (by omega) (Nat.zero_le k) hadmitted

theorem reachable_admitted (hfree : (n : Int) < capacity) (hm : m ≤ k)
    (hs : Reachable k { id := id, capacity := capacity } (crowd id capacity request n 0)) :
    Reachable k { id := id, capacity := capacity } (crowd id capacity request n m) := by
  induction m with
  | zero => exact hs
  | succ m ih => exact reachable_enter hfree hm (ih (by omega))

theorem reachable_all (hfits : (n : Int) + m < 2 ^ 31) (hm : m ≤ k)
    (hs : Reachable k { id := id, capacity := capacity } (crowd id capacity request n m)) :
    Reachable k { id := id, capacity := capacity } (crowd id capacity request (n + m) 0) := by
  induction m generalizing n with
  | zero => exact hs
  | succ m ih =>
      have hrest := ih (by omega) (by omega) (reachable_add (by omega) (by omega) hs)
      rwa [Nat.add_right_comm] at hrest

end Crowd

/-- With at most `k` calls at a time between their look at the counter and their change of it,
`capacity + k - 1` executions are the most that a worker can have at once, and the counter that it
reports is their number. -/
theorem slots_exceeded_by_admissions (id : String) {capacity : Int} {k : Nat}
    (hcapacity : 1 ≤ capacity) (hk : 1 ≤ k) (hfits : capacity + k ≤ 2 ^ 31) :
    IsGreatest {n : Int | ∃ s, Reachable k { id := id, capacity := capacity } s ∧
        (s.holding : Int) = n} (capacity + k - 1) ∧
      ∀ s, Reachable k { id := id, capacity := capacity } s → s.health.activeJobs = s.holding := by
  refine ⟨⟨?_, ?_⟩, ?_⟩
  · obtain ⟨n, hn⟩ := Int.eq_ofNat_of_zero_le (show 0 ≤ capacity - 1 by omega)
    let request : ExecuteJobRequest := ⟨"", "", "", .builtin, none, 0, 0, ""⟩
    have hcounted : Reachable k { id := id, capacity := capacity }
        (crowd id capacity request n 0) :=
      reachable_counted hk (by omega) (by omega)
    have hadmitted := reachable_admitted (m := k) (by omega) le_rfl hcounted
    refine ⟨_, reachable_all (by omega) le_rfl hadmitted, ?_⟩
    rw [holding_crowd]
    omega
  · rintro n ⟨s, ⟨history, hrun, hhistory⟩, rfl⟩
    have hbound := (bounded_run hcapacity hfits hrun hhistory).bound
    omega
  · rintro s ⟨history, hrun, hhistory⟩
    exact active_of_bounded hfits (bounded_run hcapacity hfits hrun hhistory)

/-- Two calls at once can take a worker with one slot to two executions. -/
theorem one_slot_two_executions :
    IsGreatest {n : Int | ∃ s, Reachable 2 { id := "worker", capacity := 1 } s ∧
        (s.holding : Int) = n} 2 ∧
      ∀ s, Reachable 2 { id := "worker", capacity := 1 } s → s.health.activeJobs = s.holding :=
  @slots_exceeded_by_admissions "worker" 1 2 (by decide) (by decide) (by decide)

section Draining

variable {s s' : Worker} {i : Nat} {call : Call}

/-- A cancel function in the map belongs to an execution of its job that has not been forgotten,
and no execution has two reports. -/
structure Records (s : Worker) : Prop where
  cancels : ∀ {jobID i}, s.cancels.lookup jobID = some i →
    ∃ call, s.calls[i]? = some call ∧ call.request.jobID = jobID ∧ call.phase.registered
  once : (s.reports.map Prod.fst).Nodup
  reports : ∀ {i r}, (i, r) ∈ s.reports →
    ∃ call, s.calls[i]? = some call ∧ (∃ result, r = report s.id call.request result) ∧
      call.phase.hasReported

theorem getElem?_move (hcall : s.calls[i]? = some call) (phase : Phase) (j : Nat) :
    (s.move i call phase).calls[j]? =
      if j = i then some { call with phase := phase } else s.calls[j]? := by
  obtain ⟨hi, -⟩ := List.getElem?_eq_some_iff.mp hcall
  rw [Worker.move, List.getElem?_set]
  by_cases hij : j = i
  · rw [if_pos hij, if_pos hij.symm, if_pos (hij ▸ hi)]
  · rw [if_neg hij, if_neg (Ne.symm hij)]

/-- What is known about the call of an index is known after a change of phase that keeps it. -/
theorem find_move (hcall : s.calls[i]? = some call) {phase : Phase} {f : Phase → Bool}
    (hf : f call.phase → f phase) {j : Nat} {P : ExecuteJobRequest → Prop}
    (h : ∃ other, s.calls[j]? = some other ∧ P other.request ∧ f other.phase) :
    ∃ other, (s.move i call phase).calls[j]? = some other ∧ P other.request ∧ f other.phase := by
  obtain ⟨other, hother, hP, hphase⟩ := h
  rw [getElem?_move hcall]
  by_cases hj : j = i
  · subst hj
    obtain rfl := Option.some.inj (hcall.symm.trans hother)
    exact ⟨_, if_pos rfl, hP, hf hphase⟩
  · exact ⟨other, (if_neg hj).trans hother, hP, hphase⟩

theorem records_move (hs : Records s) (hcall : s.calls[i]? = some call) (phase : Phase)
    (hregistered : call.phase.registered → phase.registered)
    (hreported : call.phase.hasReported → phase.hasReported) : Records (s.move i call phase) where
  cancels := fun hlookup => find_move (P := fun request => request.jobID = _) hcall hregistered
    (hs.cancels hlookup)
  once := hs.once
  reports := fun hr => find_move (P := fun request => ∃ result, _ = report s.id request result)
    hcall hreported (hs.reports hr)

theorem records_arrive (hs : Records s) (request : ExecuteJobRequest) :
    Records { s with calls := s.calls ++ [⟨request, .arrived⟩] } where
  cancels := by
    intro jobID i hlookup
    obtain ⟨call, hcall, hjob⟩ := hs.cancels hlookup
    obtain ⟨hi, -⟩ := List.getElem?_eq_some_iff.mp hcall
    exact ⟨call, (List.getElem?_append_left hi).trans hcall, hjob⟩
  once := hs.once
  reports := by
    intro i r hr
    obtain ⟨call, hcall, hreport⟩ := hs.reports hr
    obtain ⟨hi, -⟩ := List.getElem?_eq_some_iff.mp hcall
    exact ⟨call, (List.getElem?_append_left hi).trans hcall, hreport⟩

theorem records_register (hs : Records s) (hcall : s.calls[i]? = some call)
    (hphase : call.phase = .counted) (context : Context) :
    Records { s.move i call (.running context) with
      cancels := s.cancels.insert call.request.jobID i } := by
  have hmove : Records (s.move i call (.running context)) :=
    records_move hs hcall _ (fun _ => rfl) (by rw [hphase]; exact fun h => h)
  refine ⟨?_, hmove.once, hmove.reports⟩
  intro jobID j hlookup
  dsimp only at hlookup
  by_cases hjob : jobID = call.request.jobID
  · subst hjob
    rw [Finmap.lookup_insert] at hlookup
    obtain rfl := Option.some.inj hlookup
    exact ⟨_, (getElem?_move hcall _ i).trans (if_pos rfl), rfl, rfl⟩
  · rw [Finmap.lookup_insert_of_ne _ hjob] at hlookup
    exact hmove.cancels hlookup

theorem records_report (hs : Records s) (hcall : s.calls[i]? = some call)
    {result : ExecutionResult} (hphase : call.phase = .executed result) (sent : Bool) :
    Records { s.move i call .reported with
      reports := if sent then (i, report s.id call.request result) :: s.reports
        else s.reports } := by
  have hmove : Records (s.move i call .reported) :=
    records_move hs hcall _ (fun _ => rfl) (fun _ => rfl)
  -- the call has not reported before
  have hfirst : i ∉ s.reports.map Prod.fst := by
    intro hmem
    obtain ⟨⟨_, r⟩, hr, rfl⟩ := List.mem_map.mp hmem
    obtain ⟨other, hother, -, hreported⟩ := hs.reports hr
    obtain rfl := Option.some.inj (hcall.symm.trans hother)
    rw [hphase] at hreported
    cases hreported
  cases sent with
  | false => exact ⟨hmove.cancels, hmove.once, hmove.reports⟩
  | true =>
      refine ⟨hmove.cancels, ?_, ?_⟩
      · rw [if_pos rfl, List.map_cons, List.nodup_cons]
        exact ⟨hfirst, hs.once⟩
      · intro j r hr
        rw [if_pos rfl] at hr
        rcases List.mem_cons.mp hr with hnew | hold
        · obtain ⟨rfl, rfl⟩ := Prod.mk.inj hnew
          exact ⟨_, (getElem?_move hcall _ j).trans (if_pos rfl), ⟨result, rfl⟩, rfl⟩
        · exact hmove.reports hold

/-- A goroutine deletes the entry of its job, so its own is gone, if it was there. -/
theorem records_forget (hs : Records s) (hcall : s.calls[i]? = some call) :
    Records { s.move i call .forgotten with
      cancels := s.cancels.erase call.request.jobID } := by
  refine ⟨?_, hs.once, fun hr => ?_⟩
  · intro jobID j hlookup
    dsimp only at hlookup
    have hjob : jobID ≠ call.request.jobID := by
      rintro rfl
      rw [Finmap.lookup_erase] at hlookup
      cases hlookup
    rw [Finmap.lookup_erase_ne hjob] at hlookup
    obtain ⟨other, hother, hid, hregistered⟩ := hs.cancels hlookup
    have hj : j ≠ i := by
      rintro rfl
      obtain rfl := Option.some.inj (hcall.symm.trans hother)
      exact hjob hid.symm
    exact ⟨other, ((getElem?_move hcall _ j).trans (if_neg hj)).trans hother, hid, hregistered⟩
  · exact find_move (P := fun request => ∃ result, _ = report s.id request result) hcall
      (fun _ => rfl) (hs.reports hr)

theorem records_step {event : Event} (hs : Records s) (hstep : Step s event s') :
    Records s' := by
  cases hstep with
  | arrive request => exact records_arrive hs request
  | cancel jobID now =>
      rcases cancelLocal_cases s jobID now with hsame | ⟨i, call, context, hcall, hphase, hmove⟩
      · rwa [hsame]
      · rw [hmove]
        exact records_move hs hcall _ (fun _ => rfl) (by rw [hphase]; exact fun h => h)
  | refuse hcall hphase _ =>
      exact records_move hs hcall _ (by rw [hphase]; exact fun h => h)
        (by rw [hphase]; exact fun h => h)
  | enter hcall hphase _ =>
      exact records_move hs hcall _ (by rw [hphase]; exact fun h => h)
        (by rw [hphase]; exact fun h => h)
  | add hcall hphase =>
      have hmove := records_move hs hcall .counted
        (by rw [hphase]; exact fun h => h) (by rw [hphase]; exact fun h => h)
      exact ⟨hmove.cancels, hmove.once, hmove.reports⟩
  | register now hcall hphase => exact records_register hs hcall hphase _
  | execute hcall hphase _ =>
      exact records_move hs hcall _ (fun _ => rfl) (by rw [hphase]; exact fun h => h)
  | report sent hcall hphase => exact records_report hs hcall hphase sent
  | forget hcall _ => exact records_forget hs hcall
  | release hcall hphase =>
      have hmove := records_move hs hcall .released
        (by rw [hphase]; exact fun h => h) (fun _ => rfl)
      exact ⟨hmove.cancels, hmove.once, hmove.reports⟩

/-- The counter is exact and the records are. -/
def Sound (s : Worker) : Prop := s.active = wrap32 s.holding ∧ Records s

theorem sound_step {event : Event} (hs : Sound s) (hstep : Step s event s') : Sound s' :=
  ⟨active_step hs.1 (step_effect hstep).2, records_step hs.2 hstep⟩

theorem sound_run {id : String} {capacity : Int} {history : List (Entry Worker Event)}
    (hrun : Run Step { id := id, capacity := capacity } history s) : Sound s := by
  have hstart : Sound { id := id, capacity := capacity } := by
    refine ⟨by simp [Worker.holding, Worker.total, wrap32], ?_, List.nodup_nil, ?_⟩
    · intro jobID i hlookup
      rw [Finmap.lookup_empty] at hlookup
      cases hlookup
    · exact fun hr => absurd hr List.not_mem_nil
  exact run_invariant (P := fun _ => True) (I := fun _ s => Sound s) hstart
    (fun hs hstep _ => sound_step hs hstep) hrun fun _ _ => trivial

/-- A step of a call that is there. -/
def Advances (s s' : Worker) : Prop := ∃ i, Step s (.advance i) s'

theorem left_move (hcall : s.calls[i]? = some call) (phase : Phase)
    (hleft : phase.left < call.phase.left) :
    (s.move i call phase).total Phase.left < s.total Phase.left := by
  have htotal := total_move Phase.left hcall phase
  omega

theorem left_advance (hstep : Advances s s') : s'.total Phase.left < s.total Phase.left := by
  obtain ⟨i, hstep⟩ := hstep
  cases hstep with
  | refuse hcall hphase _ => exact left_move hcall _ (by rw [hphase]; decide)
  | enter hcall hphase _ => exact left_move hcall _ (by rw [hphase]; decide)
  | add hcall hphase => exact left_move hcall .counted (by rw [hphase]; decide)
  | register now hcall hphase =>
      exact left_move hcall (.running _) (by rw [hphase]; exact Nat.lt_succ_self 4)
  | execute hcall hphase _ => exact left_move hcall _ (by rw [hphase]; exact Nat.lt_succ_self 3)
  | report sent hcall hphase =>
      exact left_move hcall .reported (by rw [hphase]; exact Nat.lt_succ_self 2)
  | forget hcall hphase => exact left_move hcall .forgotten (by rw [hphase]; decide)
  | release hcall hphase => exact left_move hcall .released (by rw [hphase]; decide)

theorem ended_of_stuck (hstuck : Stuck Advances s) :
    ∀ call ∈ s.calls, call.phase = .refused ∨ call.phase = .released := by
  intro call hmem
  obtain ⟨i, hcall⟩ := List.mem_iff_getElem?.mp hmem
  cases hphase : call.phase with
  | arrived =>
      rcases le_or_gt s.capacity s.active with hfull | hfree
      · exact absurd ⟨i, .refuse hcall hphase hfull⟩ (hstuck _)
      · exact absurd ⟨i, .enter hcall hphase hfree⟩ (hstuck _)
  | refused => exact Or.inl rfl
  | admitted => exact absurd ⟨i, .add hcall hphase⟩ (hstuck _)
  | counted => exact absurd ⟨i, .register 0 hcall hphase⟩ (hstuck _)
  | running context =>
      have hresult : Executes (context.errAt 0) (ctxResult 0 .deadlineExceeded) :=
        .own (fun hreason => ResultReason.noConfusion hreason)
      exact absurd ⟨i, .execute hcall hphase hresult⟩ (hstuck _)
  | executed result => exact absurd ⟨i, .report true hcall hphase⟩ (hstuck _)
  | reported => exact absurd ⟨i, .forget hcall hphase⟩ (hstuck _)
  | forgotten => exact absurd ⟨i, .release hcall hphase⟩ (hstuck _)
  | released => exact Or.inr rfl

/-- Nothing is left of the calls but their reports, at most one for each. -/
structure Drained (s : Worker) : Prop where
  ended : ∀ call ∈ s.calls, call.phase = .refused ∨ call.phase = .released
  idle : s.health.activeJobs = 0
  forgotten : s.cancels = ∅
  once : (s.reports.map Prod.fst).Nodup
  accepted : ∀ {i r}, (i, r) ∈ s.reports → ∃ call, s.calls[i]? = some call ∧
    call.phase = .released ∧ ∃ result, r = report s.id call.request result

theorem drained_of_ended (hs : Sound s)
    (hended : ∀ call ∈ s.calls, call.phase = .refused ∨ call.phase = .released) :
    Drained s := by
  have hholding : s.holding = 0 := by
    refine List.sum_eq_zero fun n hn => ?_
    obtain ⟨call, hcall, rfl⟩ := List.mem_map.mp hn
    rcases hended call hcall with hphase | hphase <;> rw [hphase] <;> rfl
  refine ⟨hended, ?_, ?_, hs.2.once, ?_⟩
  · rw [Worker.health, hs.1, hholding]
    rfl
  · refine Finmap.ext_lookup fun jobID => ?_
    rw [Finmap.lookup_empty]
    refine Option.eq_none_iff_forall_ne_some.mpr fun i hlookup => ?_
    obtain ⟨call, hcall, -, hregistered⟩ := hs.2.cancels hlookup
    rcases hended call (List.mem_of_getElem? hcall) with hphase | hphase <;>
      rw [hphase] at hregistered <;> cases hregistered
  · intro i r hr
    obtain ⟨call, hcall, hreport, hreported⟩ := hs.2.reports hr
    refine ⟨call, hcall, ?_, hreport⟩
    rcases hended call (List.mem_of_getElem? hcall) with hphase | hphase
    · rw [hphase] at hreported
      cases hreported
    · exact hphase

/-- From every state that a worker can come to, the calls that are there come to their end in
whichever order they go on.  Then no slot is taken, no cancel function is left, and every report
is the one of an accepted call. -/
theorem worker_drains {id : String} {capacity : Int} {history : List (Entry Worker Event)}
    (hrun : Run Step { id := id, capacity := capacity } history s) :
    Settles Advances Drained s :=
  settles_of_rank (Worker.total Phase.left) (I := Sound)
    (fun hs hstep => hstep.elim fun _ hstep => sound_step hs hstep)
    (fun _ hstep => left_advance hstep)
    (fun hs hstuck => drained_of_ended hs (ended_of_stuck hstuck)) (sound_run hrun)

/-- Two pushes of one job to a worker with two slots: the second takes the place of the first
among the cancel functions. -/
theorem pushed_twice_drains :
    ∃ s : Worker, s.holding = 2 ∧ s.cancels.lookup "job" = some 1 ∧
      Settles Advances Drained s := by
  let request : ExecuteJobRequest := ⟨"job", "execution", "", .builtin, none, 1, 0, ""⟩
  have hfirst : Run Step { id := "worker", capacity := 2 } _ _ :=
    .next (.next (.next (.next .start (.arrive _ request)) (.enter (i := 0) rfl rfl (by decide)))
      (.add (i := 0) rfl rfl)) (.register (i := 0) 0 rfl rfl)
  have hrun : Run Step { id := "worker", capacity := 2 } _ _ :=
    .next (.next (.next (.next hfirst (.arrive _ request)) (.enter (i := 1) rfl rfl (by decide)))
      (.add (i := 1) rfl rfl)) (.register (i := 1) 0 rfl rfl)
  refine ⟨_, ?_, ?_, worker_drains hrun⟩
  · rfl
  · exact Finmap.lookup_insert _

end Draining

end Chronos.WorkerSlots
