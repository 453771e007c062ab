import Chronos.ClientCancels
import Chronos.WorkerSlots

namespace Chronos.WorkerSimulation

open Chronos.ClientCancels (Cluster ClusterDraw Label Reaches cluster served)
open Chronos.Domain hiding Worker
open Chronos.Library.CallMachine
open Chronos.SchedulerService (SchedulerConfig)
open Chronos.SharedState (ExecuteJobRequest)
open Chronos.WorkerProcess
open Chronos.WorkerSlots
open Relation

/-- The operations of a worker whose pushes are taken in one step, with the reports that it has
made. -/
inductive Operates (workerID : String) :
    Process × List ReportResultRequest → Process × List ReportResultRequest → Prop
  | executeJob {p : Process} {sent : List ReportResultRequest} (request : ExecuteJobRequest)
      (now : Time) : Operates workerID (p, sent) ((p.executeJob request now).2, sent)
  | cancelLocal {p : Process} {sent : List ReportResultRequest} (jobID : String) (now : Time) :
      Operates workerID (p, sent) (p.cancelLocal jobID now, sent)
  | returned {p : Process} {sent : List ReportResultRequest} {e : Execution} (now : Time)
      {result : ExecutionResult} (hrunning : e ∈ p.running) (hfirst : e.returned = false)
      (hresult : Executes (e.context.errAt now) result) :
      Operates workerID (p, sent)
        (p.markReturned e.serial, report workerID e.request result :: sent)
  | exited {p : Process} {sent : List ReportResultRequest} {e : Execution}
      (hrunning : e ∈ p.running) (hreturned : e.returned) :
      Operates workerID (p, sent) (p.exit e, sent)

def phaseOf (e : Execution) : Phase := if e.returned then .reported else .running e.context

/-- The calls of the worker are the executions of the process.  An execution's call is found under
an index of its own, as the refused calls have no serial. -/
structure Represents (p : Process) (sent : List ReportResultRequest) (s : Worker)
    (index : Nat → Nat) : Prop where
  capacity : s.capacity = p.capacity
  limit : (p.running.length : Int) ≤ max 0 p.capacity
  serials : (p.running.map Execution.serial).Nodup
  injective : ∀ m < p.next, ∀ n < p.next, index m = index n → m = n
  below : ∀ n < p.next, index n < s.calls.length
  calls : ∀ e ∈ p.running, s.calls[index e.serial]? = some ⟨e.request, phaseOf e⟩
  holding : s.holding = p.running.length
  admissions : s.admissions = 0
  cancels : ∀ jobID, s.cancels.lookup jobID = (p.cancels.lookup jobID).map index
  entries : ∀ {jobID serial}, p.cancels.lookup jobID = some serial →
    ∃ e ∈ p.running, e.serial = serial
  reports : s.reports.map Prod.snd = sent

section Pushes

variable {s start : Worker} {request : ExecuteJobRequest}

/-- A push that is taken, once it is over. -/
def taken (s : Worker) (request : ExecuteJobRequest) (now : Time) : Worker :=
  { s with
    active := wrap32 (s.active + 1)
    calls := s.calls ++
      [⟨request, .running { deadline := now + executionTimeout request }⟩]
    cancels := s.cancels.insert request.jobID s.calls.length }

theorem total_append (f : Phase → Nat) (call : Call) :
    ({ s with calls := s.calls ++ [call] } : Worker).total f = s.total f + f call.phase := by
  simp [Worker.total]

theorem move_last (call : Call) (phase : Phase) :
    ({ s with calls := s.calls ++ [call] } : Worker).move s.calls.length call phase =
      { s with calls := s.calls ++ [{ call with phase := phase }] } := by
  simp [Worker.move, List.set_append_right]

theorem last_call (call : Call) : (s.calls ++ [call])[s.calls.length]? = some call :=
  List.getElem?_concat_length

theorem reachable_refused (hs : Reachable 1 start s) (hidle : s.admissions = 0)
    (hfull : s.capacity ≤ s.active) :
    Reachable 1 start { s with calls := s.calls ++ [⟨request, .refused⟩] } := by
  have hadmissions (phase : Phase) (hphase : phase.admission = 0) :
      ({ s with calls := s.calls ++ [⟨request, phase⟩] } : Worker).admissions ≤ 1 := by
    rw [Worker.admissions, total_append, hphase, ← Worker.admissions, hidle]
    exact Nat.zero_le 1
  have harrived := reachable_next hs (.arrive s request) (hadmissions .arrived rfl)
  have hrefused := reachable_next harrived
    (.refuse (last_call ⟨request, .arrived⟩) rfl hfull) (by
      rw [move_last]
      exact hadmissions .refused rfl)
  rwa [move_last] at hrefused

theorem reachable_taken (hs : Reachable 1 start s) (hidle : s.admissions = 0)
    (hfree : s.active < s.capacity) (now : Time) :
    Reachable 1 start (taken s request now) := by
  have hadmissions (phase : Phase) (hphase : phase.admission ≤ 1) :
      ({ s with calls := s.calls ++ [⟨request, phase⟩] } : Worker).admissions ≤ 1 := by
    rw [Worker.admissions, total_append, ← Worker.admissions, hidle, Nat.zero_add]
    exact hphase
  have harrived := reachable_next hs (.arrive s request) (hadmissions .arrived (Nat.zero_le 1))
  have hadmitted := reachable_next harrived
    (.enter (last_call ⟨request, .arrived⟩) rfl hfree) (by
      rw [move_last]
      exact hadmissions .admitted le_rfl)
  rw [move_last] at hadmitted
  have hcounted := reachable_next hadmitted (.add (last_call ⟨request, .admitted⟩) rfl) (by
    rw [move_last]
    exact hadmissions .counted (Nat.zero_le 1))
  rw [move_last] at hcounted
  have hrunning := reachable_next hcounted
    (.register now (last_call ⟨request, .counted⟩) rfl)
    ((congrArg Worker.admissions (move_last _ _)).trans_le
      (hadmissions (.running _) (Nat.zero_le 1)))
  simp only [Worker.move, List.set_append_right _ _ le_rfl, Nat.sub_self,
    List.set_cons_zero] at hrunning
  exact hrunning

end Pushes

section Ends

variable {s start : Worker} {request : ExecuteJobRequest} {i : Nat} {phase : Phase}

theorem move_move (hcall : s.calls[i]? = some ⟨request, phase⟩) (next last : Phase) :
    (s.move i ⟨request, phase⟩ next).calls[i]? = some ⟨request, next⟩ ∧
      (s.move i ⟨request, phase⟩ next).move i ⟨request, next⟩ last =
        s.move i ⟨request, phase⟩ last := by
  refine ⟨(getElem?_move hcall next i).trans (if_pos rfl), ?_⟩
  simp [Worker.move]

theorem admissions_move (hcall : s.calls[i]? = some ⟨request, phase⟩)
    (hphase : phase.admission = 0) {next : Phase} (hnext : next.admission = 0) :
    (s.move i ⟨request, phase⟩ next).admissions = s.admissions := by
  have htotal := total_move Phase.admission hcall next
  rw [hphase, hnext] at htotal
  exact htotal

theorem reachable_returned (hs : Reachable 1 start s) (hidle : s.admissions = 0)
    {context : Context} (hcall : s.calls[i]? = some ⟨request, .running context⟩) {now : Time}
    {result : ExecutionResult} (hresult : Executes (context.errAt now) result) :
    Reachable 1 start { s.move i ⟨request, .running context⟩ .reported with
      reports := (i, report s.id request result) :: s.reports } := by
  obtain ⟨hexecuted, hmove⟩ := move_move hcall (.executed result) .reported
  have hfirst := reachable_next hs (.execute hcall rfl hresult)
    ((admissions_move hcall rfl rfl).trans hidle |>.trans_le (Nat.zero_le 1))
  have hsecond := reachable_next hfirst (.report true hexecuted rfl) (by
    change ((s.move i _ _).move i ⟨request, .executed result⟩ .reported).admissions ≤ 1
    rw [hmove, admissions_move hcall rfl rfl, hidle]
    exact Nat.zero_le 1)
  rw [hmove] at hsecond
  exact hsecond

theorem reachable_exited (hs : Reachable 1 start s) (hidle : s.admissions = 0)
    (hcall : s.calls[i]? = some ⟨request, .reported⟩) :
    Reachable 1 start { s.move i ⟨request, .reported⟩ .released with
      active := wrap32 (s.active - 1), cancels := s.cancels.erase request.jobID } := by
  obtain ⟨hforgotten, hmove⟩ := move_move hcall .forgotten .released
  have hfirst := reachable_next hs (.forget hcall rfl) (by
    change (s.move i _ _).admissions ≤ 1
    rw [admissions_move hcall rfl rfl, hidle]
    exact Nat.zero_le 1)
  have hsecond := reachable_next hfirst (.release hforgotten rfl) (by
    change ((s.move i _ _).move i ⟨request, .forgotten⟩ .released).admissions ≤ 1
    rw [hmove, admissions_move hcall rfl rfl, hidle]
    exact Nat.zero_le 1)
  simp only [Worker.move, List.set_set] at hsecond
  exact hsecond

end Ends

section Represents

variable {p : Process} {sent : List ReportResultRequest} {s : Worker} {index : Nat → Nat}

theorem represents_new (workerID : String) (capacity : Int) :
    Represents (.new capacity) [] { id := workerID, capacity := capacity } id where
  capacity := rfl
  limit := le_max_left 0 capacity
  serials := List.nodup_nil
  injective := fun _ hm => absurd hm (Nat.not_lt_zero _)
  below := fun _ hn => absurd hn (Nat.not_lt_zero _)
  calls := fun _ he => absurd he List.not_mem_nil
  holding := rfl
  admissions := rfl
  cancels := fun jobID => by rw [Finmap.lookup_empty]; rfl
  entries := by
    intro jobID serial hlookup
    rw [show (Process.new capacity).cancels.lookup jobID = none from Finmap.lookup_empty jobID]
      at hlookup
    cases hlookup
  reports := rfl

theorem represents_refused (h : Represents p sent s index) (request : ExecuteJobRequest) :
    Represents p sent { s with calls := s.calls ++ [⟨request, .refused⟩] } index :=
  { h with
    below := fun n hn => (h.below n hn).trans_le (by simp)
    calls := fun e he =>
      (List.getElem?_append_left (h.below e.serial (p.issued e he))).trans (h.calls e he)
    holding := (total_append Phase.holds _).trans h.holding
    admissions := (total_append Phase.admission _).trans h.admissions }

/-- The execution that a push starts, and the process with it. -/
theorem executeJob_taken (hfree : (p.running.length : Int) < p.capacity)
    (request : ExecuteJobRequest) (now : Time) :
    let p' := (p.executeJob request now).2
    p'.capacity = p.capacity ∧ p'.next = p.next + 1 ∧
      p'.running =
        ⟨p.next, request, { deadline := now + executionTimeout request }, false⟩ :: p.running ∧
      p'.cancels = p.cancels.insert request.jobID p.next := by
  simp only [Process.executeJob, if_neg (not_le.mpr hfree)]
  exact ⟨trivial, trivial, trivial, trivial⟩

theorem represents_taken (h : Represents p sent s index)
    (hfree : (p.running.length : Int) < p.capacity) (request : ExecuteJobRequest) (now : Time) :
    Represents (p.executeJob request now).2 sent (taken s request now)
      (Function.update index p.next s.calls.length) := by
  obtain ⟨hcapacity, hnext, hrunning, hcancels⟩ := executeJob_taken hfree request now
  have hold {n : Nat} (hn : n < p.next) :
      Function.update index p.next s.calls.length n = index n :=
    Function.update_of_ne hn.ne _ _
  have hnew : Function.update index p.next s.calls.length p.next = s.calls.length :=
    Function.update_self _ _ _
  have hcases {n : Nat} (hn : n < (p.executeJob request now).2.next) : n < p.next ∨ n = p.next :=
    Nat.lt_succ_iff_lt_or_eq.mp (hn.trans_eq hnext)
  refine ⟨h.capacity.trans hcapacity.symm, ?_, ?_, ?_, ?_, ?_, ?_, ?_, ?_, ?_, h.reports⟩
  · rw [hrunning, hcapacity, List.length_cons]
    push_cast
    omega
  · rw [hrunning, List.map_cons, List.nodup_cons]
    refine ⟨fun hmem => ?_, h.serials⟩
    obtain ⟨e, he, hserial⟩ := List.mem_map.mp hmem
    exact (p.issued e he).ne hserial
  · intro m hm n hn hsame
    rcases hcases hm with hm | rfl <;> rcases hcases hn with hn | rfl
    · rw [hold hm, hold hn] at hsame
      exact h.injective m hm n hn hsame
    · rw [hold hm, hnew] at hsame
      exact absurd hsame (h.below m hm).ne
    · rw [hold hn, hnew] at hsame
      exact absurd hsame.symm (h.below n hn).ne
    · rfl
  · intro n hn
    have hlength : (taken s request now).calls.length = s.calls.length + 1 := by simp [taken]
    rw [hlength]
    rcases hcases hn with hn | rfl
    · rw [hold hn]
      exact (h.below n hn).trans (Nat.lt_succ_self _)
    · rw [hnew]
      exact Nat.lt_succ_self _
  · rw [hrunning]
    rintro e (_ | ⟨_, he⟩)
    · rw [hnew]
      exact last_call _
    · rw [hold (p.issued e he)]
      exact (List.getElem?_append_left (h.below e.serial (p.issued e he))).trans (h.calls e he)
  · rw [hrunning, List.length_cons, ← h.holding]
    exact total_append Phase.holds _
  · exact (total_append Phase.admission _).trans h.admissions
  · intro jobID
    change (s.cancels.insert request.jobID s.calls.length).lookup jobID = _
    rw [hcancels]
    by_cases hjob : jobID = request.jobID
    · subst hjob
      rw [Finmap.lookup_insert, Finmap.lookup_insert, Option.map_some, hnew]
    · rw [Finmap.lookup_insert_of_ne _ hjob, Finmap.lookup_insert_of_ne _ hjob, h.cancels]
      cases hlookup : p.cancels.lookup jobID with
      | none => rfl
      | some serial => rw [Option.map_some, Option.map_some, hold (p.owned hlookup).1]
  · intro jobID serial hlookup
    rw [hcancels] at hlookup
    rw [hrunning]
    by_cases hjob : jobID = request.jobID
    · subst hjob
      rw [Finmap.lookup_insert] at hlookup
      exact ⟨_, List.mem_cons_self, Option.some.inj hlookup⟩
    · rw [Finmap.lookup_insert_of_ne _ hjob] at hlookup
      obtain ⟨e, he, hserial⟩ := h.entries hlookup
      exact ⟨e, List.mem_cons_of_mem _ he, hserial⟩

theorem eq_of_serial (h : Represents p sent s index) {e e' : Execution} (he : e ∈ p.running)
    (he' : e' ∈ p.running) (hserial : e'.serial = e.serial) : e' = e :=
  List.inj_on_of_nodup_map h.serials he' he hserial

/-- The call of one execution changes its phase as the execution does, and the calls of the
others stay as they are. -/
theorem calls_amend (h : Represents p sent s index) {e : Execution} (he : e ∈ p.running)
    {f : Execution → Execution}
    (hf : ∀ e, (f e).serial = e.serial ∧ (f e).request = e.request) {e' : Execution}
    (he' : e' ∈ (p.amend e.serial f hf).running) :
    (s.move (index e.serial) ⟨e.request, phaseOf e⟩ (phaseOf (f e))).calls[index e'.serial]? =
      some ⟨e'.request, phaseOf e'⟩ := by
  obtain ⟨old, hold, rfl⟩ := List.mem_map.mp he'
  rw [getElem?_move (h.calls e he)]
  by_cases hserial : old.serial = e.serial
  · obtain rfl := eq_of_serial h he hold hserial
    rw [if_pos rfl, (hf old).1, if_pos rfl, (hf old).2]
  · rw [if_neg hserial, if_neg fun hsame => hserial (h.injective _ (p.issued old hold) _
      (p.issued e he) hsame)]
    exact h.calls old hold

theorem represents_amend (h : Represents p sent s index) {e : Execution} (he : e ∈ p.running)
    {f : Execution → Execution}
    (hf : ∀ e, (f e).serial = e.serial ∧ (f e).request = e.request) :
    Represents (p.amend e.serial f hf) sent
      (s.move (index e.serial) ⟨e.request, phaseOf e⟩ (phaseOf (f e))) index := by
  have hphase (e : Execution) : (phaseOf e).holds = 1 ∧ (phaseOf e).admission = 0 := by
    unfold phaseOf
    split <;> exact ⟨rfl, rfl⟩
  have hserials : (p.amend e.serial f hf).running.map Execution.serial =
      p.running.map Execution.serial := by
    simp only [Process.amend, List.map_map]
    exact List.map_congr_left fun old _ => (amended_same e.serial hf old).1
  have hmove := effect_move (h.calls e he) (phaseOf (f e))
    ((hphase (f e)).1.trans (hphase e).1.symm) ((hphase (f e)).2.trans (hphase e).2.symm)
  refine ⟨h.capacity, ?_, ?_, h.injective, ?_, fun e' he' => calls_amend h he hf he', ?_,
    hmove.2.trans h.admissions, h.cancels, ?_, h.reports⟩
  · exact (congrArg Nat.cast (List.length_map _)).trans_le h.limit
  · rw [hserials]
    exact h.serials
  · intro n hn
    exact (h.below n hn).trans_eq (List.length_set).symm
  · exact hmove.1.trans (h.holding.trans (List.length_map _).symm)
  · intro jobID serial hlookup
    obtain ⟨other, hother, rfl⟩ := h.entries hlookup
    have hmem := List.mem_map_of_mem (f := Execution.serial) hother
    rw [← hserials] at hmem
    exact List.mem_map.mp hmem

/-- A cancel function that is in the map belongs to an execution whose call has not ended. -/
theorem represents_cancel (h : Represents p sent s index) (jobID : String) (now : Time) :
    Represents (p.cancelLocal jobID now) sent (s.cancelLocal jobID now) index := by
  have hlookup := h.cancels jobID
  unfold Process.cancelLocal Worker.cancelLocal
  cases hentry : p.cancels.lookup jobID with
  | none =>
      rw [hlookup, hentry]
      exact h
  | some serial =>
      obtain ⟨e, he, rfl⟩ := h.entries hentry
      have hamend := represents_amend h he (cancelled_same now)
      have hcall := h.calls e he
      simp only [hlookup, hentry, Option.map_some, Option.bind_some, hcall]
      cases hreturned : e.returned with
      | true =>
          have hphase : phaseOf e = .reported := if_pos hreturned
          have hsame : phaseOf { e with context := e.context.cancel now } = .reported :=
            if_pos hreturned
          have hstay : s.move (index e.serial) ⟨e.request, .reported⟩ .reported = s := by
            obtain ⟨hi, hget⟩ := List.getElem?_eq_some_iff.mp (hphase ▸ hcall)
            have hset : s.calls.set (index e.serial) ⟨e.request, .reported⟩ = s.calls := by
              rw [← hget, List.set_getElem_self]
            exact congrArg (fun calls => { s with calls := calls }) hset
          rw [hphase, hsame, hstay] at hamend
          rw [hphase]
          exact hamend
      | false =>
          have hphase : phaseOf e = .running e.context := if_neg (by simp [hreturned])
          have hnext : phaseOf { e with context := e.context.cancel now } =
              .running (e.context.cancel now) := if_neg (by simp [hreturned])
          rw [hphase, hnext] at hamend
          rw [hphase]
          exact hamend

theorem represents_returned (h : Represents p sent s index) {e : Execution}
    (he : e ∈ p.running) (hfirst : e.returned = false) (r : ReportResultRequest) :
    Represents (p.markReturned e.serial) (r :: sent)
      { s.move (index e.serial) ⟨e.request, .running e.context⟩ .reported with
        reports := (index e.serial, r) :: s.reports } index := by
  have hphase : phaseOf e = .running e.context := if_neg (by simp [hfirst])
  have hamend := represents_amend h he (f := fun e => { e with returned := true })
    fun _ => ⟨rfl, rfl⟩
  rw [hphase] at hamend
  exact { hamend with
    reports := by
      rw [List.map_cons, h.reports] }

theorem length_exit (hserials : (p.running.map Execution.serial).Nodup) {e : Execution}
    (he : e ∈ p.running) : (p.exit e).running.length + 1 = p.running.length := by
  have hmem : e.serial ∈ p.running.map Execution.serial := List.mem_map_of_mem he
  have hfilter : ((p.running.map Execution.serial).erase e.serial).length =
      (p.exit e).running.length := by
    rw [hserials.erase_eq_filter, List.filter_map, List.length_map]
    refine congrArg List.length (List.filter_congr fun other _ => ?_)
    exact Bool.eq_iff_iff.mpr (by simp)
  rw [← hfilter, List.length_erase_of_mem hmem, List.length_map]
  exact Nat.sub_add_cancel (List.length_pos_of_mem he)

theorem represents_exited (h : Represents p sent s index) {e : Execution} (he : e ∈ p.running)
    (hreturned : e.returned) :
    Represents (p.exit e) sent
      { s.move (index e.serial) ⟨e.request, .reported⟩ .released with
        active := wrap32 (s.active - 1), cancels := s.cancels.erase e.request.jobID } index := by
  have hphase : phaseOf e = .reported := if_pos hreturned
  have hcall := h.calls e he
  rw [hphase] at hcall
  have hmem {other : Execution} (hother : other ∈ (p.exit e).running) :
      other ∈ p.running ∧ other.serial ≠ e.serial := by
    obtain ⟨hrunning, hne⟩ := List.mem_filter.mp hother
    exact ⟨hrunning, of_decide_eq_true hne⟩
  have hlength := length_exit h.serials he
  refine ⟨h.capacity, ?_, ?_, h.injective, ?_, ?_, ?_, ?_, ?_, ?_, h.reports⟩
  · have hlimit := h.limit
    change ((p.exit e).running.length : Int) ≤ max 0 p.capacity
    omega
  · exact h.serials.sublist (List.filter_sublist.map Execution.serial)
  · intro n hn
    exact (h.below n hn).trans_eq (List.length_set).symm
  · intro other hother
    obtain ⟨hrunning, hne⟩ := hmem hother
    refine ((getElem?_move hcall .released _).trans (if_neg fun hsame => hne ?_)).trans
      (h.calls other hrunning)
    exact h.injective _ (p.issued other hrunning) _ (p.issued e he) hsame
  · have htotal : (s.move (index e.serial) ⟨e.request, .reported⟩ .released).holding + 1 =
        s.holding := total_move Phase.holds hcall .released
    rw [h.holding, ← hlength] at htotal
    exact Nat.add_right_cancel htotal
  · exact (admissions_move hcall rfl rfl).trans h.admissions
  · intro jobID
    change (s.cancels.erase e.request.jobID).lookup jobID =
      ((p.cancels.erase e.request.jobID).lookup jobID).map index
    by_cases hjob : jobID = e.request.jobID
    · rw [hjob, Finmap.lookup_erase, Finmap.lookup_erase]
      rfl
    · rw [Finmap.lookup_erase_ne hjob, Finmap.lookup_erase_ne hjob, h.cancels]
  · intro jobID serial hlookup
    change (p.cancels.erase e.request.jobID).lookup jobID = some serial at hlookup
    by_cases hjob : jobID = e.request.jobID
    · rw [hjob, Finmap.lookup_erase] at hlookup
      cases hlookup
    · rw [Finmap.lookup_erase_ne hjob] at hlookup
      obtain ⟨other, hother, rfl⟩ := h.entries hlookup
      refine ⟨other, List.mem_filter.mpr ⟨hother, decide_eq_true fun hserial => hjob ?_⟩, rfl⟩
      exact ((p.owned hlookup).2 e he hserial.symm).symm

end Represents

section Simulation

variable {p p' : Process} {sent sent' : List ReportResultRequest} {workerID : String}

/-- A process whose state a worker can come to with its calls looked up and counted one at a
time. -/
def Simulated (workerID : String) (p : Process) (sent : List ReportResultRequest) : Prop :=
  ∃ s index, Reachable 1 { id := workerID, capacity := p.capacity } s ∧ s.id = workerID ∧
    Represents p sent s index

theorem active_eq {s : Worker} {index : Nat → Nat} {k : Nat} {id : String}
    {capacity : Int} (hfits : p.capacity < 2 ^ 31) (h : Represents p sent s index)
    (hs : Reachable k { id := id, capacity := capacity } s) :
    s.active = p.running.length := by
  obtain ⟨history, hrun, -⟩ := hs
  have hlimit := h.limit
  rw [(sound_run hrun).1, h.holding]
  exact Int.bmod_eq_of_le (by omega) (by omega)

theorem operates_capacity (hop : Operates workerID (p, sent) (p', sent')) :
    p'.capacity = p.capacity := by
  cases hop with
  | executeJob request now =>
      unfold Process.executeJob
      split <;> rfl
  | cancelLocal jobID now =>
      unfold Process.cancelLocal
      split <;> rfl
  | returned now hrunning hfirst hresult => rfl
  | exited hrunning hreturned => rfl

theorem simulated_step (hfits : p.capacity < 2 ^ 31) (h : Simulated workerID p sent)
    (hop : Operates workerID (p, sent) (p', sent')) : Simulated workerID p' sent' := by
  have hcapacity := operates_capacity hop
  obtain ⟨s, index, hs, hid, hrep⟩ := h
  unfold Simulated
  rw [hcapacity]
  have hactive := active_eq hfits hrep hs
  cases hop with
  | executeJob request now =>
      rcases le_or_gt p.capacity p.running.length with hfull | hfree
      · have hsame : (p.executeJob request now).2 = p := by
          simp only [Process.executeJob, if_pos hfull]
        rw [hsame]
        refine ⟨_, index, reachable_refused hs hrep.admissions ?_, hid,
          represents_refused hrep request⟩
        rw [hactive, hrep.capacity]
        exact hfull
      · refine ⟨_, _, reachable_taken hs hrep.admissions ?_ now, hid,
          represents_taken hrep hfree request now⟩
        rw [hactive, hrep.capacity]
        exact hfree
  | cancelLocal jobID now =>
      refine ⟨_, index, reachable_next hs (.cancel s jobID now) ?_, ?_,
        represents_cancel hrep jobID now⟩
      · rw [(represents_cancel hrep jobID now).admissions]
        exact Nat.zero_le 1
      · rcases cancelLocal_cases s jobID now with hsame | ⟨_, _, _, -, -, hmove⟩
        · rw [hsame]
          exact hid
        · rw [hmove]
          exact hid
  | returned now hrunning hfirst hresult =>
      rename_i e result
      have hcall := hrep.calls e hrunning
      rw [phaseOf, if_neg (by simp [hfirst])] at hcall
      refine ⟨_, index, reachable_returned hs hrep.admissions hcall hresult, hid, ?_⟩
      rw [hid]
      exact represents_returned hrep hrunning hfirst _
  | exited hrunning hreturned =>
      rename_i e
      have hcall := hrep.calls e hrunning
      rw [phaseOf, if_pos hreturned] at hcall
      exact ⟨_, index, reachable_exited hs hrep.admissions hcall, hid,
        represents_exited hrep hrunning hreturned⟩

theorem simulated_new (workerID : String) (capacity : Int) :
    Simulated workerID (.new capacity) [] :=
  ⟨_, id, ⟨[], .start, fun _ hentry => absurd hentry List.not_mem_nil⟩, rfl,
    represents_new workerID capacity⟩

theorem capacity_of_operates {r r' : Process × List ReportResultRequest}
    (hrun : ReflTransGen (Operates workerID) r r') : r'.1.capacity = r.1.capacity := by
  induction hrun with
  | refl => rfl
  | tail _ hop ih => exact (operates_capacity hop).trans ih

theorem simulated_run {r r' : Process × List ReportResultRequest}
    (hfits : r.1.capacity < 2 ^ 31) (h : Simulated workerID r.1 r.2)
    (hrun : ReflTransGen (Operates workerID) r r') : Simulated workerID r'.1 r'.2 := by
  induction hrun with
  | refl => exact h
  | tail hrun hop ih =>
      exact simulated_step ((capacity_of_operates hrun).trans_lt hfits) ih hop

end Simulation

section Cluster

variable {cron : Cron} {cfg : SchedulerConfig} {workerID : String}

/-- The worker of a cluster is simulated, with the reports that it has made since it started. -/
def WorkerSimulated (workerID : String) (s : Cluster) : Prop :=
  (s.processes workerID).capacity < 2 ^ 31 →
    ∃ sent, Simulated workerID (s.processes workerID) sent

theorem workerSimulated_of_operates {s s' : Cluster} (h : WorkerSimulated workerID s)
    (hops : ∀ sent, ∃ sent', ReflTransGen (Operates workerID) (s.processes workerID, sent)
      (s'.processes workerID, sent')) : WorkerSimulated workerID s' := by
  intro hfits
  obtain ⟨_, hsame⟩ := hops []
  have hcapacity : (s.processes workerID).capacity < 2 ^ 31 :=
    (capacity_of_operates hsame).symm.trans_lt hfits
  obtain ⟨sent, hsimulated⟩ := h hcapacity
  obtain ⟨sent', hrun⟩ := hops sent
  exact ⟨sent', simulated_run hcapacity hsimulated hrun⟩

theorem served_operates (c : SharedState.Call) (s : Cluster) (d : ClusterDraw)
    (sent : List ReportResultRequest) :
    ReflTransGen (Operates workerID) (s.processes workerID, sent)
      (served c s d workerID, sent) := by
  unfold served
  split
  · split
    · rename_i id request
      by_cases hid : workerID = id
      · subst hid
        rw [Function.update_self]
        exact .single (.executeJob request d.now)
      · rw [Function.update_of_ne hid]
    · rename_i id jobID _
      by_cases hid : workerID = id
      · subst hid
        rw [Function.update_self]
        exact .single (.cancelLocal jobID d.now)
      · rw [Function.update_of_ne hid]
    · rfl
  · rfl

theorem cancelAll_operates (ids : List String) (now : Time) (p : Process)
    (sent : List ReportResultRequest) :
    ReflTransGen (Operates workerID) (p, sent)
      (ids.foldl (fun p jobID => p.cancelLocal jobID now) p, sent) := by
  induction ids generalizing p with
  | nil => rfl
  | cons jobID ids ih => exact .head (.cancelLocal jobID now) (ih _)

theorem program_simulated {α : Type} (prog : SharedState.Prog α) {s s' : Cluster}
    {draws : List ClusterDraw} {value : α} (h : WorkerSimulated workerID s)
    (hrun : cluster.Runs prog s draws value s') : WorkerSimulated workerID s' :=
  ensures_invariant (fun c s d _ hs => workerSimulated_of_operates hs fun sent =>
    ⟨sent, served_operates c s d sent⟩) prog h _ _ _ hrun

theorem cluster_step_simulated {s s' : Cluster} {label : Label} (h : WorkerSimulated workerID s)
    (hstep : ClientCancels.Step cron cfg s label s') : WorkerSimulated workerID s' := by
  have hother (id : String) (p : Process)
      (hops : ∀ sent, ∃ sent', ReflTransGen (Operates id) (s.processes id, sent) (p, sent')) :
      WorkerSimulated workerID { s with processes := Function.update s.processes id p } := by
    refine workerSimulated_of_operates h fun sent => ?_
    dsimp only
    by_cases hid : workerID = id
    · subst hid
      rw [Function.update_self]
      exact hops sent
    · rw [Function.update_of_ne hid]
      exact ⟨sent, .refl⟩
  cases hstep with
  | operation htask hrun => exact program_simulated _ h hrun
  | returned id now hrunning hfirst hresult =>
      exact hother id _ fun sent => ⟨_, .single (.returned now hrunning hfirst hresult)⟩
  | reported r hr hrun =>
      have hsame : WorkerSimulated workerID { s with reports := s.reports.erase r } := h
      exact program_simulated _ hsame hrun
  | lost r => exact h
  | exited hrunning hreturned =>
      exact hother _ _ fun sent => ⟨_, .single (.exited hrunning hreturned)⟩
  | heartbeat id now hids =>
      exact hother id _ fun sent => ⟨_, cancelAll_operates _ now _ sent⟩
  | registered conns workers => exact h
  | restarted id capacity =>
      by_cases hid : workerID = id
      · subst hid
        intro _
        dsimp only
        rw [Function.update_self]
        exact ⟨[], simulated_new workerID capacity⟩
      · intro hfits
        dsimp only at hfits ⊢
        rw [Function.update_of_ne hid] at hfits ⊢
        exact h hfits

/-- In a cluster whose pushes are taken in one step, every worker is in a state that it can come
to with the steps of its calls apart, where never two of them are between their look at the
counter and their change of it. -/
theorem cluster_simulated {P : Label → Cluster → Prop} {start s : Cluster} {labels : List Label}
    (hnew : ∀ workerID, ∃ capacity, start.processes workerID = .new capacity)
    (hrun : Reaches cron cfg P start labels s) (workerID : String)
    (hfits : (s.processes workerID).capacity < 2 ^ 31) :
    ∃ sent, Simulated workerID (s.processes workerID) sent := by
  have hall : WorkerSimulated workerID s := by
    clear hfits
    induction hrun with
    | start =>
        intro _
        obtain ⟨capacity, hcapacity⟩ := hnew workerID
        rw [hcapacity]
        exact ⟨[], simulated_new workerID capacity⟩
    | step _ _ hstep ih => exact cluster_step_simulated ih hstep
  exact hall hfits

end Cluster

end Chronos.WorkerSimulation
