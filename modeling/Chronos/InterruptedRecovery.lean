import Chronos.Library.Histories
import Chronos.Operations
import Chronos.PostgresWorkers
import Chronos.SchedulerCalls

namespace Chronos.InterruptedRecovery

open Chronos.Domain
open Chronos.Library.CallProgram
open Chronos.Library.CallMachine
open Chronos.Library.Histories
open Chronos.Library.KeyedTable
open Chronos.MemoryStore
open Chronos.Operations (echoJob smallConfig)
open Chronos.PostgresStore (Timestamp)
open Chronos.PostgresWorkers
open Chronos.SchedulerCalls
open Chronos.SchedulerService
open Chronos.SharedState

def unavailableIDs (t : WorkerRows) : Finset String :=
  t.matching fun row => row.status == .unavailable

/-- The world, with the workers as the rows of Postgres, and those whose status was changed to
UNAVAILABLE and whose recovery has not been carried out to the end since. -/
structure Poll where
  world : World
  workers : WorkerRows
  owed : Finset String

structure PollDraw extends Draw where
  mark : MarkDraw := {}

def Poll.step : (c : Call) → Poll → PollDraw → Answer c × Poll
  | .markStaleWorkers heartbeatTimeout grace, p, d =>
      let r := PostgresWorkers.markStaleWorkers heartbeatTimeout grace p.workers d.mark
      let answer := match r.1.2.2 with
        | some e => .error e
        | none => .ok (r.1.1, r.1.2.1)
      let changed := unavailableIDs r.2 \ unavailableIDs p.workers
      (answer, { p with workers := r.2, owed := p.owed ∪ changed })
  | .deletePendingCancels workerID, p, d =>
      -- the last call of `recoverWorkerJobs`
      let r := SharedState.step (.deletePendingCancels workerID) p.world d.toDraw
      (r.1, { p with world := r.2, owed := p.owed.erase workerID })
  | c, p, d =>
      let r := SharedState.step c p.world d.toDraw
      (r.1, { p with world := r.2 })

/-- The operations over Postgres, where every call of the store may fail. -/
def postgres : Machine Call Answer Poll PollDraw where
  step := Poll.step
  Allowed := fun p c d =>
    match c with
    | .markStaleWorkers _ _ =>
        p.workers.Enumerates d.mark.rows ∧ p.workers.Enumerates d.mark.rows2
    | c => Sound p.world c d.toDraw

instance (p : Poll) (c : Call) (d : PollDraw) : Decidable (postgres.Allowed p c d) :=
  match c with
  | .markStaleWorkers _ _ => inferInstanceAs (Decidable (_ ∧ _))
  | .timeNow | .newUUID | .randFloat64 | .createJob _ | .getJob _ | .updateJobStateIf _ _ _ _
  | .listJobs _ _ | .listDueScheduled _ | .listCancelRequested _ | .listTimedOutRunning _ _
  | .createExecution _ | .finishExecution _ _ _ | .enqueue _ | .emit _ | .pickWorker
  | .incActiveJobs _ | .decActiveJobs _ | .addPendingCancel _ _ | .clearPendingCancel _ _
  | .lookupWorker _ | .deleteWorker _ | .deletePendingCancels _ | .executeJob _ _
  | .cancelJob _ _ _ => by dsimp only [postgres]; infer_instance

@[simp] theorem postgres_step : postgres.step = Poll.step := rfl

/-- The call is one of the store and fails. -/
def failed : Call × PollDraw → Bool
  | (.markStaleWorkers _ _, d) => d.mark.first != .done || d.mark.second != .done
  | (c, d) => c.ofStore && d.fault.isSome

def listingFailed : Call × PollDraw → Bool
  | (.listJobs _ _, d) => d.fault.isSome
  | _ => false

def Listed (trace : List (Call × PollDraw)) : Prop := ∀ entry ∈ trace, listingFailed entry = false

instance (trace : List (Call × PollDraw)) : Decidable (Listed trace) :=
  inferInstanceAs (Decidable (∀ entry ∈ trace, listingFailed entry = false))

@[simp] theorem listed_nil : Listed [] := fun _ hentry => absurd hentry List.not_mem_nil

@[simp] theorem listed_cons {entry : Call × PollDraw} {trace : List (Call × PollDraw)} :
    Listed (entry :: trace) ↔ listingFailed entry = false ∧ Listed trace :=
  List.forall_mem_cons

@[simp] theorem listed_append {first rest : List (Call × PollDraw)} :
    Listed (first ++ rest) ↔ Listed first ∧ Listed rest :=
  List.forall_mem_append

section MarkStaleWorkers

variable (t : WorkerRows) (rows : List String) (status : WorkerStatus) (select : WorkerRow → Bool)

theorem unavailableIDs_insert {row : WorkerRow} (hstatus : row.status = .unavailable) :
    unavailableIDs (t.put row) = insert row.name (unavailableIDs t) :=
  (matching_put t _ row).trans (if_pos (by simp [hstatus]))

theorem unavailableIDs_erase {row : WorkerRow} (hstatus : row.status ≠ .unavailable) :
    unavailableIDs (t.put row) = (unavailableIDs t).erase row.name :=
  (matching_put t _ row).trans (if_neg (by simp [hstatus]))

theorem unavailableIDs_foldl_unavailable (matched : List WorkerRow) :
    unavailableIDs ((matched.map fun row => row.setStatus .unavailable).foldl Table.put t) =
      unavailableIDs t ∪ (matched.map WorkerRow.name).toFinset := by
  induction matched generalizing t with
  | nil => simp
  | cons row matched ih =>
      rw [List.map_cons, List.foldl_cons, ih, unavailableIDs_insert t rfl, List.map_cons,
        List.toFinset_cons, Finset.insert_union, Finset.union_insert]
      rfl

theorem unavailableIDs_foldl_suspected (matched : List WorkerRow) :
    unavailableIDs ((matched.map fun row => row.setStatus .suspected).foldl Table.put t) =
      unavailableIDs t \ (matched.map WorkerRow.name).toFinset := by
  induction matched generalizing t with
  | nil => simp
  | cons row matched ih =>
      rw [List.map_cons, List.foldl_cons, ih,
        unavailableIDs_erase t (by simp [WorkerRow.setStatus]), List.map_cons,
        List.toFinset_cons, Finset.erase_sdiff_comm, Finset.sdiff_insert]
      rfl

/-- A statement that selects no UNAVAILABLE worker returns none. -/
theorem disjoint_updated (hselect : ∀ row, select row → row.status ≠ .unavailable) :
    Disjoint (unavailableIDs t) (updateWorkers t rows status select).1.toFinset := by
  rw [Finset.disjoint_left]
  intro id hunavailable hid
  obtain ⟨row, hrow, hstatus⟩ := mem_matching.mp hunavailable
  obtain ⟨row', hmatched, rfl⟩ := List.mem_map.mp (List.mem_toFinset.mp hid)
  obtain ⟨hscan, hselected⟩ := List.mem_filter.mp hmatched
  obtain rfl := Option.some.inj (hrow.symm.trans (mem_inOrder.mp hscan).2)
  exact hselect row hselected (by simpa using hstatus)

variable (heartbeatTimeout grace : Duration) (d : MarkDraw)

/-- The rows of the first statement. -/
def deadIDs : List String :=
  (updateWorkers t d.rows .unavailable (dead (cutoff d.deadAt (heartbeatTimeout + grace)))).1

theorem unavailableIDs_first :
    unavailableIDs (updateWorkers t d.rows .unavailable
        (dead (cutoff d.deadAt (heartbeatTimeout + grace)))).2 \ unavailableIDs t =
      (deadIDs t heartbeatTimeout grace d).toFinset := by
  rw [updateWorkers, unavailableIDs_foldl_unavailable]
  refine Finset.union_sdiff_cancel_left
    (disjoint_updated t d.rows .unavailable _ fun row hdead => ?_)
  rintro hstatus
  simp [dead, hstatus] at hdead

theorem unavailableIDs_second (suspectBefore deadBefore : Timestamp) :
    unavailableIDs (updateWorkers t rows .suspected (stale suspectBefore deadBefore)).2 =
      unavailableIDs t := by
  rw [updateWorkers, unavailableIDs_foldl_suspected]
  refine Finset.sdiff_eq_self_of_disjoint
    (disjoint_updated t rows .suspected _ fun row hstale => ?_)
  rintro hstatus
  simp [stale, hstatus] at hstale

/-- Unless its first statement is refused, `MarkStaleWorkers` changes the rows of that
statement; it returns them without an error just if both statements are done. -/
theorem markStaleWorkers_spec :
    let r := PostgresWorkers.markStaleWorkers heartbeatTimeout grace t d
    ((∃ e, d.first = .refused e) ∧ r.2 = t ∧ r.1.2.2 ≠ none) ∨
      (∀ e, d.first ≠ .refused e) ∧
        unavailableIDs r.2 \ unavailableIDs t = (deadIDs t heartbeatTimeout grace d).toFinset ∧
        (r.1.2.2 = none ↔ d.first = .done ∧ d.second = .done) ∧
        (r.1.2.2 = none → r.1.2.1 = deadIDs t heartbeatTimeout grace d) := by
  have hfirst := unavailableIDs_first t heartbeatTimeout grace d
  unfold PostgresWorkers.markStaleWorkers
  cases d.first with
  | refused e => exact Or.inl ⟨⟨e, rfl⟩, rfl, by simp⟩
  | unscanned e => exact Or.inr ⟨by simp, hfirst, by simp, by simp⟩
  | cut read e => exact Or.inr ⟨by simp, hfirst, by simp, by simp⟩
  | done =>
      cases d.second with
      | refused e => exact Or.inr ⟨by simp, hfirst, by simp, by simp⟩
      | unscanned e =>
          refine Or.inr ⟨by simp, ?_, by simp, by simp⟩
          rw [unavailableIDs_second, hfirst]
      | cut read e =>
          refine Or.inr ⟨by simp, ?_, by simp, by simp⟩
          rw [unavailableIDs_second, hfirst]
      | done =>
          refine Or.inr ⟨by simp, ?_, by simp, fun _ => rfl⟩
          rw [unavailableIDs_second, hfirst]

theorem nodup_deadIDs {t : WorkerRows} {d : MarkDraw} (hrows : t.Enumerates d.rows) :
    (deadIDs t heartbeatTimeout grace d).Nodup :=
  (nodup_map_key_inOrder hrows.1).sublist (List.filter_sublist.map WorkerRow.name)

theorem deadIDs_eq_nil_iff {t : WorkerRows} {d : MarkDraw} (hrows : t.Enumerates d.rows) :
    deadIDs t heartbeatTimeout grace d = [] ↔ ∀ id row, t.get? id = some row →
      dead (cutoff d.deadAt (heartbeatTimeout + grace)) row = false := by
  rw [deadIDs, updateWorkers, List.map_eq_nil_iff, List.filter_eq_nil_iff]
  constructor
  · intro hnone id row hrow
    obtain rfl := key_of_get? hrow
    simpa using hnone row ((Enumerates.mem_inOrder hrows).mpr hrow)
  · intro hnone row hrow
    simp [hnone row.name row ((Enumerates.mem_inOrder hrows).mp hrow)]

end MarkStaleWorkers

section Recovery

theorem owed_step {c : Call} (hc : recoverJobCall c) (p : Poll) (d : PollDraw) :
    (Poll.step c p d).2.owed = p.owed := by
  cases c <;> first | exact hc.elim | rfl

theorem listed_of_calls {α : Type} {prog : Prog α} (hprog : prog.CallsOnly recoverJobCall)
    (p : Poll) (ds : List PollDraw) : Listed (postgres.trace prog p ds) := by
  rintro ⟨c, d⟩ hentry
  have hc := calls_of_trace hprog hentry
  cases c <;> first | exact hc.elim | rfl

/-- The program settles what is owed to the worker just if no listing of it fails. -/
def Settles {α : Type} (workerID : String) (prog : Prog α) : Prop :=
  ∀ p ds value p', postgres.Runs prog p ds value p' →
    (Listed (postgres.trace prog p ds) → p'.owed = p.owed.erase workerID) ∧
      (¬Listed (postgres.trace prog p ds) → p'.owed = p.owed)

theorem settles_perform {α : Type} {workerID : String} {c : Call} {f : Answer c → Prog α}
    (hc : ∀ p d, listingFailed (c, d) = false ∧ (Poll.step c p d).2.owed = p.owed)
    (hf : ∀ answer, Settles workerID (f answer)) : Settles workerID (ask c >>= f) := by
  intro p ds value p' hrun
  obtain ⟨d, rest, rfl, -, hrun⟩ := runs_perform_iff.mp hrun
  have hsettles := hf _ _ _ _ _ hrun
  rw [postgres_step, (hc p d).2] at hsettles
  rwa [trace_perform, listed_cons, and_iff_right (hc p d).1]

theorem settles_bind {α β : Type} {workerID : String} {prog : Prog α} {f : α → Prog β}
    (hprog : prog.CallsOnly recoverJobCall) (hf : ∀ value, Settles workerID (f value)) :
    Settles workerID (prog >>= f) := by
  intro p ds value p' hrun
  obtain ⟨first, rest, middle, p₁, rfl, hfirst, hrest⟩ := runs_bind_iff.mp hrun
  have howed : p₁.owed = p.owed := ensures_of_calls (I := fun p₁ : Poll => p₁.owed = p.owed)
    (fun c p₁ d hc _ hp₁ => (owed_step hc p₁ d).trans hp₁) hprog rfl _ _ _ hfirst
  have hsettles := hf _ _ _ _ _ hrest
  rw [howed] at hsettles
  rwa [trace_bind hfirst, listed_append, and_iff_right (listed_of_calls hprog p first)]

theorem settles_listing {workerID : String} {state : Option JobState} {limit : Int}
    {f : Except Err (List Job) → Prog (Except Err Unit)}
    (herror : ∀ e, f (.error e) = .ret (.error e))
    (hf : ∀ jobs, Settles workerID (f (.ok jobs))) :
    Settles workerID (ask (.listJobs state limit) >>= f) := by
  intro p ds value p' hrun
  obtain ⟨d, rest, rfl, -, hrun⟩ := runs_perform_iff.mp hrun
  rw [trace_perform]
  simp only [postgres_step, Poll.step, step] at hrun ⊢
  cases hfault : d.fault with
  | some e =>
      rw [guarded_of_some hfault, herror] at hrun
      obtain ⟨-, -, rfl⟩ := runs_ret_iff.mp hrun
      refine ⟨fun hlisted => ?_, fun _ => rfl⟩
      have hanswered := (listed_cons.mp hlisted).1
      simp [listingFailed, hfault] at hanswered
  | none =>
      rw [guarded_of_none hfault] at hrun ⊢
      have hanswered : listingFailed (.listJobs state limit, d) = false := by
        simp [listingFailed, hfault]
      rw [listed_cons, and_iff_right hanswered]
      exact hf _ _ _ _ _ hrun

theorem recoverJobs_settles (workerID : String) (jobs : List Job) :
    Settles workerID (recoverJobs workerID jobs) := by
  refine settles_perform (fun _ _ => ⟨rfl, rfl⟩) fun now => ?_
  refine settles_bind (callsOnly_forEach fun job _ => ?_) fun _ => ?_
  · split
    · trivial
    · exact recoverJob_calls workerID now job
  · intro p ds value p' hrun
    obtain ⟨d, rest, rfl, -, hrun⟩ := runs_perform_iff.mp hrun
    obtain ⟨rfl, -, rfl⟩ := runs_ret_iff.mp hrun
    refine ⟨fun _ => rfl, fun hnot => absurd ?_ hnot⟩
    exact listed_cons.mpr ⟨rfl, listed_nil⟩

theorem recoverWorkerJobs_settles (workerID : String) :
    Settles workerID (recoverWorkerJobs workerID) :=
  settles_listing (fun _ => rfl) fun running =>
    settles_listing (fun _ => rfl) fun assigned =>
      settles_listing (fun _ => rfl) fun cancelReq =>
        recoverJobs_settles workerID (running ++ assigned ++ cancelReq)

theorem settles_return {α β : Type} {workerID : String} {prog : Prog α} {f : α → β}
    (hprog : Settles workerID prog) :
    Settles workerID (prog >>= fun value => pure (f value)) := by
  intro p ds value p' hrun
  obtain ⟨first, rest, middle, p₁, rfl, hfirst, hrest⟩ := runs_bind_iff.mp hrun
  obtain ⟨rfl, -, rfl⟩ := runs_ret_iff.mp hrest
  have hreturned : Listed (postgres.trace (pure (f middle)) p' []) := listed_nil
  rw [trace_bind hfirst, listed_append, and_iff_left hreturned]
  exact hprog _ _ _ _ hfirst

theorem dropWorker_settles (workerID : String) : Settles workerID (dropWorker workerID) :=
  settles_perform (fun _ _ => ⟨rfl, rfl⟩) fun _ =>
    settles_perform (fun _ _ => ⟨rfl, rfl⟩) fun _ =>
      settles_return (recoverWorkerJobs_settles workerID)

/-- What the loop of `checkWorkers` does to the debts of the workers it goes through. -/
structure Clears (ids : List String) (trace : List (Call × PollDraw)) (p p' : Poll) : Prop where
  kept : ∀ id ∈ p'.owed, id ∈ p.owed
  others : ∀ id ∈ p.owed, id ∉ ids → id ∈ p'.owed
  cleared : (∀ id ∈ ids, id ∉ p'.owed) ↔ Listed trace

theorem dropWorkers_clear {ids : List String} (hnodup : ids.Nodup) {p p' : Poll}
    {ds : List PollDraw} {value : Unit} (howed : ∀ id ∈ ids, id ∈ p.owed)
    (hrun : postgres.Runs (forEach ids dropWorker) p ds value p') :
    Clears ids (postgres.trace (forEach ids dropWorker) p ds) p p' := by
  induction ids generalizing p ds with
  | nil =>
      obtain ⟨rfl, -, rfl⟩ := runs_ret_iff.mp hrun
      exact ⟨fun _ h => h, fun _ h _ => h, iff_of_true (by simp) listed_nil⟩
  | cons workerID ids ih =>
      obtain ⟨hfresh, hnodup⟩ := List.nodup_cons.mp hnodup
      obtain ⟨first, rest, _, p₁, rfl, hfirst, hrest⟩ := runs_bind_iff.mp hrun
      obtain ⟨hpaid, hunpaid⟩ := dropWorker_settles workerID _ _ _ _ hfirst
      have hdropped : (workerID ∉ p₁.owed ↔ Listed (postgres.trace (dropWorker workerID) p first)) ∧
          ∀ id, id ≠ workerID → (id ∈ p₁.owed ↔ id ∈ p.owed) := by
        by_cases hlisted : Listed (postgres.trace (dropWorker workerID) p first)
        · rw [hpaid hlisted]
          refine ⟨iff_of_true (Finset.notMem_erase _ _) hlisted, fun id hid => ?_⟩
          rw [Finset.mem_erase, and_iff_right hid]
        · rw [hunpaid hlisted]
          refine ⟨iff_of_false (not_not_intro (howed _ List.mem_cons_self)) hlisted, fun _ _ => ?_⟩
          rfl
      have hother : ∀ id ∈ ids, id ≠ workerID := by
        rintro id hid rfl
        exact hfresh hid
      have hclears := ih hnodup (fun id hid => (hdropped.2 id (hother id hid)).mpr
        (howed id (List.mem_cons_of_mem _ hid))) hrest
      have hsame : workerID ∈ p'.owed ↔ workerID ∈ p₁.owed :=
        ⟨hclears.kept workerID, fun hmem => hclears.others workerID hmem hfresh⟩
      refine ⟨fun id hid => ?_, fun id hid hnot => ?_, ?_⟩
      · by_cases hworker : id = workerID
        · rw [hworker]
          exact howed _ List.mem_cons_self
        · exact (hdropped.2 id hworker).mp (hclears.kept id hid)
      · obtain ⟨hworker, hids⟩ := not_or.mp (List.mem_cons.not.mp hnot)
        exact hclears.others id ((hdropped.2 id hworker).mpr hid) hids
      · rw [forEach, trace_bind hfirst, listed_append, ← hclears.cleared, ← hdropped.1, ← hsame,
          List.forall_mem_cons]

end Recovery

/-- When a poll, with the given draws, recovers every worker that it marks: its first `UPDATE`
matches no row or is refused, or neither statement and no listing of the poll fails. -/
def Recovers (cfg : SchedulerConfig) (p : Poll) (ds : List PollDraw) : Prop :=
  ∀ d ∈ ds.head?,
    (∀ id row, p.workers.get? id = some row →
      dead (cutoff d.mark.deadAt (cfg.heartbeatTimeout + cfg.suspectGracePeriod)) row = false) ∨
    (∃ e, d.mark.first = .refused e) ∨
    (d.mark.first = .done ∧ d.mark.second = .done ∧
      Listed (postgres.trace (checkWorkers cfg) p ds))

/-- From a state in which no recovery is owed, a poll leaves none owed just if it recovers
every worker that it marks. -/
theorem poll_settles_iff {cfg : SchedulerConfig} {p p' : Poll} {ds : List PollDraw}
    {result : Except Err Unit} (howed : p.owed = ∅)
    (hrun : postgres.Runs (checkWorkers cfg) p ds result p') :
    p'.owed = ∅ ↔ Recovers cfg p ds := by
  obtain ⟨d, rest, rfl, ⟨hrows, -⟩, hrun⟩ := runs_perform_iff.mp hrun
  have hspec := markStaleWorkers_spec p.workers cfg.heartbeatTimeout cfg.suspectGracePeriod d.mark
  have hnodup := nodup_deadIDs cfg.heartbeatTimeout cfg.suspectGracePeriod hrows
  have hnil := deadIDs_eq_nil_iff cfg.heartbeatTimeout cfg.suspectGracePeriod hrows
  rw [Recovers, List.head?_cons, checkWorkers, trace_perform, listed_cons]
  simp only [Option.mem_some_iff, forall_eq', postgres_step, Poll.step, howed,
    Finset.empty_union] at hrun ⊢
  have hmarked : listingFailed (.markStaleWorkers cfg.heartbeatTimeout cfg.suspectGracePeriod, d) =
      false := rfl
  rw [← hnil, and_iff_right hmarked]
  generalize PostgresWorkers.markStaleWorkers cfg.heartbeatTimeout cfg.suspectGracePeriod
    p.workers d.mark = r at hspec hrun ⊢
  generalize deadIDs p.workers cfg.heartbeatTimeout cfg.suspectGracePeriod d.mark = ids
    at hspec hnodup ⊢
  obtain ⟨⟨suspected, unavailable, error⟩, t'⟩ := r
  cases error with
  | some e =>
      obtain ⟨-, -, rfl⟩ := runs_ret_iff.mp hrun
      rcases hspec with ⟨hrefused, rfl, -⟩ | ⟨happlied, hchanged, hdone, -⟩
      · exact iff_of_true (Finset.sdiff_self _) (Or.inr (Or.inl hrefused))
      · simp only at hchanged
        rw [hchanged, List.toFinset_eq_empty_iff]
        refine ⟨Or.inl, ?_⟩
        rintro (hnone | ⟨e', hrefused⟩ | ⟨hfirst, hsecond, -⟩)
        · exact hnone
        · exact absurd hrefused (happlied e')
        · cases hdone.mpr ⟨hfirst, hsecond⟩
  | none =>
      rcases hspec with ⟨-, -, herror⟩ | ⟨happlied, hchanged, hdone, hreturned⟩
      · exact absurd rfl herror
      · obtain rfl : unavailable = ids := hreturned rfl
        obtain ⟨hfirst, hsecond⟩ := hdone.mp rfl
        obtain ⟨loop, last, value, p₁, rfl, hloop, hret⟩ := runs_bind_iff.mp hrun
        obtain ⟨rfl, -, rfl⟩ := runs_ret_iff.mp hret
        have howes : ∀ id, id ∈ unavailableIDs t' \ unavailableIDs p.workers ↔
            id ∈ unavailable := by
          intro id
          rw [← List.mem_toFinset, ← hchanged]
        have hclears := dropWorkers_clear hnodup (fun id hid => (howes id).mpr hid) hloop
        have hreturned : Listed (postgres.trace (pure (.ok ()) : Prog (Except Err Unit)) p' []) :=
          listed_nil
        rw [trace_bind hloop, listed_append, and_iff_left hreturned, ← hclears.cleared,
          Finset.eq_empty_iff_forall_notMem]
        constructor
        · intro hempty
          exact Or.inr (Or.inr ⟨hfirst, hsecond, fun id _ => hempty id⟩)
        · intro hrecovers id hid
          have hlisted := (howes id).mp (hclears.kept id hid)
          rcases hrecovers with rfl | ⟨e, hrefused⟩ | ⟨-, -, hcleared⟩
          · exact absurd hlisted List.not_mem_nil
          · exact happlied e hrefused
          · exact hcleared id hlisted hid

/-- A poll with its draws, or anything else that happens to the world and the workers. -/
inductive Event
  | poll (ds : List PollDraw)
  | other

/-- Polls one after another, and between them any change of the world. -/
inductive Step (cfg : SchedulerConfig) : Poll → Event → Poll → Prop
  | poll {p p' : Poll} {ds : List PollDraw} {result : Except Err Unit}
      (hrun : postgres.Runs (checkWorkers cfg) p ds result p') : Step cfg p (.poll ds) p'
  | other (p : Poll) (w : World) (workers : WorkerRows) :
      Step cfg p .other { p with world := w, workers := workers }

/-- The step is not a poll, or one that recovers every worker that it marks. -/
def Undisturbed (cfg : SchedulerConfig) : Entry Poll Event → Prop
  | ⟨p, .poll ds, _⟩ => Recovers cfg p ds
  | _ => True

/-- In a run whose polls all recover the workers that they mark, no recovery is owed in any
state: no poll without a store error is needed to make up for an earlier one. -/
theorem marked_workers_recovered {cfg : SchedulerConfig} {start p : Poll}
    {history : List (Entry Poll Event)} (hstart : start.owed = ∅)
    (hrun : Run (Step cfg) start history p)
    (hpolls : ∀ entry ∈ history, Undisturbed cfg entry) : p.owed = ∅ := by
  refine run_invariant (P := Undisturbed cfg) (I := fun _ p => p.owed = ∅) hstart ?_ hrun hpolls
  intro history p event p' howed hstep hpoll
  cases hstep with
  | poll hrun => exact (poll_settles_iff howed hrun).mpr hpoll
  | other w workers => exact howed

section Scenarios

/-- A job runs on a worker that was last heard of at time 0. -/
def silentWorker : Poll where
  world :=
    { World.empty with
      store := .putJob .new { echoJob .running with workerID := "worker" } }
  workers := (upsertWorker .empty { id := "worker", capacity := 4, lastHeartbeat := 0 }).2
  owed := ∅

def marks (now : Time) : MarkDraw where
  suspectAt := now
  deadAt := now
  rows := ["worker"]
  rows2 := ["worker"]

def connectionLost : Err := .external "connection lost"

/-- The first listing of the recovery fails. -/
def listingFails : List PollDraw :=
  [{ mark := marks (60 * second) }, {}, {}, { order := ["job"], fault := some connectionLost }]

/-- The second `UPDATE` of the marking fails. -/
def secondUpdateFails : List PollDraw :=
  [{ mark := { marks (60 * second) with second := .refused connectionLost } }]

/-- The poll leaves the worker UNAVAILABLE, and the next poll, in which no call fails, does
not recover it. -/
def LosesRecovery (ds : List PollDraw) : Prop :=
  ∃ result p₁ p₂,
    let later : List PollDraw := [{ mark := marks (120 * second) }]
    postgres.Runs (checkWorkers smallConfig) silentWorker ds result p₁ ∧
      (p₁.workers.get? "worker").map WorkerRow.status = some .unavailable ∧
      postgres.Runs (checkWorkers smallConfig) p₁ later (.ok ()) p₂ ∧
      (∀ entry ∈ postgres.trace (checkWorkers smallConfig) p₁ later, failed entry = false) ∧
      p₂.owed = {"worker"} ∧ p₂.world.jobState "job" = some .running

theorem losesRecovery_of_mem {ds : List PollDraw}
    (hds : ds ∈ [listingFails, secondUpdateFails]) : LosesRecovery ds := by
  have hfirst : (postgres.exec (checkWorkers smallConfig) silentWorker ds).isSome := by
    revert ds
    decide +kernel
  let p₁ := ((postgres.exec (checkWorkers smallConfig) silentWorker ds).get hfirst).2
  let later : List PollDraw := [{ mark := marks (120 * second) }]
  have hsecond : (postgres.exec (checkWorkers smallConfig) p₁ later).isSome := by
    revert ds
    decide +kernel
  let next := (postgres.exec (checkWorkers smallConfig) p₁ later).get hsecond
  refine ⟨_, p₁, next.2, runs_of_get hfirst, ?_, ?_, ?_⟩
  · revert ds
    decide +kernel
  · have hok : next.1 = .ok () := by
      revert ds
      decide +kernel
    exact hok ▸ runs_of_get hsecond
  · revert ds
    decide +kernel

/-- A failed listing and a failed second `UPDATE` both lose the recovery. -/
theorem interrupted_recovery_is_lost :
    LosesRecovery listingFails ∧ LosesRecovery secondUpdateFails :=
  ⟨losesRecovery_of_mem (by simp), losesRecovery_of_mem (by simp)⟩

/-- The same poll without a failure. -/
def undisturbed : List PollDraw :=
  { mark := marks (60 * second) } :: List.replicate 9 { order := ["job"] }

theorem lost_worker_recovered :
    ∃ result p, postgres.Runs (checkWorkers smallConfig) silentWorker undisturbed result p ∧
      p.workers.get? "worker" =
        encodeWorker { id := "worker", capacity := 4, status := .unavailable, lastHeartbeat := 0 } ∧
      p.owed = ∅ := by
  let p := ((postgres.exec (checkWorkers smallConfig) silentWorker undisturbed).get
    (by decide +kernel)).2
  have hpoll : postgres.Runs (checkWorkers smallConfig) silentWorker undisturbed (.ok ()) p :=
    runs_of_get (M := postgres) (by decide +kernel)
  refine ⟨.ok (), p, hpoll, by decide +kernel, ?_⟩
  refine marked_workers_recovered rfl (.next .start (.poll hpoll)) ?_
  rintro _ hentry
  obtain rfl := List.mem_singleton.mp hentry
  rintro d ⟨⟩
  refine Or.inr (Or.inr ⟨rfl, rfl, ?_⟩)
  decide +kernel

end Scenarios

end Chronos.InterruptedRecovery
