import Chronos.FastResultRace
import Chronos.SlotAccounting.Balance

namespace Chronos.SlotAccounting

open Chronos.Domain
open Chronos.FastResultRace (echoReport)
open Chronos.Library.Bookkeeping
open Chronos.Library.Interleaving
open Chronos.Operations
open Chronos.SchedulerService
open Chronos.SharedState

section Runs

variable {cron : Cron} {cfg : SchedulerConfig} {workerID : String} {initial : Int}
  {w w' : World} {books : Books} {duty : Duty} {duties : Multiset Duty}

/-- `w'` has the jobs, the registry and the ids of `w`. -/
structure SameSlots (w w' : World) : Prop where
  store : w'.store = w.store
  registry : w'.registry = w.registry
  issued : w'.issued = w.issued

theorem startTask_same {p : TaskPool} {task : Task} (hstart : startTask p task = some w) :
    SameSlots p.state w := by
  have hstore := (startTask_frame hstart).1
  cases task with
  | handleQueuedJob job =>
      simp only [startTask, Option.ite_none_left_eq_some, Option.ite_none_right_eq_some,
        Option.some.injEq] at hstart
      obtain ⟨-, -, rfl⟩ := hstart
      exact ⟨hstore, rfl, rfl⟩
  | handleResult jobID executionID workerID attempt result =>
      simp only [startTask, Option.ite_none_right_eq_some, Option.some.injEq] at hstart
      obtain ⟨-, rfl⟩ := hstart
      exact ⟨hstore, rfl, rfl⟩
  | _ =>
      obtain rfl := Option.some.inj hstart
      exact ⟨hstore, rfl, rfl⟩

theorem finishTask_same (task : Task) (outcome : Outcome) (d : Draw) (w : World) :
    SameSlots w (finishTask task outcome d w) := by
  cases task with
  | handleQueuedJob job =>
      simp only [finishTask]
      split <;> exact ⟨rfl, rfl, rfl⟩
  | _ => exact ⟨rfl, rfl, rfl⟩

theorem knows_same (hsame : SameSlots w w') (hknows : Knows w duty) : Knows w' duty := by
  cases duty with
  | idle => trivial
  | handling executionIDs => trivial
  | found jobID => simpa only [Knows, Stored, hsame.store] using hknows
  | picked jobID wc =>
      simpa only [Knows, Stored, Connected, hsame.store, hsame.registry] using hknows
  | holding jobID wc executionID =>
      simpa only [Knows, Stored, Connected, hsame.store, hsame.registry, hsame.issued] using hknows
  | counting jobID wc executionID =>
      simpa only [Knows, Stored, Connected, hsame.store, hsame.registry] using hknows

/-- The invariant of the books. -/
def InOrder (workerID : String) (initial : Int) (w : World) (books : Books)
    (duties : Multiset Duty) : Prop :=
  Identified w books duties ∧ Balanced workerID initial w books duties

theorem inOrder_start (h : InOrder workerID initial w books duties) (hsame : SameSlots w w')
    (task : Task) : InOrder workerID initial w' books (startDuty task ::ₘ duties) := by
  have hnew : Knows w' (startDuty task) ∧ (startDuty task).held? = none ∧
      (startDuty task).counts workerID = false := by
    cases task <;> exact ⟨trivial, rfl, rfl⟩
  obtain ⟨hidentified, hbalanced⟩ := h
  have hheld : (startDuty task ::ₘ duties).filterMap Duty.held? = duties.filterMap Duty.held? :=
    Multiset.filterMap_cons_none _ _ hnew.2.1
  refine ⟨⟨?_, ?_, ?_, ?_⟩, hbalanced.handled, ?_⟩
  · intro other hother
    rcases Multiset.mem_cons.mp hother with rfl | hrest
    · exact hnew.1
    · exact knows_same hsame (hidentified.known other hrest)
  · rw [hsame.issued]
    exact hidentified.issued
  · rw [hheld]
    exact hidentified.distinct
  · rw [hheld]
    exact hidentified.unpushed
  · rw [uncounted_cons_of_neg hnew.2.2, activeJobs, hsame.registry]
    exact hbalanced.balance

theorem inOrder_finish (h : InOrder workerID initial w books (duty ::ₘ duties))
    (hsame : SameSlots w w') (hdone : duty.Done) : InOrder workerID initial w' books duties := by
  obtain ⟨hidentified, hbalanced⟩ := h
  have hle : duties.filterMap Duty.held? ≤ (duty ::ₘ duties).filterMap Duty.held? :=
    Multiset.filterMap_le_filterMap _ (Multiset.le_cons_self duties duty)
  have hcounts : duty.counts workerID = false := by
    cases duty with
    | counting jobID wc executionID => exact hdone.elim
    | _ => rfl
  refine ⟨⟨?_, ?_, ?_, ?_⟩, hbalanced.handled, ?_⟩
  · intro other hother
    exact knows_same hsame (hidentified.known other (Multiset.mem_cons_of_mem hother))
  · rw [hsame.issued]
    exact hidentified.issued
  · exact Multiset.nodup_of_le hle hidentified.distinct
  · exact fun executionID hmem => hidentified.unpushed executionID (Multiset.mem_of_le hle hmem)
  · have hbalance := hbalanced.balance
    rw [uncounted_cons_of_neg hcounts] at hbalance
    rw [activeJobs, hsame.registry]
    exact hbalance

abbrev BookedPool := AnnotatedPool Call Answer World Books Task Duty Outcome

def opening (w : World) : BookedPool := ⟨(w, .new), []⟩

theorem inOrder_opening {wc : WorkerConn} (hworker : w.registry.workers.get? workerID = some wc) :
    InOrder workerID wc.info.activeJobs w .new 0 := by
  refine ⟨⟨?_, ?_, ?_, ?_⟩, ?_, wc.info.activeJobs, ?_, ?_⟩
  · simp
  · simp [Books.new]
  · simp
  · simp
  · simp [Books.new, Books.handledFor, Books.acceptedBy]
  · rw [activeJobs, hworker]
    rfl
  · simp [Books.new, Books.handledFor, Books.acceptedBy, uncounted]

/-- The slots of the worker are accounted for: its counter is the initial value, plus the
number of executions it has accepted, minus the number of those that were handled. -/
def Accounted (workerID : String) (initial : Int) (w : World) (books : Books) : Prop :=
  activeJobs w workerID = some (initial + (books.acceptedBy workerID).card -
    (books.acceptedBy workerID ∩ books.handled).card)

instance (workerID : String) (initial : Int) (w : World) (books : Books) :
    Decidable (Accounted workerID initial w books) :=
  inferInstanceAs (Decidable (_ = _))

theorem accounted_of_balanced (h : Balanced workerID initial w books 0) :
    Accounted workerID initial w books := by
  obtain ⟨n, hactive, hbalance⟩ := h.balance
  have hhandled : books.acceptedBy workerID ∩ books.handled = books.handledFor workerID := by
    ext execution
    rw [Finset.mem_inter]
    constructor
    · rintro ⟨haccepted, hhandled⟩
      exact Finset.mem_filter.mpr ⟨hhandled, (Finset.mem_filter.mp haccepted).2⟩
    · intro hmem
      exact ⟨h.handled hmem, (Finset.mem_filter.mp hmem).1⟩
  have hzero : uncounted workerID 0 = 0 := rfl
  rw [hzero, Int.ofNat_zero, add_zero] at hbalance
  rw [Accounted, hactive, hhandled, hbalance]

/-- In every run of the operations, interleaved call by call and without a heartbeat, whose
steps are all orderly for the worker, its slots are accounted for once the operations have
finished. -/
theorem slots_accounted {wc : WorkerConn} {p : BookedPool}
    (hworker : w.registry.workers.get? workerID = some wc)
    (hreach : (ledger.system (consumers cron cfg) (Orderly workerID)).Reaches
      (fun _ label => keepsWorkers (eraseLabel label)) (opening w) p)
    (hfinished : p.threads = []) :
    Accounted workerID wc.info.activeJobs p.state.1 p.state.2 := by
  have hopen : ledger.Kept Duty.Admits Duty.Done (opening w) :=
    fun thread hthread => absurd hthread List.not_mem_nil
  have h : InOrder workerID wc.info.activeJobs p.state.1 p.state.2 (duties p) := by
    refine kept_reaches (P := fun _ label => keepsWorkers label)
      (I := InOrder workerID wc.info.activeJobs)
      (fun _ task htask => body_disciplined cron cfg htask) ?_ ?_ ?_ hreach hopen
      (inOrder_opening hworker)
    · intro p task s books rest h _ hstart
      have hplain : startTask ⟨p.state, []⟩ task = some s := hstart
      exact inOrder_start h (startTask_same (p := ⟨p.state, []⟩) hplain) task
    · intro s books duty rest c d h hadmits hsound horderly
      exact ⟨identified_call h.1 hadmits hsound, balanced_call h.2 h.1 hadmits horderly⟩
    · intro s books duty rest task value d h hdone
      exact inOrder_finish h (finishTask_same task value d s) hdone
  have hnone : duties p = 0 := by rw [duties, hfinished]; rfl
  rw [hnone] at h
  exact accounted_of_balanced h.2

end Runs

section Plain

variable {cron : Cron} {cfg : SchedulerConfig} {P : TaskPool → TaskLabel → Prop} {w : World}

/-- The books can be kept on every run of the service. -/
theorem exists_books {q : TaskPool} (hreach : (service cron cfg).Reaches P ⟨w, []⟩ q) :
    ∃ p : BookedPool, (ledger.system (consumers cron cfg) fun _ _ _ => True).Reaches
      (fun p label => P (erasePool p) (eraseLabel label)) (opening w) p ∧ erasePool p = q := by
  have hconsumers : (consumers cron cfg).Reaches P (erasePool (opening w)) q := by
    refine Relation.ReflTransGen.mono ?_ _ _ hreach
    rintro p q ⟨label, hP, hstep⟩
    exact ⟨label, hP, consumers_step hstep⟩
  exact exists_reaches hconsumers

/-- The books change nothing. -/
theorem reaches_of_books {Q : World × Books → Duty × Call → Draw → Prop} {p : BookedPool}
    (hreach : (ledger.system (consumers cron cfg) Q).Reaches
      (fun p label => P (erasePool p) (eraseLabel label)) (opening w) p) :
    (consumers cron cfg).Reaches P ⟨w, []⟩ (erasePool p) :=
  erase_reaches hreach

end Plain

section Scenarios

def queuedWorld : World := oneWorker (echoJob .queued) [echoMessage]

/-- The report of the worker is handled between the push and the counting. -/
def fastReport : List (Move Task Draw) :=
  .start (.handleQueuedJob echoMessage) :: movesToPush 0 "execution" ++
    .start echoReport :: List.replicate 7 (.advance 1 { now := 3 }) ++
    [.finish 1 {}] ++ List.replicate 3 (.advance 0 { now := 4 }) ++ [.finish 0 {}]

def countedReport : List (Move Task Draw) :=
  .start (.handleQueuedJob echoMessage) :: movesToPush 0 "execution" ++
    List.replicate 3 (.advance 0 { now := 3 }) ++ .finish 0 {} ::
    .start echoReport :: List.replicate 7 (.advance 0 { now := 4 }) ++ [.finish 0 {}]

abbrev bookedService := ledger.system smallService fun _ _ _ => True

/-- The decrement finds the counter at zero and is dropped, and the counting comes after it:
the one execution of the worker is over, and takes up a slot. -/
theorem fast_report_leaks_slot :
    ∃ p : BookedPool, bookedService.Reaches (fun _ label => keepsWorkers (eraseLabel label))
        (opening queuedWorld) p ∧ p.threads = [] ∧
      p.state.2.accepted = {("worker", "execution")} ∧
      p.state.2.handled = {("worker", "execution")} ∧
      activeJobs queuedWorld "worker" = some 0 ∧ activeJobs p.state.1 "worker" = some 1 ∧
      ¬Accounted "worker" 0 p.state.1 p.state.2 := by
  let p := (bookedService.follow (fun _ label => keepsWorkers (eraseLabel label))
    (opening queuedWorld) fastReport).get (by decide +kernel)
  have hreach : bookedService.Reaches (fun _ label => keepsWorkers (eraseLabel label))
      (opening queuedWorld) p := reaches_of_get _
  have hfinished : p.threads = [] := List.isEmpty_iff.mp (by decide +kernel)
  refine ⟨p, hreach, hfinished, ?_, ?_, ?_, ?_, ?_⟩ <;> decide +kernel

abbrev orderlyService := ledger.system (consumers utcOnly smallConfig) (Orderly "worker")

theorem counted_report_frees_slot :
    ∃ p : BookedPool, orderlyService.Reaches (fun _ label => keepsWorkers (eraseLabel label))
        (opening queuedWorld) p ∧
      p.state.2.handled = {("worker", "execution")} ∧
      Accounted "worker" 0 p.state.1 p.state.2 := by
  let p := (orderlyService.follow (fun _ label => keepsWorkers (eraseLabel label))
    (opening queuedWorld) countedReport).get (by decide +kernel)
  have hreach : orderlyService.Reaches (fun _ label => keepsWorkers (eraseLabel label))
      (opening queuedWorld) p := reaches_of_get _
  have hworker : queuedWorld.registry.workers.get? "worker" =
      some ⟨{ id := "worker", capacity := 4 }, 0⟩ := by decide +kernel
  have hfinished : p.threads = [] := List.isEmpty_iff.mp (by decide +kernel)
  have hhandled : p.state.2.handled = {("worker", "execution")} := by decide +kernel
  have haccounted := slots_accounted hworker hreach hfinished
  exact ⟨p, hreach, hhandled, haccounted⟩

end Scenarios

end Chronos.SlotAccounting
