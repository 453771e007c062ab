import Chronos.SlotAccounting.Identities

namespace Chronos.SlotAccounting

open Chronos.Library.KeyedTable
open Chronos.SharedState

/-- `ActiveJobs` of the worker in the registry. -/
def activeJobs (w : World) (workerID : String) : Option Int :=
  (w.registry.workers.get? workerID).map fun wc => wc.info.activeJobs

section Registry

variable {w : World} {d : Draw} {workerID : String}

theorem activeJobs_inc {wc : WorkerConn} (hconnected : Connected w wc) (workerID : String) :
    activeJobs (step (.incActiveJobs wc) w d).2 workerID =
      (activeJobs w workerID).map fun n => if wc.info.id = workerID then n + 1 else n := by
  obtain ⟨current, hcurrent, hconn⟩ := Option.map_eq_some_iff.mp hconnected
  simp only [activeJobs, step, Registry.incActiveJobs, hcurrent, if_pos hconn]
  rw [get?_put]
  by_cases hid : wc.info.id = workerID
  · subst hid
    rw [if_pos (key_of_get? hcurrent).symm, hcurrent]
    simp
  · have hother : workerID ≠ current.info.id := fun hsame =>
      hid ((key_of_get? hcurrent).symm.trans hsame.symm)
    rw [if_neg hother]
    simp only [hid, if_false, Option.map_id']

theorem activeJobs_dec {n : Int} (hactive : activeJobs w workerID = some n) (hpositive : 0 < n) :
    activeJobs (step (.decActiveJobs workerID) w d).2 workerID = some (n - 1) := by
  obtain ⟨current, hcurrent, rfl⟩ := Option.map_eq_some_iff.mp hactive
  simp only [activeJobs, step, Registry.decActiveJobs, hcurrent, gt_iff_lt, if_pos hpositive]
  rw [get?_put, if_pos (key_of_get? hcurrent).symm]
  rfl

theorem activeJobs_dec_of_ne {id : String} (hne : id ≠ workerID) :
    activeJobs (step (.decActiveJobs id) w d).2 workerID = activeJobs w workerID := by
  simp only [activeJobs, step, Registry.decActiveJobs]
  cases hcurrent : w.registry.workers.get? id with
  | none => rfl
  | some current =>
      dsimp only
      split
      · rw [get?_put_of_ne]
        intro hid
        exact hne ((key_of_get? hcurrent).symm.trans hid.symm)
      · rfl

end Registry

/-- The number of executions that the worker has accepted and that are still to be counted. -/
def uncounted (workerID : String) (duties : Multiset Duty) : Nat :=
  duties.countP fun duty => duty.counts workerID

theorem uncounted_cons_of_pos {workerID : String} {duty : Duty} (hduty : duty.counts workerID)
    (duties : Multiset Duty) :
    uncounted workerID (duty ::ₘ duties) = uncounted workerID duties + 1 :=
  Multiset.countP_cons_of_pos _ hduty

theorem uncounted_cons_of_neg {workerID : String} {duty : Duty}
    (hduty : duty.counts workerID = false) (duties : Multiset Duty) :
    uncounted workerID (duty ::ₘ duties) = uncounted workerID duties :=
  Multiset.countP_cons_of_neg _ (by rw [hduty]; exact Bool.false_ne_true)

theorem counts_of_eq {workerID : String} {wc : WorkerConn} (hid : wc.info.id = workerID)
    (jobID executionID : String) : (Duty.counting jobID wc executionID).counts workerID :=
  beq_iff_eq.mpr hid

theorem counts_of_ne {workerID : String} {wc : WorkerConn} (hid : wc.info.id ≠ workerID)
    (jobID executionID : String) :
    (Duty.counting jobID wc executionID).counts workerID = false :=
  beq_eq_false_iff_ne.mpr hid

/-- The executions of the worker still to be counted make up the difference between the
registry and the books. -/
structure Balanced (workerID : String) (initial : Int) (w : World) (books : Books)
    (duties : Multiset Duty) : Prop where
  handled : books.handledFor workerID ⊆ books.acceptedBy workerID
  balance : ∃ n, activeJobs w workerID = some n ∧
    n + uncounted workerID duties =
      initial + (books.acceptedBy workerID).card - (books.handledFor workerID).card

/-- The step does not upset the accounts of the worker: an outcome is handled only of an
execution that the worker has accepted, only once, and only while its counter is above zero;
and the store does not fail at the RUNNING write that comes before the counting. -/
def Orderly (workerID : String) (s : World × Books) (c : Duty × Call) (d : Draw) : Prop :=
  match c with
  | (.handling (executionID :: _), .decActiveJobs id) =>
      id = workerID → (id, executionID) ∈ s.2.accepted ∧ (id, executionID) ∉ s.2.handled ∧
        (activeJobs s.1 id).any fun n => 0 < n
  | (.counting _ wc _, .updateJobStateIf _ _ _ _) => wc.info.id = workerID → d.fault = none
  | _ => True

instance (workerID : String) (s : World × Books) (c : Duty × Call) (d : Draw) :
    Decidable (Orderly workerID s c d) := by
  unfold Orderly
  split <;> infer_instance

section Balance

variable {workerID : String} {initial : Int} {w : World} {books : Books} {duty : Duty}
  {duties : Multiset Duty} {c : Call} {d : Draw}

theorem handledFor_insert {id executionID : String} :
    ({ books with handled := insert (id, executionID) books.handled } : Books).handledFor workerID =
      if id = workerID then insert (id, executionID) (books.handledFor workerID)
      else books.handledFor workerID :=
  Finset.filter_insert _ _ _

theorem acceptedBy_insert {id executionID : String} :
    ({ books with accepted := insert (id, executionID) books.accepted } : Books).acceptedBy
        workerID =
      if id = workerID then insert (id, executionID) (books.acceptedBy workerID)
      else books.acceptedBy workerID :=
  Finset.filter_insert _ _ _

theorem balanced_inc {wc : WorkerConn} (h : Balanced workerID initial w books (duty ::ₘ duties))
    (hknows : Knows w duty) (hadmits : duty.Admits (.incActiveJobs wc)) :
    Balanced workerID initial (step (.incActiveJobs wc) w d).2 books (.idle ::ₘ duties) := by
  cases duty with
  | counting jobID wc' executionID =>
      obtain rfl : wc = wc' := hadmits
      obtain ⟨n, hactive, hbalance⟩ := h.balance
      have hinc := activeJobs_inc (d := d) hknows.2 workerID
      rw [hactive, Option.map_some] at hinc
      refine ⟨h.handled, _, hinc, ?_⟩
      rw [uncounted_cons_of_neg rfl]
      by_cases hid : wc.info.id = workerID
      · rw [uncounted_cons_of_pos (counts_of_eq hid _ _)] at hbalance
        rw [if_pos hid]
        push_cast at hbalance
        omega
      · rw [uncounted_cons_of_neg (counts_of_ne hid _ _)] at hbalance
        rw [if_neg hid]
        exact hbalance
  | _ => cases hadmits

theorem balanced_dec {id : String} (h : Balanced workerID initial w books (duty ::ₘ duties))
    (hadmits : duty.Admits (.decActiveJobs id))
    (horderly : Orderly workerID (w, books) (duty, .decActiveJobs id) d) :
    Balanced workerID initial (step (.decActiveJobs id) w d).2
      (duty.record (.decActiveJobs id) () books)
      (duty.after (.decActiveJobs id) () ::ₘ duties) := by
  cases duty with
  | handling executionIDs =>
      cases executionIDs with
      | nil => exact absurd rfl hadmits
      | cons executionID rest =>
          obtain ⟨n, hactive, hbalance⟩ := h.balance
          rw [uncounted_cons_of_neg rfl] at hbalance
          simp only [Duty.record, Duty.after, List.tail_cons]
          by_cases hid : id = workerID
          · subst hid
            obtain ⟨haccepted, hnew, hpositive⟩ := horderly rfl
            simp only [hactive, Option.any_some, decide_eq_true_eq] at hpositive
            have hmem : (id, executionID) ∈ books.acceptedBy id :=
              Finset.mem_filter.mpr ⟨haccepted, rfl⟩
            have hfresh : (id, executionID) ∉ books.handledFor id :=
              fun hmem => hnew (Finset.mem_filter.mp hmem).1
            refine ⟨?_, n - 1, activeJobs_dec hactive hpositive, ?_⟩
            · rw [handledFor_insert, if_pos rfl]
              exact Finset.insert_subset hmem h.handled
            · rw [uncounted_cons_of_neg rfl, handledFor_insert, if_pos rfl,
                Finset.card_insert_of_notMem hfresh]
              push_cast
              simp only [Books.acceptedBy] at hbalance ⊢
              omega
          · refine ⟨?_, n, (activeJobs_dec_of_ne hid).trans hactive, ?_⟩
            · rw [handledFor_insert, if_neg hid]
              exact h.handled
            · rw [uncounted_cons_of_neg rfl, handledFor_insert, if_neg hid]
              exact hbalance
  | counting jobID wc executionID => exact hadmits.elim
  | _ => cases hadmits

theorem balanced_push {id : String} {request : ExecuteJobRequest}
    (h : Balanced workerID initial w books (duty ::ₘ duties))
    (hidentified : Identified w books (duty ::ₘ duties))
    (hadmits : duty.Admits (.executeJob id request)) :
    Balanced workerID initial (step (.executeJob id request) w d).2
      (duty.record (.executeJob id request) d.reply books)
      (duty.after (.executeJob id request) d.reply ::ₘ duties) := by
  cases duty with
  | holding jobID wc executionID =>
      obtain ⟨rfl, rfl⟩ := hadmits
      obtain ⟨n, hactive, hbalance⟩ := h.balance
      rw [uncounted_cons_of_neg rfl] at hbalance
      have hsame : activeJobs (step (.executeJob wc.info.id request) w d).2 workerID = some n := by
        rw [activeJobs, registry_push]
        exact hactive
      have hnew : (wc.info.id, request.executionID) ∉ books.accepted := fun haccepted =>
        hidentified.unpushed request.executionID
          (mem_held.mpr ⟨jobID, wc, Multiset.mem_cons_self _ _⟩) _ haccepted rfl
      simp only [Duty.record, Duty.after]
      split
      · by_cases hid : wc.info.id = workerID
        · have hfresh : (wc.info.id, request.executionID) ∉ books.acceptedBy workerID :=
            fun hmem => hnew (Finset.mem_filter.mp hmem).1
          refine ⟨?_, n, hsame, ?_⟩
          · rw [acceptedBy_insert, if_pos hid]
            exact h.handled.trans (Finset.subset_insert _ _)
          · rw [uncounted_cons_of_pos (counts_of_eq hid _ _), acceptedBy_insert, if_pos hid,
              Finset.card_insert_of_notMem hfresh]
            push_cast
            simp only [Books.handledFor] at hbalance ⊢
            omega
        · refine ⟨?_, n, hsame, ?_⟩
          · rw [acceptedBy_insert, if_neg hid]
            exact h.handled
          · rw [uncounted_cons_of_neg (counts_of_ne hid _ _), acceptedBy_insert, if_neg hid]
            exact hbalance
      · exact ⟨h.handled, n, hsame, by rw [uncounted_cons_of_neg rfl]; exact hbalance⟩
  | counting jobID wc executionID => exact hadmits.elim
  | _ => cases hadmits

/-- A call that does not touch the slots leaves the executions still to be counted. -/
theorem counts_after (hc : touchesSlots c = false) (hknows : Knows w duty)
    (hadmits : duty.Admits c) (horderly : Orderly workerID (w, books) (duty, c) d) :
    (duty.after c (step c w d).1).counts workerID = duty.counts workerID := by
  cases duty with
  | counting jobID wc executionID =>
      cases c with
      | updateJobStateIf id state fields onlyFrom =>
          obtain ⟨rfl, rfl⟩ := hadmits
          by_cases hid : wc.info.id = workerID
          · have hmarked : (step (.updateJobStateIf id state fields []) w d).1 = .ok () :=
              marked_of_stored hknows.1 (horderly hid)
            rw [hmarked]
            rfl
          · have hother := counts_of_ne hid id executionID
            cases (step (.updateJobStateIf id state fields []) w d).1 with
            | error e => exact hother.symm
            | ok _ => rfl
      | incActiveJobs wc' => cases hc
      | emit event => rfl
      | _ => exact hadmits.elim
  | idle =>
      simp only [Duty.after]
      split <;> rfl
  | found jobID =>
      simp only [Duty.after]
      split <;> rfl
  | picked jobID wc =>
      simp only [Duty.after]
      split <;> rfl
  | holding jobID wc executionID =>
      cases c with
      | executeJob id request => cases hc
      | _ => rfl
  | handling executionIDs =>
      simp only [Duty.after]
      split <;> rfl

theorem balanced_call (h : Balanced workerID initial w books (duty ::ₘ duties))
    (hidentified : Identified w books (duty ::ₘ duties)) (hadmits : duty.Admits c)
    (horderly : Orderly workerID (w, books) (duty, c) d) :
    Balanced workerID initial (step c w d).2 (duty.record c (step c w d).1 books)
      (duty.after c (step c w d).1 ::ₘ duties) := by
  have hknows : Knows w duty := hidentified.known duty (Multiset.mem_cons_self _ _)
  cases hc : touchesSlots c with
  | false =>
      obtain ⟨n, hactive, hbalance⟩ := h.balance
      rw [record_of_untouched hc]
      refine ⟨h.handled, n, ?_, ?_⟩
      · rw [activeJobs, registry_untouched hc]
        exact hactive
      · have hcounts := counts_after hc hknows hadmits horderly
        have hsame : uncounted workerID (duty.after c (step c w d).1 ::ₘ duties) =
            uncounted workerID (duty ::ₘ duties) := by
          rw [uncounted, uncounted, Multiset.countP_cons, Multiset.countP_cons, hcounts]
        rw [hsame]
        exact hbalance
  | true =>
      cases c with
      | incActiveJobs wc =>
          have hinc := balanced_inc h hknows hadmits (d := d)
          cases duty with
          | counting jobID wc' executionID => exact hinc
          | _ => cases hadmits
      | decActiveJobs id => exact balanced_dec h hadmits horderly
      | executeJob id request => exact balanced_push h hidentified hadmits
      | deleteWorker id => exact absurd rfl (admits_keeps hadmits id)
      | _ => cases hc

end Balance

end Chronos.SlotAccounting
