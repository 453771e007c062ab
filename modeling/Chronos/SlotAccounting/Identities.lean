import Chronos.SlotAccounting

namespace Chronos.SlotAccounting

open Chronos.Domain
open Chronos.Library.KeyedTable
open Chronos.MemoryStore
open Chronos.SharedState

/-- The entry that the connection was read from is still the one of the registry. -/
def Connected (w : World) (wc : WorkerConn) : Prop :=
  (w.registry.workers.get? wc.info.id).map WorkerConn.conn = some wc.conn

def Stored (w : World) (jobID : String) : Prop := ∃ job, w.store.jobs.get? jobID = some job

/-- What an operation with the duty knows of the world. -/
def Knows (w : World) : Duty → Prop
  | .idle | .handling _ => True
  | .found jobID => Stored w jobID
  | .picked jobID wc => Stored w jobID ∧ Connected w wc
  | .holding jobID wc executionID => Stored w jobID ∧ Connected w wc ∧ executionID ∈ w.issued
  | .counting jobID wc _ => Stored w jobID ∧ Connected w wc

def Duty.held? : Duty → Option String
  | .holding _ _ executionID => some executionID
  | _ => none

/-- The operation has still to count an execution of the worker. -/
def Duty.counts (workerID : String) : Duty → Bool
  | .counting _ wc _ => wc.info.id == workerID
  | _ => false

section Calls

variable {w : World} {c : Call} {d : Draw} {duty : Duty} {books : Books}

theorem registry_untouched (hc : touchesSlots c = false) :
    (step c w d).2.registry.workers = w.registry.workers := by
  cases c with
  | incActiveJobs wc => cases hc
  | decActiveJobs workerID => cases hc
  | deleteWorker workerID => cases hc
  | executeJob workerID request => cases hc
  | clearPendingCancel workerID jobID =>
      simp only [step, Registry.clearPendingCancel]
      split
      · rfl
      · split <;> rfl
  | _ => first
    | rfl
    | (simp only [step, guarded]; split <;> rfl)

theorem registry_push {workerID : String} {request : ExecuteJobRequest} :
    (step (.executeJob workerID request) w d).2.registry.workers = w.registry.workers := by
  simp only [step]
  rw [acceptedPush_eq]

theorem conn_put {current : WorkerConn} {info : Worker} {workerID id : String}
    (hcurrent : w.registry.workers.get? workerID = some current)
    (hinfo : info.id = current.info.id) :
    ((w.registry.workers.put ⟨info, current.conn⟩).get? id).map WorkerConn.conn =
      (w.registry.workers.get? id).map WorkerConn.conn := by
  rw [get?_put]
  split
  · rename_i hid
    rw [hid, hinfo, key_of_get? hcurrent, hcurrent]
    rfl
  · rfl

/-- The registry keeps the connections of its workers. -/
theorem conn_step (hc : ∀ workerID, c ≠ .deleteWorker workerID) (id : String) :
    ((step c w d).2.registry.workers.get? id).map WorkerConn.conn =
      (w.registry.workers.get? id).map WorkerConn.conn := by
  cases c with
  | deleteWorker workerID => exact absurd rfl (hc workerID)
  | incActiveJobs wc =>
      simp only [step, Registry.incActiveJobs]
      split
      · rfl
      · split
        · exact conn_put ‹_› rfl
        · rfl
  | decActiveJobs workerID =>
      simp only [step, Registry.decActiveJobs]
      split
      · rfl
      · split
        · exact conn_put ‹_› rfl
        · rfl
  | executeJob workerID request => rw [registry_push]
  | _ => rw [registry_untouched rfl]

theorem issued_kept {id : String} (hid : id ∈ w.issued) : id ∈ (step c w d).2.issued := by
  rcases issued_step c w d with hsame | ⟨-, hnew⟩
  · rwa [hsame]
  · rw [hnew]
    exact List.mem_cons_of_mem _ hid

theorem knows_step (hc : ∀ workerID, c ≠ .deleteWorker workerID) (hknows : Knows w duty) :
    Knows (step c w d).2 duty := by
  have hconnected : ∀ {wc}, Connected w wc → Connected (step c w d).2 wc := by
    intro wc hwc
    rw [Connected, conn_step hc]
    exact hwc
  cases duty with
  | idle => trivial
  | handling executionIDs => trivial
  | found jobID => exact stored_step hknows c d
  | picked jobID wc => exact ⟨stored_step hknows.1 c d, hconnected hknows.2⟩
  | holding jobID wc executionID =>
      exact ⟨stored_step hknows.1 c d, hconnected hknows.2.1, issued_kept hknows.2.2⟩
  | counting jobID wc executionID => exact ⟨stored_step hknows.1 c d, hconnected hknows.2⟩

theorem admits_keeps (hadmits : duty.Admits c) : ∀ workerID, c ≠ .deleteWorker workerID := by
  rintro workerID rfl
  cases duty with
  | counting jobID wc executionID => exact hadmits
  | _ => cases hadmits

theorem stored_of_getJob {jobID : String} {job : Job}
    (hanswer : (step (.getJob jobID) w d).1 = .ok job) : Stored w jobID := by
  simp only [step, guarded, Store.getJob] at hanswer
  split at hanswer
  · cases hanswer
  · cases hjob : w.store.jobs.get? jobID with
    | none =>
        rw [hjob] at hanswer
        cases hanswer
    | some stored => exact ⟨stored, hjob⟩

theorem connected_of_pick {wc : WorkerConn} (hanswer : (step .pickWorker w d).1 = some wc) :
    Connected w wc := by
  obtain ⟨-, hwc⟩ := mem_inOrder.mp (mem_of_pickWorker hanswer)
  rw [Connected, hwc]
  rfl

/-- What the answer to its call tells an operation. -/
theorem knows_after (hknows : Knows w duty) (hadmits : duty.Admits c) :
    Knows (step c w d).2 (duty.after c (step c w d).1) := by
  have hkept : Knows (step c w d).2 duty := knows_step (admits_keeps hadmits) hknows
  cases duty with
  | idle =>
      cases c with
      | getJob jobID =>
          cases hanswer : (step (.getJob jobID) w d).1 with
          | error e => trivial
          | ok job => exact stored_step (stored_of_getJob hanswer) _ d
      | listTimedOutRunning now limit =>
          cases (step (.listTimedOutRunning now limit) w d).1 <;> trivial
      | _ => trivial
  | found jobID =>
      cases c with
      | pickWorker =>
          cases hanswer : (step .pickWorker w d).1 with
          | none => exact hkept
          | some wc => exact ⟨hkept, connected_of_pick hanswer⟩
      | _ => exact hkept
  | picked jobID wc =>
      cases c with
      | newUUID => exact ⟨hkept.1, hkept.2, List.mem_cons_self⟩
      | _ => exact hkept
  | holding jobID wc executionID =>
      cases c with
      | executeJob workerID request =>
          simp only [Duty.after]
          split
          · exact ⟨hkept.1, hkept.2.1⟩
          · trivial
      | _ => exact hkept
  | counting jobID wc executionID =>
      cases c with
      | updateJobStateIf id state fields onlyFrom =>
          cases (step (.updateJobStateIf id state fields onlyFrom) w d).1 with
          | error e => trivial
          | ok _ => exact hkept
      | incActiveJobs wc' => trivial
      | _ => exact hkept
  | handling executionIDs =>
      cases c <;> trivial

/-- The RUNNING write does not fail by itself. -/
theorem marked_of_stored {jobID : String} {state : JobState} {fields : Fields}
    (hstored : Stored w jobID) (hd : d.fault = none) :
    (step (.updateJobStateIf jobID state fields []) w d).1 = .ok () := by
  obtain ⟨job, hjob⟩ := hstored
  simp only [step, guarded_of_none hd]
  rw [updateJobStateIf_of_some hjob state fields (Or.inl rfl)]

theorem held_after (hpush : ∀ workerID request, c ≠ .executeJob workerID request)
    (hnew : c ≠ .newUUID) (answer : Answer c) : (duty.after c answer).held? = duty.held? := by
  cases duty with
  | idle =>
      simp only [Duty.after]
      split <;> rfl
  | found jobID =>
      simp only [Duty.after]
      split <;> rfl
  | picked jobID wc =>
      cases c with
      | newUUID => exact absurd rfl hnew
      | _ => rfl
  | holding jobID wc executionID =>
      cases c with
      | executeJob workerID request => exact absurd rfl (hpush workerID request)
      | _ => rfl
  | counting jobID wc executionID =>
      simp only [Duty.after]
      split <;> rfl
  | handling executionIDs =>
      simp only [Duty.after]
      split <;> rfl

theorem record_of_untouched (hc : touchesSlots c = false) (answer : Answer c) :
    duty.record c answer books = books := by
  cases c with
  | executeJob workerID request => cases hc
  | decActiveJobs workerID => cases hc
  | _ => rfl

end Calls

/-- Every execution that an operation holds is its own, and not yet accepted by a worker. -/
structure Identified (w : World) (books : Books) (duties : Multiset Duty) : Prop where
  known : ∀ duty ∈ duties, Knows w duty
  issued : ∀ execution ∈ books.accepted, execution.2 ∈ w.issued
  distinct : (duties.filterMap Duty.held?).Nodup
  unpushed : ∀ executionID ∈ duties.filterMap Duty.held?, ∀ execution ∈ books.accepted,
    execution.2 ≠ executionID

section Identities

variable {w : World} {books : Books} {duty : Duty} {duties : Multiset Duty} {c : Call} {d : Draw}

theorem mem_held {executionID : String} :
    executionID ∈ duties.filterMap Duty.held? ↔
      ∃ jobID wc, .holding jobID wc executionID ∈ duties := by
  rw [Multiset.mem_filterMap]
  constructor
  · rintro ⟨duty, hduty, hheld⟩
    cases duty with
    | holding jobID wc held =>
        obtain rfl := Option.some.inj hheld
        exact ⟨jobID, wc, hduty⟩
    | _ => cases hheld
  · rintro ⟨jobID, wc, hduty⟩
    exact ⟨_, hduty, rfl⟩

theorem identified_known (h : Identified w books (duty ::ₘ duties)) (hadmits : duty.Admits c) :
    ∀ other ∈ duty.after c (step c w d).1 ::ₘ duties, Knows (step c w d).2 other := by
  intro other hother
  rcases Multiset.mem_cons.mp hother with rfl | hrest
  · exact knows_after (h.known duty (Multiset.mem_cons_self _ _)) hadmits
  · exact knows_step (admits_keeps hadmits) (h.known other (Multiset.mem_cons_of_mem hrest))

/-- A call that neither issues an id nor pushes leaves the held executions alone. -/
theorem identified_other (h : Identified w books (duty ::ₘ duties)) (hadmits : duty.Admits c)
    (hpush : ∀ workerID request, c ≠ .executeJob workerID request) (hnew : c ≠ .newUUID) :
    Identified (step c w d).2 (duty.record c (step c w d).1 books)
      (duty.after c (step c w d).1 ::ₘ duties) := by
  have hbooks : (duty.record c (step c w d).1 books).accepted = books.accepted := by
    cases c with
    | executeJob workerID request => exact absurd rfl (hpush workerID request)
    | decActiveJobs workerID =>
        simp only [Duty.record]
        split <;> rfl
    | _ => rfl
  have hheld : (duty.after c (step c w d).1 ::ₘ duties).filterMap Duty.held? =
      (duty ::ₘ duties).filterMap Duty.held? := by
    rw [Multiset.filterMap_cons, Multiset.filterMap_cons, held_after hpush hnew]
  refine ⟨identified_known h hadmits, ?_, ?_, ?_⟩
  · rw [hbooks]
    exact fun execution hexecution => issued_kept (h.issued execution hexecution)
  · rw [hheld]
    exact h.distinct
  · rw [hheld, hbooks]
    exact h.unpushed

theorem identified_issue (h : Identified w books (duty ::ₘ duties)) (hadmits : duty.Admits .newUUID)
    (hfresh : Fresh w d.uuid) :
    Identified (step .newUUID w d).2 (duty.record .newUUID (step .newUUID w d).1 books)
      (duty.after .newUUID (step .newUUID w d).1 ::ₘ duties) := by
  have hissued : ∀ executionID ∈ (duty ::ₘ duties).filterMap Duty.held?,
      executionID ∈ w.issued := by
    intro executionID hheld
    obtain ⟨jobID, wc, hduty⟩ := mem_held.mp hheld
    exact (h.known _ hduty).2.2
  have hlater : ∀ execution ∈ books.accepted, execution.2 ∈ (step .newUUID w d).2.issued :=
    fun execution hexecution => issued_kept (h.issued execution hexecution)
  cases duty with
  | picked jobID wc =>
      have hheld : ((Duty.picked jobID wc).after .newUUID (step .newUUID w d).1 ::ₘ
          duties).filterMap Duty.held? = d.uuid ::ₘ duties.filterMap Duty.held? :=
        Multiset.filterMap_cons_some _ _ _ rfl
      have hold : (Duty.picked jobID wc ::ₘ duties).filterMap Duty.held? =
          duties.filterMap Duty.held? := Multiset.filterMap_cons_none _ _ rfl
      rw [hold] at hissued
      refine ⟨identified_known h hadmits, hlater, ?_, ?_⟩
      · rw [hheld, Multiset.nodup_cons]
        refine ⟨fun hmem => hfresh.2.1 (hissued _ hmem), ?_⟩
        rw [← hold]
        exact h.distinct
      · rw [hheld]
        intro executionID hmem execution hexecution
        rcases Multiset.mem_cons.mp hmem with rfl | hrest
        · rintro hsame
          exact hfresh.2.1 (hsame ▸ h.issued execution hexecution)
        · rw [← hold] at hrest
          exact h.unpushed executionID hrest execution hexecution
  | _ => exact ⟨identified_known h hadmits, hlater, h.distinct, h.unpushed⟩

theorem identified_push {workerID : String} {request : ExecuteJobRequest}
    (h : Identified w books (duty ::ₘ duties))
    (hadmits : duty.Admits (.executeJob workerID request)) :
    Identified (step (.executeJob workerID request) w d).2
      (duty.record (.executeJob workerID request) d.reply books)
      (duty.after (.executeJob workerID request) d.reply ::ₘ duties) := by
  have hknown := identified_known h hadmits (d := d)
  cases duty with
  | holding jobID wc executionID =>
      obtain ⟨rfl, rfl⟩ := hadmits
      have hold : (Duty.holding jobID wc request.executionID ::ₘ duties).filterMap Duty.held? =
          request.executionID ::ₘ duties.filterMap Duty.held? :=
        Multiset.filterMap_cons_some _ _ _ rfl
      have hdistinct := h.distinct
      have hunpushed := h.unpushed
      rw [hold] at hdistinct hunpushed
      obtain ⟨hown, hdistinct⟩ := Multiset.nodup_cons.mp hdistinct
      have hissued : request.executionID ∈ w.issued :=
        (h.known _ (Multiset.mem_cons_self _ _)).2.2
      have hheld : ((Duty.holding jobID wc request.executionID).after
          (.executeJob wc.info.id request) d.reply ::ₘ duties).filterMap Duty.held? =
          duties.filterMap Duty.held? := by
        refine Multiset.filterMap_cons_none _ _ ?_
        simp only [Duty.after]
        split <;> rfl
      have haccepted : ∀ execution ∈ ((Duty.holding jobID wc request.executionID).record
          (.executeJob wc.info.id request) d.reply books).accepted,
          execution = (wc.info.id, request.executionID) ∨ execution ∈ books.accepted := by
        intro execution hexecution
        simp only [Duty.record] at hexecution
        split at hexecution
        · exact Finset.mem_insert.mp hexecution
        · exact Or.inr hexecution
      refine ⟨hknown, ?_, ?_, ?_⟩
      · intro execution hexecution
        rcases haccepted execution hexecution with rfl | hbefore
        · exact issued_kept hissued
        · exact issued_kept (h.issued execution hbefore)
      · rw [hheld]
        exact hdistinct
      · rw [hheld]
        intro executionID hmem execution hexecution
        rcases haccepted execution hexecution with rfl | hbefore
        · rintro rfl
          exact hown hmem
        · exact hunpushed executionID (Multiset.mem_cons_of_mem hmem) execution hbefore
  | counting jobID wc executionID => exact hadmits.elim
  | _ => cases hadmits

theorem identified_call (h : Identified w books (duty ::ₘ duties)) (hadmits : duty.Admits c)
    (hsound : Sound w c d) :
    Identified (step c w d).2 (duty.record c (step c w d).1 books)
      (duty.after c (step c w d).1 ::ₘ duties) := by
  by_cases hpush : ∃ workerID request, c = .executeJob workerID request
  · obtain ⟨workerID, request, rfl⟩ := hpush
    exact identified_push h hadmits
  by_cases hnew : c = .newUUID
  · subst hnew
    exact identified_issue h hadmits hsound
  · push Not at hpush
    exact identified_other h hadmits hpush hnew

end Identities

end Chronos.SlotAccounting
