import Chronos.OneJobPerKey.Postgres
import Chronos.StoreRefinement

namespace Chronos.StoreRefinement

open Chronos.Domain
open Chronos.Library.KeyedTable
open Chronos.Library.Observations
open Chronos.MemoryStore (Fields Store applyUpdate stampExecution)
open Chronos.OneJobPerKey.Postgres
open Chronos.PostgresStore
open Chronos.PostgresTables

variable {F : Format} {db : Database F} {s : Store} {d : StoreDraw F.UUID}

section Columns

theorem decode_injective {α κ : Type} (column : ColumnType α κ) :
    Function.Injective column.decode := by
  intro v v' hdecode
  have hencode := congrArg column.encode hdecode
  rw [column.encode_decode, column.encode_decode] at hencode
  exact Option.some.inj hencode

end Columns

section Reads

theorem getJob_mirrored (h : Mirrors db s) (u : F.UUID) :
    s.getJob (F.uuid.decode u) =
      match db.jobs.get? u with
      | none => .error .notFound
      | some row => .ok (scanJob row) := by
  rw [Store.getJob, h.jobs.get]
  cases db.jobs.get? u with
  | none => rfl
  | some row => rfl

theorem getJob_matched (h : Mirrors db s) (id : String) (d : StoreDraw F.UUID) :
    ∃ matching s', Observes onMemory s matching s' ∧
      Like F ⟨.getJob id, (postgresStep (.getJob id) db d).1⟩ matching ∧
      Mirrors (postgresStep (.getJob id) db d).2 s' := by
  have hreply : (postgresStep (.getJob id) db d).1 = (selectJob db.jobs id).map .job := rfl
  rw [hreply, selectJob]
  cases hid : F.uuid.encode id with
  | none => exact turned_down (Or.inl rfl) h
  | some u =>
      refine matched_by {} (.getJob hid) trivial (Or.inl ?_) h
      exact congrArg (Except.map Result.job) (getJob_mirrored h u)

theorem selectJobByKey_of_free {t : JobRows F} (order : List F.UUID) {key : NonemptyText}
    {text : String} (hencode : nullText.encode text = some (some key))
    (hfree : ∀ id, ¬HeldBy t text id) : selectJobByKey t order text = .error .notFound := by
  have hnone : ((t.inOrder order).find? fun row => row.hasKey key) = none := by
    refine List.find?_eq_none.mpr fun row hrow hhas => hfree (F.uuid.decode row.id) ?_
    refine ⟨row, (mem_inOrder.mp hrow).2, ?_, rfl⟩
    rw [beq_iff_eq.mp hhas]
    exact nullText_decode_of_encode hencode
  simp only [selectJobByKey, hencode, hnone]

theorem selectJobByKey_of_unique {t : JobRows F} {order : List F.UUID} {row : Row F}
    (hunique : UniqueKeys t) (horder : t.Enumerates order) (hrow : t.get? row.id = some row)
    (hkey : nullText.decode row.idempotencyKey ≠ "") :
    selectJobByKey t order (nullText.decode row.idempotencyKey) = .ok (scanJob row) := by
  obtain ⟨found, hfound, hsame, hselect⟩ := selectJobByKey_of_held horder hrow hkey
  rw [hselect, hunique row found hrow hfound (isSome_of_decode_ne hkey) hsame]

theorem nullText_encode_empty : nullText.encode "" = some none := rfl

theorem ne_empty_of_encode {text : String} {key : NonemptyText}
    (hencode : nullText.encode text = some (some key)) : text ≠ "" := by
  rintro rfl
  rw [nullText_encode_empty] at hencode
  cases hencode

theorem getJobByIdempotencyKey_matched (h : Mirrors db s) (key : String)
    (horder : db.jobs.Enumerates d.order) :
    ∃ matching s', Observes onMemory s matching s' ∧
      Like F ⟨.getJobByIdempotencyKey key,
        (postgresStep (.getJobByIdempotencyKey key) db d).1⟩ matching ∧
      Mirrors (postgresStep (.getJobByIdempotencyKey key) db d).2 s' := by
  have hreply : (postgresStep (.getJobByIdempotencyKey key) db d).1 =
      (selectJobByKey db.jobs d.order key).map .job := rfl
  have hmatched (hsame : s.getJobByIdempotencyKey key = selectJobByKey db.jobs d.order key) :
      ∃ matching s', Observes onMemory s matching s' ∧
        Like F ⟨.getJobByIdempotencyKey key, (selectJobByKey db.jobs d.order key).map .job⟩
          matching ∧ Mirrors (postgresStep (.getJobByIdempotencyKey key) db d).2 s' := by
    refine matched_by {} (.getJobByIdempotencyKey key) trivial (Or.inl ?_) h
    change (s.getJobByIdempotencyKey key).map Result.job = _
    rw [hsame]
  rw [hreply]
  cases hencode : nullText.encode key with
  | none =>
      refine turned_down (Or.inl ?_) h
      simp only [selectJobByKey, hencode]
      rfl
  | some stored =>
      apply hmatched
      by_cases hheld : key ≠ "" ∧ ∃ id, HeldBy db.jobs key id
      · obtain ⟨hne, _, row, hrow, rfl, rfl⟩ := hheld
        have hbound := (h.keys _ (F.uuid.decode row.id)).mpr ⟨hne, row, hrow, rfl, rfl⟩
        rw [selectJobByKey_of_unique h.unique horder hrow hne, Store.getJobByIdempotencyKey, hbound]
        simp only
        rw [getJob_mirrored h, hrow]
      · have hfree : s.byIdem.lookup key = none := by
          cases hbound : s.byIdem.lookup key with
          | none => rfl
          | some id =>
              obtain ⟨hne, hid⟩ := (h.keys key id).mp hbound
              exact absurd ⟨hne, id, hid⟩ hheld
        rw [Store.getJobByIdempotencyKey, hfree]
        cases stored with
        | none => simp only [selectJobByKey, hencode]
        | some stored =>
            refine (selectJobByKey_of_free d.order hencode fun id hid => ?_).symm
            exact hheld ⟨ne_empty_of_encode hencode, id, hid⟩

end Reads

section Listings

/-- Any listing of the database can be one of the memory store. -/
theorem exists_listing (h : Mirrors db s) {order : List F.UUID}
    (horder : db.jobs.Enumerates order) {select : Row F → Bool} {selects : Job → Bool}
    (hselects : ∀ row : Row F, db.jobs.get? row.id = some row →
      selects (scanJob row) = select row) (le : Row F → Row F → Bool) (limit : Int) :
    ∃ order', s.jobs.Enumerates order' ∧
      ((s.jobs.inOrder order').filter selects).take limit.toNat =
        selectJobs db.jobs order select le limit := by
  have hperm := List.mergeSort_perm ((db.jobs.inOrder order).filter select) le
  have hrow : ∀ row ∈ (((db.jobs.inOrder order).filter select).mergeSort le).take limit.toNat,
      db.jobs.get? row.id = some row ∧ select row := by
    intro row hmem
    obtain ⟨hscan, hselect⟩ := List.mem_filter.mp (hperm.subset (List.mem_of_mem_take hmem))
    exact ⟨(mem_inOrder.mp hscan).2, hselect⟩
  refine exists_take_eq ?_ ?_ ?_ ?_
  · have hnodup : (((db.jobs.inOrder order).filter select).map Row.id).Nodup :=
      (nodup_map_key_inOrder horder.1).sublist (List.filter_sublist.map Row.id)
    have hsorted := ((hperm.map Row.id).nodup_iff.mpr hnodup).sublist
      ((List.take_sublist limit.toNat _).map Row.id)
    have hids := hsorted.map (decode_injective F.uuid)
    rw [List.map_map] at hids
    rw [selectJobs, List.map_map]
    exact hids
  · intro job hjob
    obtain ⟨row, hmem, rfl⟩ := List.mem_map.mp hjob
    exact (Copies.stored_iff h.jobs _).mpr ⟨row, (hrow row hmem).1, rfl, rfl⟩
  · intro job hjob
    obtain ⟨row, hmem, rfl⟩ := List.mem_map.mp hjob
    rw [hselects row (hrow row hmem).1]
    exact (hrow row hmem).2
  · rw [selectJobs, List.length_map, List.length_take]
    by_cases hall : (((db.jobs.inOrder order).filter select).mergeSort le).length ≤ limit.toNat
    · refine Or.inr ⟨min_le_left _ _, fun job hstored hselected => ?_⟩
      obtain ⟨row, hget, rfl, -⟩ := (Copies.stored_iff h.jobs job).mp hstored
      rw [hselects row hget] at hselected
      rw [List.take_of_length_le hall]
      refine List.mem_map_of_mem (hperm.symm.subset (List.mem_filter.mpr ⟨?_, hselected⟩))
      exact (Enumerates.mem_inOrder horder).mpr hget
    · exact Or.inl (min_eq_left (not_le.mp hall).le)

theorem defaultLimit_pos (limit : Int) : 0 < MemoryStore.defaultLimit limit := by
  unfold MemoryStore.defaultLimit
  split <;> omega

/-- The three listings with a default limit. -/
theorem collect_matched (h : Mirrors db s) (horder : db.jobs.Enumerates d.order)
    {select : Row F → Bool} {selects : Job → Bool}
    (hselects : ∀ row : Row F, db.jobs.get? row.id = some row →
      selects (scanJob row) = select row) (le : Row F → Row F → Bool) (limit : Int)
    {c c' : Query} (hkept : Kept F c c')
    (hstep : ∀ e, onMemory.step c' s e = (.ok (.jobs (MemoryStore.collect selects
      (MemoryStore.defaultLimit limit) [] (s.jobs.inOrder e.order))), s))
    (hallowed : ∀ e, s.jobs.Enumerates e.order → onMemory.Allowed s c' e) :
    ∃ matching s', Observes onMemory s matching s' ∧
      Like F ⟨c, .ok (.jobs (selectJobs db.jobs d.order select le
        (MemoryStore.defaultLimit limit)))⟩ matching ∧ Mirrors db s' := by
  obtain ⟨order', horder', hlisted⟩ := exists_listing h horder hselects le
    (MemoryStore.defaultLimit limit)
  refine matched_by { order := order' } hkept (hallowed _ horder') (Or.inl ?_) ?_
  · rw [hstep, MemoryStore.collect_eq_take (defaultLimit_pos limit), List.nil_append, hlisted]
  · rw [hstep]
    exact h

theorem dueScheduled_scanJob (now : Timestamp) (row : Row F) :
    MemoryStore.dueScheduled (timestamptz.decode now) (scanJob row) = dueRow now row := by
  have hdue (t now : Int) : decide (t * 1000 ≤ now * 1000) = decide (t ≤ now) :=
    decide_eq_decide.mpr (by omega)
  cases hstate : row.state <;>
    simp only [MemoryStore.dueScheduled, dueRow, scanJob, hstate, nullTime]
  case scheduled =>
    cases row.scheduledAt with
    | none => rfl
    | some t => exact (hdue t now).trans (by simp)
  case retrying =>
    cases row.nextRetryAt with
    | none => rfl
    | some t => exact (hdue t now).trans (by simp)
  all_goals rfl

theorem timedOutRunning_scanJob (now : Timestamp) {row : Row F} (htimeout : 0 < row.timeoutMs) :
    MemoryStore.timedOutRunning (timestamptz.decode now) (scanJob row) = timedOutRow now row := by
  have heffective : MemoryStore.effectiveTimeout (scanJob row) = row.timeoutMs * 1000000 :=
    if_neg (not_le.mpr (Int.mul_pos htimeout (by decide)))
  have hlate (t now timeout : Int) :
      decide (t * 1000 + timeout * 1000000 < now * 1000) = decide (t + timeout * 1000 < now) :=
    decide_eq_decide.mpr (by omega)
  unfold MemoryStore.timedOutRunning timedOutRow
  rw [heffective]
  congr 1
  simp only [scanJob, nullTime]
  cases row.startedAt with
  | none => rfl
  | some t => exact hlate t now row.timeoutMs

theorem listing_matched (h : Mirrors db s) {c : Query}
    (hc : (∃ state limit, c = .listJobs state limit) ∨ (∃ limit, c = .listDueScheduled limit) ∨
      (∃ limit, c = .listCancelRequested limit) ∨ ∃ now limit, c = .listTimedOutRunning now limit)
    (hallowed : (onPostgres F).Allowed db c d) :
    ∃ matching s', Observes onMemory s matching s' ∧
      Like F ⟨c, (postgresStep c db d).1⟩ matching ∧ Mirrors (postgresStep c db d).2 s' := by
  rcases hc with ⟨state, limit, rfl⟩ | ⟨limit, rfl⟩ | ⟨limit, rfl⟩ | ⟨now, limit, rfl⟩
  · refine collect_matched h hallowed.1 (fun row _ => ?_) _ limit (.listJobs state limit)
      (fun _ => rfl) fun _ horder => horder
    cases state <;> rfl
  · have hlimit : 0 < limit := hallowed.2
    obtain ⟨order', horder', hlisted⟩ := exists_listing h hallowed.1
      (fun row _ => dueScheduled_scanJob (microsecond d.now) row) duePrecedes limit
    rw [← storedTime] at hlisted
    refine matched_by { order := order', now := storedTime d.now } (.listDueScheduled limit)
      horder' (Or.inl ?_) h
    simp only [onMemory, postgresStep, Store.listDueScheduled, listDueScheduled,
      if_neg (not_lt.mpr hlimit.le)]
    rw [MemoryStore.collectDue_eq_take hlimit, List.nil_append, hlisted]
    rfl
  · exact collect_matched h hallowed.1 (fun _ _ => rfl) _ limit (.listCancelRequested limit)
      (fun _ => rfl) fun _ horder => horder
  · refine collect_matched h hallowed.1 (fun row hrow => ?_) _ limit
      (.listTimedOutRunning now limit) (fun _ => rfl) fun _ horder => horder
    exact timedOutRunning_scanJob (microsecond now) (h.timeouts row hrow)

end Listings

end Chronos.StoreRefinement
