import Chronos.StoreRefinement.Reads

namespace Chronos.StoreRefinement

open Chronos.Domain
open Chronos.Library.CallProgram
open Chronos.Library.KeyedTable
open Chronos.Library.Observations
open Chronos.MemoryStore (Fields Store applyUpdate stampExecution)
open Chronos.OneJobPerKey.Postgres
open Chronos.PostgresStore
open Chronos.PostgresTables

variable {F : Format} {db : Database F} {s : Store} {d : StoreDraw F.UUID}

section Updates

theorem heldBy_put_iff {t : JobRows F} {new : Row F} {key id : String}
    (hsame : ∀ old, t.get? new.id = some old → old.idempotencyKey = new.idempotencyKey) :
    HeldBy (t.put new) key id ↔ HeldBy t key id ∨
      nullText.decode new.idempotencyKey = key ∧ F.uuid.decode new.id = id := by
  constructor
  · rintro ⟨row, hrow, hkey, hid⟩
    rw [get?_put] at hrow
    split at hrow
    · obtain rfl := Option.some.inj hrow
      exact Or.inr ⟨hkey, hid⟩
    · exact Or.inl ⟨row, hrow, hkey, hid⟩
  · rintro (⟨row, hrow, hkey, hid⟩ | ⟨hkey, hid⟩)
    · by_cases hnew : row.id = new.id
      · refine ⟨new, get?_put_self t new, ?_, hnew ▸ hid⟩
        rw [← hsame row (hnew ▸ hrow)]
        exact hkey
      · exact ⟨row, by rw [get?_put_of_ne t hnew, hrow], hkey, hid⟩
    · exact ⟨new, get?_put_self t new, hkey, hid⟩

theorem nullTime_field {value : Option Time} {stored : Option (Option Timestamp)}
    (hfield : nullTime.field (value.map some) = some stored) :
    stored = value.map fun t => some (microsecond t) := by
  cases value with
  | none => exact (Option.some.inj hfield).symm
  | some t => exact (Option.some.inj hfield).symm

theorem times_of_encodeFields {fields : Fields} {f : ColumnFields F}
    (hf : encodeFields F (fieldMap fields) = some f) :
    f.queuedAt = fields.queuedAt.map (fun t => some (microsecond t)) ∧
      f.startedAt = fields.startedAt.map (fun t => some (microsecond t)) ∧
      f.completedAt = fields.completedAt.map (fun t => some (microsecond t)) ∧
      f.nextRetryAt = fields.nextRetryAt.map (fun t => some (microsecond t)) ∧
      f.scheduledAt = fields.scheduledAt.map (fun t => some (microsecond t)) := by
  iterate 4 obtain ⟨_, -, hf⟩ := Option.bind_eq_some_iff.mp hf
  obtain ⟨_, hqueuedAt, hf⟩ := Option.bind_eq_some_iff.mp hf
  obtain ⟨_, hstartedAt, hf⟩ := Option.bind_eq_some_iff.mp hf
  obtain ⟨_, hcompletedAt, hf⟩ := Option.bind_eq_some_iff.mp hf
  obtain ⟨_, hnextRetryAt, hf⟩ := Option.bind_eq_some_iff.mp hf
  obtain ⟨_, hscheduledAt, hf⟩ := Option.bind_eq_some_iff.mp hf
  obtain rfl := Option.some.inj hf
  exact ⟨nullTime_field hqueuedAt, nullTime_field hstartedAt, nullTime_field hcompletedAt,
    nullTime_field hnextRetryAt, nullTime_field hscheduledAt⟩

theorem decode_getD {α κ : Type} (column : ColumnType α κ) (new : Option κ) (old : κ) :
    column.decode (new.getD old) = (new.map column.decode).getD (column.decode old) := by
  cases new <;> rfl

theorem nullTime_decode_getD {value : Option Time} {stored : Option (Option Timestamp)}
    (hstored : stored = value.map fun t => some (microsecond t)) (old : Option Timestamp) :
    nullTime.decode (stored.getD old) =
      (stored.bind nullTime.decode).or (nullTime.decode old) := by
  subst hstored
  cases value <;> rfl

/-- The row that an update writes reads as the job that the memory store writes. -/
theorem scanJob_withColumns (row : Row F) {fields : Fields} {f : ColumnFields F}
    (hf : encodeFields F (fieldMap fields) = some f) (u : Update) :
    scanJob (row.withColumns (f.apply u row.toJobColumns)) =
      applyUpdate (scanJob row) u.state (keptFields f) (storedTime u.now) := by
  obtain ⟨hqueuedAt, hstartedAt, hcompletedAt, hnextRetryAt, hscheduledAt⟩ :=
    times_of_encodeFields hf
  simp only [scanJob, Row.withColumns, ColumnFields.apply, applyUpdate, keptFields, decode_getD,
    nullTime_decode_getD hqueuedAt, nullTime_decode_getD hstartedAt,
    nullTime_decode_getD hcompletedAt, nullTime_decode_getD hnextRetryAt,
    nullTime_decode_getD hscheduledAt]
  rfl

theorem mirrors_update (h : Mirrors db s) {row : Row F} (hrow : db.jobs.get? row.id = some row)
    (columns : JobColumns F) {db' : Database F}
    (hjobs : db'.jobs = db.jobs.put (row.withColumns columns))
    (hexecutions : db'.executions = db.executions) :
    Mirrors db' (s.putJob (scanJob (row.withColumns columns))) where
  jobs := by
    rw [hjobs]
    exact copies_put h.jobs (decode_injective F.uuid) (fun _ => rfl) (row.withColumns columns)
  keys := by
    intro key id
    rw [hjobs, heldBy_put_iff fun old hold => ?_]
    · rw [MemoryStore.putJob_byIdem, h.keys]
      refine and_congr_right fun _ => ⟨Or.inl, ?_⟩
      rintro (hheld | ⟨hkey, hid⟩)
      · exact hheld
      · exact ⟨row, hrow, hkey, hid⟩
    · obtain rfl := Option.some.inj (hrow.symm.trans hold)
      rfl
  executions := by
    rw [hexecutions]
    exact h.executions
  unique := by
    rw [hjobs]
    exact effect_uniqueKeys h.unique (.updated hrow columns)
  timeouts := by
    intro other hother
    rw [hjobs, get?_put] at hother
    split at hother
    · obtain rfl := Option.some.inj hother
      exact h.timeouts row hrow
    · exact h.timeouts other hother

theorem mirrors_same (h : Mirrors db s) {db' : Database F} (hjobs : db'.jobs = db.jobs)
    (hexecutions : db'.executions = db.executions) : Mirrors db' s := by
  obtain ⟨jobs, executions, _⟩ := db
  obtain ⟨jobs', executions', _⟩ := db'
  subst hjobs hexecutions
  exact ⟨h.jobs, h.keys, h.executions, h.unique, h.timeouts⟩

theorem runSql_updateJobStateIf (order : List F.UUID) (id : String) (u : Update)
    (t : JobRows F) :
    runSql order (updateJobStateIf id u) t =
      match selectJob t id with
      | .error e => (.error e, t)
      | .ok job =>
          if u.onlyFrom ≠ [] ∧ job.state ∉ u.onlyFrom then (.ok (), t)
          else updateJob t (applyFields job u) := by
  simp only [updateJobStateIf, getJob, perform_bind, runSql, execute, attempted]
  cases selectJob t id with
  | error e => rfl
  | ok job =>
      dsimp only
      split <;> rfl

theorem updateJob_applyFields {t : JobRows F} {row : Row F} (hrow : t.get? row.id = some row)
    (u : Update) :
    updateJob t (applyFields (scanJob row) u) =
      match encodeFields F u.fields with
      | none => (.error invalidValue, t)
      | some f => (.ok (), t.put (row.withColumns (f.apply u row.toJobColumns))) := by
  have hid : F.uuid.encode (applyFields (scanJob row) u).id = some row.id :=
    F.uuid.encode_decode row.id
  simp only [updateJob, hid, encodeColumns_applyFields]
  cases encodeFields F u.fields with
  | none => rfl
  | some f => simp only [Option.map_some, hrow]

theorem updateJobStateIf_matched (h : Mirrors db s) (id : String) (state : JobState)
    (fields : Fields) (onlyFrom : List JobState) (d : StoreDraw F.UUID) :
    ∃ matching s', Observes onMemory s matching s' ∧
      Like F ⟨.updateJobStateIf id state fields onlyFrom,
        (postgresStep (.updateJobStateIf id state fields onlyFrom) db d).1⟩ matching ∧
      Mirrors (postgresStep (.updateJobStateIf id state fields onlyFrom) db d).2 s' := by
  let u : Update := { state, fields := fieldMap fields, onlyFrom, now := d.now }
  have hreply : (postgresStep (.updateJobStateIf id state fields onlyFrom) db d).1 =
      (runSql d.order (updateJobStateIf id u) db.jobs).1.map fun _ => .nothing := rfl
  have hjobs : (postgresStep (.updateJobStateIf id state fields onlyFrom) db d).2.jobs =
      (runSql d.order (updateJobStateIf id u) db.jobs).2 := rfl
  rw [runSql_updateJobStateIf, selectJob] at hreply hjobs
  cases hid : F.uuid.encode id with
  | none =>
      simp only [hid] at hreply hjobs
      exact turned_down (Or.inl hreply) (mirrors_same h hjobs rfl)
  | some v =>
      let kept := (encodeFields F (fieldMap fields)).elim fields keptFields
      have hkept : Kept F (.updateJobStateIf id state fields onlyFrom)
          (.updateJobStateIf (F.uuid.decode v) state kept onlyFrom) := by
        refine .updateJobStateIf state onlyFrom hid fun f hf => ?_
        simp only [kept, hf, Option.elim_some]
      have hstored := h.jobs.get v
      cases hrow : db.jobs.get? v with
      | none =>
          simp only [hid, hrow] at hreply hjobs
          rw [hrow, Option.map_none] at hstored
          refine matched_by {} hkept trivial (Or.inl ?_) ?_
          · simp only [onMemory, Store.updateJobStateIf, hstored, hreply]
          · simp only [onMemory, Store.updateJobStateIf, hstored]
            exact mirrors_same h hjobs rfl
      | some row =>
          obtain rfl := key_of_get? hrow
          simp only [hid, hrow] at hreply hjobs
          rw [hrow, Option.map_some] at hstored
          by_cases hguard : onlyFrom ≠ [] ∧ (scanJob row).state ∉ onlyFrom
          · rw [if_pos hguard] at hreply hjobs
            refine matched_by {} hkept trivial (Or.inl ?_) ?_
            · simp only [onMemory, Store.updateJobStateIf, hstored, if_pos hguard, hreply]
            · simp only [onMemory, Store.updateJobStateIf, hstored, if_pos hguard]
              exact mirrors_same h hjobs rfl
          · rw [if_neg hguard, updateJob_applyFields hrow] at hreply hjobs
            cases hf : encodeFields F (fieldMap fields) with
            | none =>
                simp only [u, hf] at hreply hjobs
                exact turned_down (Or.inl hreply) (mirrors_same h hjobs rfl)
            | some f =>
                simp only [u, hf] at hreply hjobs
                have hwritten := scanJob_withColumns row hf u
                refine matched_by { now := storedTime d.now } hkept trivial (Or.inl ?_) ?_
                · simp only [onMemory, Store.updateJobStateIf, hstored, if_neg hguard, hreply]
                · simp only [onMemory, Store.updateJobStateIf, hstored, if_neg hguard, kept, hf,
                    Option.elim_some]
                  rw [← hwritten]
                  exact mirrors_update h hrow _ hjobs rfl

end Updates

end Chronos.StoreRefinement
