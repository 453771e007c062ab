import Chronos.MemoryStore
import Chronos.PostgresWorkers

namespace Chronos.WorkerAging

open Chronos.Domain
open Chronos.Library.KeyedTable
open Chronos.MemoryStore
open Chronos.PostgresStore
open Chronos.PostgresWorkers

/-- The statements of the Postgres store with one reading of the clock, where neither of them
fails. -/
def oneClock (now : Time) (rows rows2 : List String) : MarkDraw where
  suspectAt := now
  deadAt := now
  rows := rows
  rows2 := rows2

/-- The rows hold the workers of the table, as their columns keep them. -/
def Stored (workers : WorkerTable) (t : WorkerRows) : Prop :=
  ∀ id, (workers.get? id).map encodeWorker = (t.get? id).map some

theorem stored_iff_keys {workers : WorkerTable} {t : WorkerRows} :
    (t.keys = workers.keys ∧
        ∀ id ∈ workers.keys, (workers.get? id).map encodeWorker = (t.get? id).map some) ↔
      Stored workers t := by
  constructor
  · rintro ⟨hkeys, hsame⟩ id
    by_cases hid : id ∈ workers.keys
    · exact hsame id hid
    · rw [notMem_keys.mp hid, notMem_keys.mp (hkeys ▸ hid)]
      rfl
  · refine fun h => ⟨?_, fun id _ => h id⟩
    ext id
    have hid := h id
    rw [mem_keys, mem_keys]
    cases hw : workers.get? id <;> cases hrow : t.get? id <;> simp_all

instance (workers : WorkerTable) (t : WorkerRows) : Decidable (Stored workers t) :=
  decidable_of_iff _ stored_iff_keys

/-- The memory store marks the worker, but its last heartbeat and the cut-off that it is before
are in the same microsecond. -/
def Blurred (now : Time) (heartbeatTimeout grace : Duration) (w : Worker) : Prop :=
  (Lost now heartbeatTimeout grace w ∧
      microsecond w.lastHeartbeat = microsecond (now - (heartbeatTimeout + grace))) ∨
    (¬Lost now heartbeatTimeout grace w ∧ Overdue now heartbeatTimeout w ∧
      microsecond w.lastHeartbeat = microsecond (now - heartbeatTimeout))

instance (now : Time) (heartbeatTimeout grace : Duration) (w : Worker) :
    Decidable (Blurred now heartbeatTimeout grace w) :=
  inferInstanceAs (Decidable (_ ∨ _))

section Statements

variable {t : WorkerRows} {rows : List String} (status : WorkerStatus)
  (select : WorkerRow → Bool)

/-- What `SET status = … WHERE …` makes of one row. -/
def setWhere (row : WorkerRow) : WorkerRow :=
  if select row then row.setStatus status else row

theorem get?_updateWorkers (hrows : t.Enumerates rows) (id : String) :
    (updateWorkers t rows status select).2.get? id = (t.get? id).map (setWhere status select) :=
  get?_update hrows select (fun row => row.setStatus status) (fun _ => rfl) id

theorem mem_updateWorkers (hrows : t.Enumerates rows) (id : String) :
    id ∈ (updateWorkers t rows status select).1 ↔ ∃ row, t.get? id = some row ∧ select row := by
  rw [updateWorkers, List.mem_map]
  constructor
  · rintro ⟨row, hrow, rfl⟩
    obtain ⟨hscan, hselect⟩ := List.mem_filter.mp hrow
    exact ⟨row, (Enumerates.mem_inOrder hrows).mp hscan, hselect⟩
  · rintro ⟨row, hrow, hselect⟩
    obtain rfl := key_of_get? hrow
    exact ⟨row, List.mem_filter.mpr ⟨(Enumerates.mem_inOrder hrows).mpr hrow, hselect⟩, rfl⟩

theorem enumerates_updateWorkers (hrows : t.Enumerates rows) {order : List String}
    (horder : t.Enumerates order) : (updateWorkers t rows status select).2.Enumerates order := by
  refine ⟨horder.1, horder.2.trans ?_⟩
  ext id
  rw [mem_keys, mem_keys, get?_updateWorkers _ _ hrows]
  cases t.get? id with
  | none => simp
  | some row => simp

end Statements

section Rows

variable {now : Time} {heartbeatTimeout grace : Duration} {w : Worker} {row : WorkerRow}

theorem encodeWorker_columns (hrow : encodeWorker w = some row) :
    row.status = w.status ∧ row.lastHeartbeat = microsecond w.lastHeartbeat := by
  iterate 4 obtain ⟨_, -, hrow⟩ := Option.bind_eq_some_iff.mp hrow
  obtain ⟨_, hlastHeartbeat, hrow⟩ := Option.bind_eq_some_iff.mp hrow
  obtain ⟨_, -, hrow⟩ := Option.bind_eq_some_iff.mp hrow
  obtain rfl := Option.some.inj hrow
  exact ⟨rfl, (Option.some.inj hlastHeartbeat).symm⟩

theorem encodeWorker_status (hrow : encodeWorker w = some row) (status : WorkerStatus) :
    encodeWorker { w with status := status } = some (row.setStatus status) := by
  have hmap : encodeWorker { w with status := status } =
      (encodeWorker w).map fun row => row.setStatus status := by
    simp only [encodeWorker, Option.bind_eq_bind, Option.map_bind, Function.comp_def,
      Option.pure_def, Option.map_some]
    rfl
  rw [hmap, hrow, Option.map_some]

variable (now heartbeatTimeout grace) in
/-- The rows that the second statement finds: the first one has not changed them. -/
def late (row : WorkerRow) : Prop :=
  ¬dead (cutoff now (heartbeatTimeout + grace)) row ∧ row.status = .healthy ∧
    row.lastHeartbeat < cutoff now heartbeatTimeout

instance (row : WorkerRow) : Decidable (late now heartbeatTimeout grace row) :=
  inferInstanceAs (Decidable (_ ∧ _))

variable (now heartbeatTimeout grace) in
/-- What the two statements make of one row. -/
def ageRow (row : WorkerRow) : WorkerRow :=
  setWhere .suspected
    (stale (cutoff now heartbeatTimeout) (cutoff now (heartbeatTimeout + grace)))
    (setWhere .unavailable (dead (cutoff now (heartbeatTimeout + grace))) row)

/-- The first statement leaves no HEALTHY row that is before the second one's lower bound. -/
theorem stale_setWhere_iff (now : Time) (heartbeatTimeout grace : Duration) (row : WorkerRow) :
    stale (cutoff now heartbeatTimeout) (cutoff now (heartbeatTimeout + grace))
        (setWhere .unavailable (dead (cutoff now (heartbeatTimeout + grace))) row) ↔
      late now heartbeatTimeout grace row := by
  by_cases hdead : dead (cutoff now (heartbeatTimeout + grace)) row
  · rw [setWhere, if_pos hdead]
    simp [stale, late, hdead, WorkerRow.setStatus]
  · rw [setWhere, if_neg hdead]
    rw [late, and_iff_right hdead]
    simp only [stale, Bool.and_eq_true, beq_iff_eq, decide_eq_true_eq]
    refine and_congr_right fun hhealthy => and_iff_left ?_
    exact not_lt.mp fun hbefore => hdead (by simp [dead, hhealthy, hbefore])

theorem ageRow_eq (row : WorkerRow) :
    ageRow now heartbeatTimeout grace row = row.setStatus
      (if dead (cutoff now (heartbeatTimeout + grace)) row then .unavailable
        else if late now heartbeatTimeout grace row then .suspected else row.status) := by
  have hstale := stale_setWhere_iff now heartbeatTimeout grace row
  by_cases hdead : dead (cutoff now (heartbeatTimeout + grace)) row
  · rw [ageRow, setWhere, if_neg fun h => (hstale.mp h).1 hdead, setWhere, if_pos hdead,
      if_pos hdead]
  · rw [if_neg hdead]
    by_cases hlate : late now heartbeatTimeout grace row
    · rw [ageRow, setWhere, if_pos (hstale.mpr hlate), setWhere, if_neg hdead, if_pos hlate]
    · rw [ageRow, setWhere, if_neg fun h => hlate (hstale.mp h), setWhere, if_neg hdead,
        if_neg hlate]
      rfl

theorem markStale_eq (w : Worker) :
    markStale now heartbeatTimeout grace w =
      { w with
        status := if Lost now heartbeatTimeout grace w then .unavailable
          else if Overdue now heartbeatTimeout w then .suspected else w.status } := by
  unfold markStale
  split
  · rfl
  · split <;> rfl

theorem microsecond_lt_iff (a b : Int) :
    microsecond a < microsecond b ↔ a < b ∧ microsecond a ≠ microsecond b := by
  change a / 1000 < b / 1000 ↔ a < b ∧ a / 1000 ≠ b / 1000
  omega

/-- The first statement misses just the lost workers whose heartbeat is in the microsecond of
the cut-off. -/
theorem dead_iff (hrow : encodeWorker w = some row) :
    dead (cutoff now (heartbeatTimeout + grace)) row ↔ Lost now heartbeatTimeout grace w ∧
      microsecond w.lastHeartbeat ≠ microsecond (now - (heartbeatTimeout + grace)) := by
  obtain ⟨hstatus, hheartbeat⟩ := encodeWorker_columns hrow
  simp only [dead, cutoff, Lost, hstatus, hheartbeat, microsecond_lt_iff, Bool.and_eq_true,
    Bool.or_eq_true, beq_iff_eq, decide_eq_true_eq]
  tauto

theorem late_iff (hrow : encodeWorker w = some row)
    (hlost : ¬Lost now heartbeatTimeout grace w) :
    late now heartbeatTimeout grace row ↔ Overdue now heartbeatTimeout w ∧
      microsecond w.lastHeartbeat ≠ microsecond (now - heartbeatTimeout) := by
  obtain ⟨hstatus, hheartbeat⟩ := encodeWorker_columns hrow
  rw [late, and_iff_right fun hdead => hlost ((dead_iff hrow).mp hdead).1, cutoff, hstatus,
    hheartbeat, microsecond_lt_iff, Overdue]
  tauto

/-- Where no microsecond is shared with a cut-off, the statements find the workers that the
pass of the memory store finds. -/
theorem found_alike (hrow : encodeWorker w = some row)
    (hclear : ¬Blurred now heartbeatTimeout grace w) :
    (dead (cutoff now (heartbeatTimeout + grace)) row ↔ Lost now heartbeatTimeout grace w) ∧
      (late now heartbeatTimeout grace row ↔
        ¬Lost now heartbeatTimeout grace w ∧ Overdue now heartbeatTimeout w) := by
  obtain ⟨hfirst, hsecond⟩ := not_or.mp hclear
  have hdead : dead (cutoff now (heartbeatTimeout + grace)) row ↔
      Lost now heartbeatTimeout grace w :=
    (dead_iff hrow).trans (and_iff_left_of_imp fun hlost hsame => hfirst ⟨hlost, hsame⟩)
  refine ⟨hdead, ?_⟩
  by_cases hlost : Lost now heartbeatTimeout grace w
  · exact iff_of_false (fun hlate => hlate.1 (hdead.mpr hlost)) fun h => h.1 hlost
  · rw [late_iff hrow hlost, and_iff_right hlost]
    exact and_iff_left_of_imp fun hoverdue hsame => hsecond ⟨hlost, hoverdue, hsame⟩

theorem encode_markStale_iff (hrow : encodeWorker w = some row) :
    encodeWorker (markStale now heartbeatTimeout grace w) =
        some (ageRow now heartbeatTimeout grace row) ↔
      ¬Blurred now heartbeatTimeout grace w := by
  rw [markStale_eq, encodeWorker_status hrow, ageRow_eq, Option.some.injEq,
    WorkerRow.setStatus, WorkerRow.setStatus, WorkerRow.mk.injEq]
  simp only [true_and, and_true]
  constructor
  · rintro hsame (⟨hlost, hmicro⟩ | ⟨hlost, hoverdue, hmicro⟩)
    · have hdead : ¬dead (cutoff now (heartbeatTimeout + grace)) row := fun hdead =>
        ((dead_iff hrow).mp hdead).2 hmicro
      rw [if_pos hlost, if_neg hdead] at hsame
      split at hsame
      · cases hsame
      · rw [(encodeWorker_columns hrow).1] at hsame
        rcases hlost.2 with hstatus | hstatus <;> rw [hstatus] at hsame <;> cases hsame
    · have hdead : ¬dead (cutoff now (heartbeatTimeout + grace)) row := fun hdead =>
        hlost ((dead_iff hrow).mp hdead).1
      have hlate : ¬late now heartbeatTimeout grace row := fun hlate =>
        ((late_iff hrow hlost).mp hlate).2 hmicro
      rw [if_neg hlost, if_pos hoverdue, if_neg hdead, if_neg hlate,
        (encodeWorker_columns hrow).1, hoverdue.2] at hsame
      cases hsame
  · intro hclear
    obtain ⟨hdead, hlate⟩ := found_alike hrow hclear
    simp only [hdead, hlate, (encodeWorker_columns hrow).1]
    split
    · rfl
    · rename_i hlost
      simp only [hlost, not_false_eq_true, true_and]

/-- A worker that has been marked is not lost at the same time again. -/
theorem not_lost_markStale (w : Worker) :
    ¬Lost now heartbeatTimeout grace (markStale now heartbeatTimeout grace w) := by
  rw [markStale]
  split
  · rintro ⟨-, hstatus⟩
    rcases hstatus with hstatus | hstatus <;> cases hstatus
  · rename_i hlost
    split
    · rename_i hoverdue
      rintro ⟨hbefore, -⟩
      exact hlost ⟨hbefore, Or.inl hoverdue.2⟩
    · exact hlost

theorem not_dead_ageRow (row : WorkerRow) :
    ¬dead (cutoff now (heartbeatTimeout + grace)) (ageRow now heartbeatTimeout grace row) := by
  rw [ageRow_eq]
  split
  · simp [dead, WorkerRow.setStatus]
  · rename_i hdead
    split
    · rename_i hlate
      intro hagain
      have hbefore : row.lastHeartbeat < cutoff now (heartbeatTimeout + grace) :=
        of_decide_eq_true (Bool.and_eq_true_iff.mp hagain).2
      exact hdead (by simp [dead, hlate.2.1, hbefore])
    · exact hdead

end Rows

section Stores

variable {s : Store} {t : WorkerRows} {now : Time} {heartbeatTimeout grace : Duration}
  {order rows rows2 : List String}

theorem stored_iff (h : Stored s.workers t) {id : String} :
    (∃ w, s.workers.get? id = some w) ↔ ∃ row, t.get? id = some row := by
  rw [← mem_keys, ← mem_keys, (stored_iff_keys.mpr h).1]

theorem encode_of_stored (h : Stored s.workers t) {id : String} {w : Worker} {row : WorkerRow}
    (hw : s.workers.get? id = some w) (hrow : t.get? id = some row) :
    encodeWorker w = some row := by
  have hid := h id
  rw [hw, hrow] at hid
  exact Option.some.inj hid

theorem mem_suspected (horder : s.workers.Enumerates order) (id : String) :
    id ∈ (s.markStaleWorkers now heartbeatTimeout grace order).1.1 ↔
      ∃ w, s.workers.get? id = some w ∧
        ¬Lost now heartbeatTimeout grace w ∧ Overdue now heartbeatTimeout w := by
  rw [markStaleWorkers_ids _ _ _ horder.1, List.mem_filter, ← List.mem_toFinset, horder.2, mem_keys]
  cases s.workers.get? id with
  | none => simp
  | some w => simp

theorem get?_postgres (hrows : t.Enumerates rows) (hrows2 : t.Enumerates rows2) (id : String) :
    (markStaleWorkers heartbeatTimeout grace t (oneClock now rows rows2)).2.get? id =
      (t.get? id).map (ageRow now heartbeatTimeout grace) := by
  refine (get?_updateWorkers _ _ (enumerates_updateWorkers _ _ hrows hrows2) id).trans ?_
  rw [get?_updateWorkers _ _ hrows, Option.map_map]
  rfl

theorem mem_postgres_unavailable (hrows : t.Enumerates rows) (id : String) :
    id ∈ (markStaleWorkers heartbeatTimeout grace t (oneClock now rows rows2)).1.2.1 ↔
      ∃ row, t.get? id = some row ∧ dead (cutoff now (heartbeatTimeout + grace)) row :=
  mem_updateWorkers .unavailable _ hrows id

theorem mem_postgres_suspected (hrows : t.Enumerates rows) (hrows2 : t.Enumerates rows2)
    (id : String) :
    id ∈ (markStaleWorkers heartbeatTimeout grace t (oneClock now rows rows2)).1.1 ↔
      ∃ row, t.get? id = some row ∧ late now heartbeatTimeout grace row := by
  refine (mem_updateWorkers .suspected _ (enumerates_updateWorkers _ _ hrows hrows2) id).trans ?_
  simp only [oneClock, get?_updateWorkers _ _ hrows, Option.map_eq_some_iff]
  constructor
  · rintro ⟨_, ⟨row, hrow, rfl⟩, hstale⟩
    exact ⟨row, hrow, (stale_setWhere_iff now heartbeatTimeout grace row).mp hstale⟩
  · rintro ⟨row, hrow, hlate⟩
    exact ⟨_, ⟨row, hrow, rfl⟩, (stale_setWhere_iff now heartbeatTimeout grace row).mpr hlate⟩

variable (now heartbeatTimeout grace) in
/-- The rows and the table stay alike just if no worker that is marked shares its microsecond
with the cut-off. -/
theorem stored_marked_iff (h : Stored s.workers t) (horder : s.workers.Enumerates order)
    (hrows : t.Enumerates rows) (hrows2 : t.Enumerates rows2) :
    Stored (s.markStaleWorkers now heartbeatTimeout grace order).2.workers
        (markStaleWorkers heartbeatTimeout grace t (oneClock now rows rows2)).2 ↔
      ∀ id w, s.workers.get? id = some w → ¬Blurred now heartbeatTimeout grace w := by
  refine forall_congr' fun id => ?_
  rw [get?_marked _ _ _ horder, get?_postgres hrows hrows2]
  cases hw : s.workers.get? id with
  | none =>
      have hnone : t.get? id = none := by
        have hid := h id
        rw [hw] at hid
        exact Option.map_eq_none_iff.mp hid.symm
      simp [hnone]
  | some w =>
      obtain ⟨row, hrow⟩ := (stored_iff h).mp ⟨w, hw⟩
      rw [hrow, Option.map_some, Option.map_some, Option.map_some, Option.map_some,
        Option.some.injEq, encode_markStale_iff (encode_of_stored h hw hrow)]
      simp

/-- What the statements find among the rows, in terms of the workers. -/
theorem found_iff (h : Stored s.workers t) {P : Worker → Prop} {Q : WorkerRow → Prop}
    (hsame : ∀ id w row, s.workers.get? id = some w → encodeWorker w = some row →
      (Q row ↔ P w)) (id : String) :
    (∃ row, t.get? id = some row ∧ Q row) ↔ ∃ w, s.workers.get? id = some w ∧ P w := by
  constructor
  · rintro ⟨row, hrow, hQ⟩
    obtain ⟨w, hw⟩ := (stored_iff h).mpr ⟨row, hrow⟩
    exact ⟨w, hw, (hsame id w row hw (encode_of_stored h hw hrow)).mp hQ⟩
  · rintro ⟨w, hw, hP⟩
    obtain ⟨row, hrow⟩ := (stored_iff h).mp ⟨w, hw⟩
    exact ⟨row, hrow, (hsame id w row hw (encode_of_stored h hw hrow)).mpr hP⟩

/-- One call with one reading of the clock: it succeeds, no worker is reported twice, and none
as unavailable again when the call is repeated. -/
theorem marks_once (horder : s.workers.Enumerates order) (hrows : t.Enumerates rows)
    (hrows2 : t.Enumerates rows2) :
    let memory := s.markStaleWorkers now heartbeatTimeout grace order
    let postgres := markStaleWorkers heartbeatTimeout grace t (oneClock now rows rows2)
    postgres.1.2.2 = none ∧
      Disjoint memory.1.1.toFinset memory.1.2.toFinset ∧
      Disjoint postgres.1.1.toFinset postgres.1.2.1.toFinset ∧
      (∀ order', memory.2.workers.Enumerates order' →
        (memory.2.markStaleWorkers now heartbeatTimeout grace order').1.2 = []) ∧
      ∀ rows' rows2', postgres.2.Enumerates rows' →
        (markStaleWorkers heartbeatTimeout grace postgres.2
          (oneClock now rows' rows2')).1.2.1 = [] := by
  intro memory postgres
  refine ⟨rfl, ?_, ?_, ?_, ?_⟩
  · rw [Finset.disjoint_left]
    intro id hsuspected hunavailable
    rw [List.mem_toFinset, mem_suspected horder] at hsuspected
    rw [List.mem_toFinset, mem_unavailable _ _ _ horder] at hunavailable
    obtain ⟨w, hw, hlost, -⟩ := hsuspected
    obtain ⟨w', hw', hlost'⟩ := hunavailable
    obtain rfl := Option.some.inj (hw.symm.trans hw')
    exact hlost hlost'
  · rw [Finset.disjoint_left]
    intro id hsuspected hunavailable
    rw [List.mem_toFinset, mem_postgres_suspected hrows hrows2] at hsuspected
    rw [List.mem_toFinset, mem_postgres_unavailable hrows] at hunavailable
    obtain ⟨row, hrow, hdead, -⟩ := hsuspected
    obtain ⟨row', hrow', hdead'⟩ := hunavailable
    obtain rfl := Option.some.inj (hrow.symm.trans hrow')
    exact hdead hdead'
  · intro order' horder'
    rw [List.eq_nil_iff_forall_not_mem]
    intro id hid
    obtain ⟨w, hw, hlost⟩ := (mem_unavailable _ _ _ horder' id).mp hid
    rw [get?_marked _ _ _ horder, Option.map_eq_some_iff] at hw
    obtain ⟨old, -, rfl⟩ := hw
    exact not_lost_markStale old hlost
  · intro rows' rows2' hrows'
    rw [List.eq_nil_iff_forall_not_mem]
    intro id hid
    obtain ⟨row, hrow, hdead⟩ := (mem_postgres_unavailable hrows' id).mp hid
    rw [get?_postgres hrows hrows2, Option.map_eq_some_iff] at hrow
    obtain ⟨old, -, rfl⟩ := hrow
    exact not_dead_ageRow old hdead

variable (now heartbeatTimeout grace) in
/-- With one reading of the clock the two stores report no worker twice and none as unavailable
a second time.  They make the same table and report the same workers just if no worker that is
marked has its last heartbeat in the microsecond of the cut-off that it is before. -/
theorem stores_age_alike_iff (h : Stored s.workers t) (horder : s.workers.Enumerates order)
    (hrows : t.Enumerates rows) (hrows2 : t.Enumerates rows2) :
    let memory := s.markStaleWorkers now heartbeatTimeout grace order
    let postgres := markStaleWorkers heartbeatTimeout grace t (oneClock now rows rows2)
    (postgres.1.2.2 = none ∧
      Disjoint memory.1.1.toFinset memory.1.2.toFinset ∧
      Disjoint postgres.1.1.toFinset postgres.1.2.1.toFinset ∧
      (∀ order', memory.2.workers.Enumerates order' →
        (memory.2.markStaleWorkers now heartbeatTimeout grace order').1.2 = []) ∧
      ∀ rows' rows2', postgres.2.Enumerates rows' →
        (markStaleWorkers heartbeatTimeout grace postgres.2
          (oneClock now rows' rows2')).1.2.1 = []) ∧
    ((Stored memory.2.workers postgres.2 ∧
        postgres.1.1.toFinset = memory.1.1.toFinset ∧
        postgres.1.2.1.toFinset = memory.1.2.toFinset) ↔
      ∀ id w, s.workers.get? id = some w → ¬Blurred now heartbeatTimeout grace w) := by
  intro memory postgres
  have hstored := stored_marked_iff now heartbeatTimeout grace h horder hrows hrows2
  refine ⟨marks_once horder hrows hrows2, fun halike => hstored.mp halike.1, fun hclear => ?_⟩
  refine ⟨hstored.mpr hclear, ?_, ?_⟩
  · ext id
    rw [List.mem_toFinset, List.mem_toFinset, mem_postgres_suspected hrows hrows2,
      mem_suspected horder]
    exact found_iff h (fun id w row hw hrow => (found_alike hrow (hclear id w hw)).2) id
  · ext id
    rw [List.mem_toFinset, List.mem_toFinset, mem_postgres_unavailable hrows,
      mem_unavailable _ _ _ horder]
    exact found_iff h (fun id w row hw hrow => (found_alike hrow (hclear id w hw)).1) id

end Stores

/-- A worker in time, one at the first cut-off, one past it, and one past the second. -/
def fleet : List Worker :=
  [{ id := "a", capacity := 1, lastHeartbeat := 100000 },
    { id := "b", capacity := 1, lastHeartbeat := 90000 },
    { id := "c", capacity := 1, lastHeartbeat := 89999 },
    { id := "d", status := .suspected, capacity := 1, lastHeartbeat := 84999 }]

/-- Both stores once the workers have registered. -/
def registered (workers : List Worker) : Store × WorkerRows :=
  workers.foldl (fun r w => (r.1.upsertWorker w, (upsertWorker r.2 w).2)) (.new, .empty)

theorem fleet_ages_alike :
    let memory := (registered fleet).1.markStaleWorkers 100000 10000 5000 ["a", "b", "c", "d"]
    let postgres := markStaleWorkers 10000 5000 (registered fleet).2
      (oneClock 100000 ["d", "c", "b", "a"] ["c", "a", "d", "b"])
    memory.1 = (["c"], ["d"]) ∧ postgres.1 = (["c"], ["d"], none) ∧
      Stored memory.2.workers postgres.2 := by
  intro memory postgres
  have hstored : Stored (registered fleet).1.workers (registered fleet).2 := by decide +kernel
  have hclear : ∀ id w, (registered fleet).1.workers.get? id = some w →
      ¬Blurred 100000 10000 5000 w := by
    have hkeys : ∀ id ∈ (registered fleet).1.workers.keys,
        ∀ w ∈ (registered fleet).1.workers.get? id, ¬Blurred 100000 10000 5000 w := by
      decide +kernel
    exact fun id w hw => hkeys id (mem_keys.mpr ⟨w, hw⟩) w hw
  have halike := stores_age_alike_iff 100000 10000 5000 hstored
    (by decide +kernel : (registered fleet).1.workers.Enumerates ["a", "b", "c", "d"])
    (by decide +kernel : (registered fleet).2.Enumerates ["d", "c", "b", "a"])
    (by decide +kernel : (registered fleet).2.Enumerates ["c", "a", "d", "b"])
  exact ⟨by decide +kernel, by decide +kernel, (halike.2.mpr hclear).1⟩

/-- The worker's heartbeat is 500 nanoseconds before the second cut-off, but in its
microsecond. -/
theorem blurred_worker_differs :
    let silent := registered [{ id := "worker", capacity := 1, lastHeartbeat := 1000 }]
    let now := 25 * second + 1500
    let memory := silent.1.markStaleWorkers now (15 * second) (10 * second) ["worker"]
    let postgres := markStaleWorkers (15 * second) (10 * second) silent.2
      (oneClock now ["worker"] ["worker"])
    Stored silent.1.workers silent.2 ∧ memory.1 = ([], ["worker"]) ∧
      postgres.1 = (["worker"], [], none) ∧ ¬Stored memory.2.workers postgres.2 := by
  decide +kernel

end Chronos.WorkerAging
