import Chronos.StoreRefinement.Updates

namespace Chronos.StoreRefinement

open Chronos.Domain
open Chronos.Library.CallProgram
open Chronos.Library.KeyedTable
open Chronos.Library.Observations
open Chronos.MemoryStore (Fields Store applyUpdate stampExecution)
open Chronos.OneJobPerKey.Postgres
open Chronos.PostgresStore
open Chronos.PostgresTables

variable {F : Format} {db : Database F} {s : Store} {d : StoreDraw F.UUID}

section Inserts

theorem runSql_createJob (order : List F.UUID) (job : Job) (uuid : String) (now : Time)
    (t : JobRows F) :
    runSql order (createJob job uuid now) t =
      match insertJob t (stampJob job uuid now) with
      | (.error e, t') => ((.error e, stampJob job uuid now), t')
      | (.ok _, t') =>
          if (stampJob job uuid now).idempotencyKey = "" then
            ((.ok (), stampJob job uuid now), t')
          else
            match selectJobByKey t' order (stampJob job uuid now).idempotencyKey with
            | .error _ => ((.ok (), stampJob job uuid now), t')
            | .ok existing =>
                ((.ok (), if existing.id = (stampJob job uuid now).id then stampJob job uuid now
                  else existing), t') := by
  simp only [createJob, perform_bind, runSql, execute, attempted]
  obtain ⟨inserted, t'⟩ := insertJob t (stampJob job uuid now)
  cases inserted with
  | error e => rfl
  | ok _ =>
      dsimp only
      split
      · rfl
      · simp only [getJobByIdempotencyKey, perform_bind, runSql, execute, attempted]
        cases selectJobByKey t' order (stampJob job uuid now).idempotencyKey <;> rfl

/-- A job read from its row is as the memory store would store it. -/
theorem stampJob_scanJob {job : Job} {row : Row F} {uuid uuid' : String} {now : Time}
    (hrow : encodeRow F (stampJob job uuid now) = some row) :
    MemoryStore.stampJob (scanJob row) uuid' (storedTime now) = scanJob row := by
  have hid : (scanJob row).id ≠ "" := F.uuid_ne_empty row.id
  have htimes : row.createdAt = microsecond now ∧ row.updatedAt = microsecond now := by
    iterate 8 obtain ⟨_, -, hrow⟩ := Option.bind_eq_some_iff.mp hrow
    obtain ⟨_, hcreatedAt, hrow⟩ := Option.bind_eq_some_iff.mp hrow
    obtain ⟨_, hupdatedAt, hrow⟩ := Option.bind_eq_some_iff.mp hrow
    obtain ⟨_, -, hrow⟩ := Option.bind_eq_some_iff.mp hrow
    obtain rfl := Option.some.inj hrow
    exact ⟨(Option.some.inj hcreatedAt).symm, (Option.some.inj hupdatedAt).symm⟩
  rw [MemoryStore.stampJob, if_neg hid]
  simp only [scanJob, htimes, storedTime]

theorem timeoutMs_of_encodeRow {job : Job} {row : Row F} (hrow : encodeRow F job = some row) :
    row.timeoutMs = milliseconds job.timeout := by
  iterate 11 obtain ⟨_, -, hrow⟩ := Option.bind_eq_some_iff.mp hrow
  obtain rfl := Option.some.inj hrow
  rfl

theorem lookup_free (h : Mirrors db s) {key : Option NonemptyText}
    (hfree : ¬keyTaken db.jobs key) : s.byIdem.lookup (nullText.decode key) = none := by
  cases hbound : s.byIdem.lookup (nullText.decode key) with
  | none => rfl
  | some id =>
      obtain ⟨hne, row, hrow, hkey, -⟩ := (h.keys _ id).mp hbound
      exact absurd (keyTaken_iff.mpr
        ⟨isSome_of_decode_ne hne, row, hrow, nullText_decode_inj hkey⟩) hfree

theorem mirrors_insert (h : Mirrors db s) {row : Row F} (habsent : db.jobs.get? row.id = none)
    (hfree : ¬keyTaken db.jobs row.idempotencyKey) (htimeout : 0 < row.timeoutMs)
    {db' : Database F} (hjobs : db'.jobs = db.jobs.put row)
    (hexecutions : db'.executions = db.executions) {s' : Store}
    (hstored : s'.jobs = s.jobs.put (scanJob row)) (hsame : s'.executions = s.executions)
    (hindex : s'.byIdem = if nullText.decode row.idempotencyKey = "" then s.byIdem
      else s.byIdem.insert (nullText.decode row.idempotencyKey) (F.uuid.decode row.id)) :
    Mirrors db' s' where
  jobs := by
    rw [hjobs, hstored]
    exact copies_put h.jobs (decode_injective F.uuid) (fun _ => rfl) row
  keys := by
    intro key id
    have hheld : HeldBy (db.jobs.put row) key id ↔ HeldBy db.jobs key id ∨
        nullText.decode row.idempotencyKey = key ∧ F.uuid.decode row.id = id := by
      refine heldBy_put_iff fun old hold => ?_
      rw [habsent] at hold
      exact absurd hold.symm (Option.some_ne_none old)
    rw [hjobs, hheld, hindex]
    split
    · rename_i hempty
      rw [h.keys]
      refine and_congr_right fun hne => ⟨Or.inl, ?_⟩
      rintro (hold | ⟨rfl, -⟩)
      · exact hold
      · exact absurd hempty hne
    · rename_i hne
      by_cases hkey : key = nullText.decode row.idempotencyKey
      · subst hkey
        have hnone := lookup_free h hfree
        have hnew : ¬HeldBy db.jobs (nullText.decode row.idempotencyKey) id := by
          intro hold
          have hbound := (h.keys _ id).mpr ⟨hne, hold⟩
          rw [hnone] at hbound
          exact absurd hbound.symm (Option.some_ne_none id)
        rw [Finmap.lookup_insert, Option.some.injEq]
        simp [hne, hnew]
      · rw [Finmap.lookup_insert_of_ne _ hkey, h.keys]
        refine and_congr_right fun _ => ⟨Or.inl, ?_⟩
        rintro (hold | ⟨hsame, -⟩)
        · exact hold
        · exact absurd hsame.symm hkey
  executions := by
    rw [hexecutions, hsame]
    exact h.executions
  unique := by
    rw [hjobs]
    exact effect_uniqueKeys h.unique (.inserted hfree habsent)
  timeouts := by
    intro other hother
    rw [hjobs, get?_put] at hother
    split at hother
    · obtain rfl := Option.some.inj hother
      exact htimeout
    · exact h.timeouts other hother

/-- What an insert does once its row is known. -/
theorem insertJob_of_row {t : JobRows F} {job : Job} {row : Row F}
    (hrow : encodeRow F job = some row) (habsent : t.get? row.id = none) :
    insertJob t job =
      if keyTaken t row.idempotencyKey then (.ok (), t) else (.ok (), t.put row) := by
  simp only [insertJob, hrow, habsent, Option.isSome_none, Bool.false_eq_true, if_false]

theorem runSql_createJob_rows {t : JobRows F} {order : List F.UUID} {job : Job} {uuid : String}
    {now : Time} {row : Row F} (hrow : encodeRow F (stampJob job uuid now) = some row)
    (habsent : t.get? row.id = none) :
    (runSql order (createJob job uuid now) t).2 =
      if keyTaken t row.idempotencyKey then t else t.put row := by
  have htable (inserted : Except Err Unit × JobRows F) (hok : inserted.1 = .ok ())
      (heq : insertJob t (stampJob job uuid now) = inserted) :
      (runSql order (createJob job uuid now) t).2 = inserted.2 := by
    obtain ⟨_, t'⟩ := inserted
    obtain rfl := hok
    rw [runSql_createJob, heq]
    dsimp only
    split
    · rfl
    · split <;> rfl
  have hinsert := insertJob_of_row hrow habsent
  split
  · rename_i htaken
    rw [if_pos htaken] at hinsert
    exact htable _ rfl hinsert
  · rename_i hfree
    rw [if_neg hfree] at hinsert
    exact htable _ rfl hinsert

theorem runSql_createJob_taken {t : JobRows F} {order : List F.UUID} {job : Job}
    {uuid : String} {now : Time} {row old : Row F} (hunique : UniqueKeys t)
    (horder : t.Enumerates order) (hrow : encodeRow F (stampJob job uuid now) = some row)
    (habsent : t.get? row.id = none) (hold : t.get? old.id = some old)
    (hkey : old.idempotencyKey = row.idempotencyKey) (hsome : row.idempotencyKey.isSome) :
    runSql order (createJob job uuid now) t = ((.ok (), scanJob old), t) := by
  obtain ⟨hid, hencode⟩ := encodeRow_spec hrow
  have hdecode := nullText_decode_of_encode hencode
  have hne : nullText.decode old.idempotencyKey ≠ "" := by
    obtain ⟨key, hsome⟩ := Option.isSome_iff_exists.mp hsome
    rw [hkey, hsome]
    exact key.2.1
  have hother : (scanJob old).id ≠ (stampJob job uuid now).id := by
    intro hsame
    rw [← hsame] at hid
    obtain heq := Option.some.inj ((F.uuid.encode_decode old.id).symm.trans hid)
    rw [← heq, hold] at habsent
    exact absurd habsent (Option.some_ne_none old)
  rw [runSql_createJob, insertJob_of_row hrow habsent,
    if_pos (keyTaken_iff.mpr ⟨hsome, old, hold, hkey⟩)]
  dsimp only
  rw [← hdecode, ← hkey, if_neg hne, selectJobByKey_of_unique hunique horder hold hne]
  dsimp only
  rw [if_neg hother]

theorem runSql_createJob_free {t : JobRows F} {order : List F.UUID} {job : Job} {uuid : String}
    {now : Time} {row : Row F} (hunique : UniqueKeys t)
    (hrow : encodeRow F (stampJob job uuid now) = some row) (habsent : t.get? row.id = none)
    (hfree : ¬keyTaken t row.idempotencyKey) (horder : (t.put row).Enumerates order) :
    ∃ left, runSql order (createJob job uuid now) t = ((.ok (), left), t.put row) ∧
      (left = scanJob row ∨ encodeRow F left = some row) := by
  have hdecode := nullText_decode_of_encode (encodeRow_spec hrow).2
  rw [runSql_createJob, insertJob_of_row hrow habsent, if_neg hfree]
  dsimp only
  split
  · exact ⟨_, rfl, Or.inr hrow⟩
  · rename_i hne
    rw [← hdecode] at hne ⊢
    rw [selectJobByKey_of_unique (effect_uniqueKeys hunique (.inserted hfree habsent)) horder
      (get?_put_self t row) hne]
    refine ⟨_, rfl, ?_⟩
    split
    · exact Or.inr hrow
    · exact Or.inl rfl

theorem createJob_matched (h : Mirrors db s) {job : Job}
    (hallowed : (onPostgres F).Allowed db (.createJob job) d) :
    ∃ matching s', Observes onMemory s matching s' ∧
      Like F ⟨.createJob job, (postgresStep (.createJob job) db d).1⟩ matching ∧
      Mirrors (postgresStep (.createJob job) db d).2 s' := by
  obtain ⟨horder, hunused, htimeout⟩ := hallowed
  have hreply : (postgresStep (.createJob job) db d).1 =
      (runSql d.order (createJob job d.uuid d.now) db.jobs).1.1.map fun _ =>
        .job (runSql d.order (createJob job d.uuid d.now) db.jobs).1.2 := rfl
  have hjobs : (postgresStep (.createJob job) db d).2.jobs =
      (runSql d.order (createJob job d.uuid d.now) db.jobs).2 := rfl
  cases hrow : encodeRow F (stampJob job d.uuid d.now) with
  | none =>
      rw [runSql_createJob] at hreply hjobs
      simp only [insertJob, hrow] at hreply hjobs
      exact turned_down (Or.inl hreply) (mirrors_same h hjobs rfl)
  | some row =>
      have habsent := (hunused row.id (encodeRow_spec hrow).1).1
      let e : StoreDraw String := { now := storedTime d.now }
      have hstamped : MemoryStore.stampJob (scanJob row) e.uuid e.now = scanJob row :=
        stampJob_scanJob hrow
      by_cases htaken : keyTaken db.jobs row.idempotencyKey
      · obtain ⟨hsome, old, hold, hkey⟩ := keyTaken_iff.mp htaken
        have htable : (postgresStep (.createJob job) db d).2.jobs = db.jobs := by
          rw [hjobs, runSql_createJob_rows hrow habsent, if_pos htaken]
        rw [htable] at horder
        rw [runSql_createJob_taken h.unique horder hrow habsent hold hkey hsome] at hreply
        have hne : (scanJob row).idempotencyKey ≠ "" := by
          obtain ⟨key, hsome⟩ := Option.isSome_iff_exists.mp hsome
          change nullText.decode row.idempotencyKey ≠ ""
          rw [hsome]
          exact key.2.1
        have hmemory : s.createJob (scanJob row) e.uuid e.now = (scanJob old, s) := by
          refine MemoryStore.createJob_of_bound _ _ hne ?_ ?_
          · exact (h.keys _ _).mpr ⟨hne, old, hold, congrArg nullText.decode hkey, rfl⟩
          · exact (Copies.stored_iff h.jobs _).mpr ⟨old, hold, rfl, rfl⟩
        refine matched_by e (.createJob d.uuid d.now hrow) trivial (Or.inl ?_) ?_
        · simp only [onMemory, hmemory, hreply]
          rfl
        · simp only [onMemory, hmemory]
          exact mirrors_same h htable rfl
      · have htable : (postgresStep (.createJob job) db d).2.jobs = db.jobs.put row := by
          rw [hjobs, runSql_createJob_rows hrow habsent, if_neg htaken]
        rw [htable] at horder
        obtain ⟨left, hrun, hleft⟩ := runSql_createJob_free h.unique hrow habsent htaken horder
        rw [hrun] at hreply
        have htimeout' : 0 < row.timeoutMs := by
          rw [timeoutMs_of_encodeRow hrow]
          exact htimeout
        have hmemory : (s.createJob (scanJob row) e.uuid e.now).1 = scanJob row ∧
            Mirrors (postgresStep (.createJob job) db d).2
              (s.createJob (scanJob row) e.uuid e.now).2 := by
          simp only [Store.createJob, hstamped]
          split
          · rename_i hempty
            refine ⟨rfl, mirrors_insert h habsent htaken htimeout' htable rfl rfl rfl ?_⟩
            exact (if_pos hempty).symm
          · rename_i hne
            have hnone : s.byIdem.lookup
                (MemoryStore.stampJob (scanJob row) e.uuid e.now).idempotencyKey = none := by
              rw [hstamped]
              exact lookup_free h htaken
            simp only [hnone]
            refine ⟨trivial, mirrors_insert h habsent htaken htimeout' htable rfl rfl rfl ?_⟩
            exact (if_neg hne).symm
        refine matched_by e (.createJob d.uuid d.now hrow) trivial ?_ hmemory.2
        simp only [onMemory, hmemory.1, hreply]
        rcases hleft with rfl | hleft
        · exact Or.inl rfl
        · exact Or.inr ⟨left, row, rfl, hleft, rfl⟩

end Inserts

end Chronos.StoreRefinement
