import Chronos.StoreRefinement.Inserts

namespace Chronos.StoreRefinement

open Chronos.Domain
open Chronos.Library.KeyedTable
open Chronos.Library.Observations
open Chronos.MemoryStore (Fields Store applyUpdate stampExecution)
open Chronos.OneJobPerKey.Postgres
open Chronos.PostgresStore
open Chronos.PostgresTables

variable {F : Format} {db : Database F} {s : Store} {d : StoreDraw F.UUID}

section Executions

theorem stampExecution_executionOf {ex : JobExecution} {row : ExecutionRow F}
    {uuid uuid' : String} {now : Time}
    (hrow : encodeExecution F (stampExecution ex uuid now) = some row) :
    stampExecution (executionOf row) uuid' (storedTime now) = executionOf row := by
  have hid : (executionOf row).id ≠ "" := F.uuid_ne_empty row.id
  have hcreatedAt : row.createdAt = microsecond now := by
    iterate 4 obtain ⟨_, -, hrow⟩ := Option.bind_eq_some_iff.mp hrow
    obtain ⟨_, hcreatedAt, hrow⟩ := Option.bind_eq_some_iff.mp hrow
    obtain rfl := Option.some.inj hrow
    exact (Option.some.inj hcreatedAt).symm
  rw [stampExecution, if_neg hid]
  simp only [executionOf, hcreatedAt, storedTime]

theorem id_of_encodeExecution {ex : JobExecution} {row : ExecutionRow F}
    (hrow : encodeExecution F ex = some row) : F.uuid.encode ex.id = some row.id := by
  obtain ⟨_, hid, hrow⟩ := Option.bind_eq_some_iff.mp hrow
  iterate 4 obtain ⟨_, -, hrow⟩ := Option.bind_eq_some_iff.mp hrow
  obtain rfl := Option.some.inj hrow
  exact hid

theorem mirrors_execution (h : Mirrors db s) (row : ExecutionRow F) {db' : Database F}
    (hjobs : db'.jobs = db.jobs) (hexecutions : db'.executions = db.executions.put row)
    {s' : Store} (hsame : s'.jobs = s.jobs) (hindex : s'.byIdem = s.byIdem)
    (hput : s'.executions = s.executions.put (executionOf row)) : Mirrors db' s' where
  jobs := by
    rw [hjobs, hsame]
    exact h.jobs
  keys := by
    rw [hjobs, hindex]
    exact h.keys
  executions := by
    rw [hexecutions, hput]
    exact copies_put h.executions (decode_injective F.uuid) (fun _ => rfl) row
  unique := by
    rw [hjobs]
    exact h.unique
  timeouts := by
    rw [hjobs]
    exact h.timeouts

theorem createExecution_matched (h : Mirrors db s) {ex : JobExecution}
    (hallowed : (onPostgres F).Allowed db (.createExecution ex) d) :
    ∃ matching s', Observes onMemory s matching s' ∧
      Like F ⟨.createExecution ex, (postgresStep (.createExecution ex) db d).1⟩ matching ∧
      Mirrors (postgresStep (.createExecution ex) db d).2 s' := by
  have hunused := hallowed.2
  simp only [postgresStep, createExecution]
  split
  · exact turned_down (Or.inl rfl) h
  · rename_i row hrow
    have habsent := (hunused row.id (id_of_encodeExecution hrow)).2
    rw [habsent]
    simp only [Option.isSome_none, Bool.false_eq_true, if_false]
    split
    · exact turned_down (Or.inr rfl) h
    · refine matched_by { now := storedTime d.now } (.createExecution d.uuid d.now hrow)
        trivial (Or.inl rfl) ?_
      refine mirrors_execution h row ?_ ?_ rfl rfl ?_
      · rfl
      · rfl
      · simp only [onMemory, Store.createExecution, stampExecution_executionOf hrow]

theorem finishExecution_matched (h : Mirrors db s) (id : String) (state : ExecutionState)
    (result : ExecutionResult) (d : StoreDraw F.UUID) :
    ∃ matching s', Observes onMemory s matching s' ∧
      Like F ⟨.finishExecution id state result,
        (postgresStep (.finishExecution id state result) db d).1⟩ matching ∧
      Mirrors (postgresStep (.finishExecution id state result) db d).2 s' := by
  simp only [postgresStep, finishExecution]
  split
  · rename_i u error output hid herror houtput
    have hstored := h.executions.get u
    split
    · rename_i hnone
      rw [hnone, Option.map_none] at hstored
      refine matched_by {} (.finishExecution state hid houtput) trivial (Or.inr ⟨rfl, ?_⟩) ?_
      · simp only [onMemory, Store.finishExecution, hstored]
        rfl
      · simp only [onMemory, Store.finishExecution, hstored]
        exact h
    · rename_i row hrow
      rw [hrow, Option.map_some] at hstored
      refine matched_by { now := storedTime d.now } (.finishExecution state hid houtput)
        trivial (Or.inl ?_) ?_
      · simp only [onMemory, Store.finishExecution, hstored]
      · simp only [onMemory, Store.finishExecution, hstored]
        refine mirrors_execution h (row.finish state result error output d.now) ?_ ?_ rfl rfl ?_
        · rfl
        · rfl
        · simp only [executionOf, ExecutionRow.finish, nullText_decode_of_encode herror]
          rfl
  · exact turned_down (Or.inl rfl) h

end Executions

section Clients

theorem call_matched (h : Mirrors db s) {c : Query} (hallowed : (onPostgres F).Allowed db c d) :
    ∃ matching s', Observes onMemory s matching s' ∧
      Like F ⟨c, ((onPostgres F).step c db d).1⟩ matching ∧
      Mirrors ((onPostgres F).step c db d).2 s' := by
  cases c with
  | createJob job => exact createJob_matched h hallowed
  | getJob id => exact getJob_matched h id d
  | getJobByIdempotencyKey key => exact getJobByIdempotencyKey_matched h key hallowed.1
  | updateJobStateIf id state fields onlyFrom =>
      exact updateJobStateIf_matched h id state fields onlyFrom d
  | listJobs state limit => exact listing_matched h (Or.inl ⟨state, limit, rfl⟩) hallowed
  | listDueScheduled limit => exact listing_matched h (Or.inr (Or.inl ⟨limit, rfl⟩)) hallowed
  | listCancelRequested limit =>
      exact listing_matched h (Or.inr (Or.inr (Or.inl ⟨limit, rfl⟩))) hallowed
  | listTimedOutRunning now limit =>
      exact listing_matched h (Or.inr (Or.inr (Or.inr ⟨now, limit, rfl⟩))) hallowed
  | createExecution ex => exact createExecution_matched h hallowed
  | finishExecution id state result => exact finishExecution_matched h id state result d

theorem mirrors_empty : Mirrors (Database.empty : Database F) .new where
  jobs := copies_empty
  keys := by
    intro key id
    refine iff_of_false ?_ ?_
    · simp [Store.new]
    · rintro ⟨-, row, hrow, -⟩
      exact absurd ((get?_empty row.id).symm.trans hrow).symm (Option.some_ne_none row)
  executions := copies_empty
  unique := by
    intro row row' hrow
    exact absurd ((get?_empty row.id).symm.trans hrow).symm (Option.some_ne_none row)
  timeouts := by
    intro row hrow
    exact absurd ((get?_empty row.id).symm.trans hrow).symm (Option.some_ne_none row)

/-- Whatever calls a client makes on the Postgres store, it could make them on the memory store,
with the values as the columns keep them, and get the same answers; what Postgres turns down is
a call not made there. -/
theorem postgres_refines_memory {seen : List (Observed Query Reply)}
    (hrun : Observes (onPostgres F) .empty seen db) :
    ∃ matched s, Observes onMemory .new matched.flatten s ∧ List.Forall₂ (Like F) seen matched ∧
      Mirrors db s :=
  exists_matched (fun h hallowed => call_matched h hallowed) hrun mirrors_empty

/-- A job whose times and timeout do not fit the columns exactly. -/
def fineJob : Job where
  id := "job"
  name := "echo"
  type := .builtin
  payload := some [0x7b, 0x7d]
  priority := 5
  state := .scheduled
  schedule := { type := .immediate }
  retryPolicy := defaultRetryPolicy
  timeout := 1500000
  maxAttempts := 3
  scheduledAt := some 1234

def jobDraw (now : Time) : StoreDraw plainFormat.UUID where
  now := now
  order := (plainFormat.uuid.encode "job").toList

/-- The client creates the job and reads it back as due. -/
theorem fine_job_refined :
    ∃ seen db, (seen.map fun o : Observed Query Reply => o.2)[1]? = some (.ok (.jobs
        [{ fineJob with
          timeout := 1000000, scheduledAt := some 1000, createdAt := 0, updatedAt := 0 }])) ∧
      Observes (onPostgres plainFormat) .empty seen db ∧
      ∃ matched s, Observes onMemory .new matched.flatten s ∧
        List.Forall₂ (Like plainFormat) seen matched ∧ Mirrors db s := by
  have hrun : Observes (onPostgres plainFormat) .empty
      [⟨.createJob fineJob, _⟩, ⟨.listDueScheduled 10, _⟩] _ :=
    .call (d := jobDraw 999) ⟨by decide +kernel, fun u _ => ⟨get?_empty u, get?_empty u⟩, by decide⟩
      (.call (d := jobDraw 5000) ⟨by decide +kernel, by decide⟩ (.start _))
  exact ⟨_, _, by decide +kernel, hrun, postgres_refines_memory hrun⟩

end Clients

end Chronos.StoreRefinement
