import Chronos.Domain
import Chronos.Library.CallMachine
import Chronos.Library.KeyedTable

namespace Chronos.AnalyticsSchema

open Chronos.Domain
open Chronos.Library.CallProgram
open Chronos.Library.CallMachine
open Chronos.Library.KeyedTable

structure TableDefinition where
  columns : List String
  indexes : List String := []
  projections : List String := []
  engine : String
  partitionBy : String
  orderBy : String
  ttl : Option String := none
  settings : Option String := none
  deriving DecidableEq, Repr

/-- A view that writes what it computes from the rows of `source` to a table. -/
structure ViewDefinition where
  target : String
  select : List String
  source : String
  condition : Option String := none
  groupBy : String
  deriving DecidableEq, Repr

inductive Body
  | table (definition : TableDefinition)
  | materializedView (definition : ViewDefinition)
  deriving DecidableEq, Repr

def Body.needs : Body → List String
  | .table _ => []
  | .materializedView view => [view.target, view.source]

/-- A `CREATE ... IF NOT EXISTS` of a table or of a view. -/
structure Creation where
  name : String
  body : Body
  deriving DecidableEq, Repr

/-- A table with its rows, or a view, which has none of its own. -/
structure Relation (ρ : Type) where
  creation : Creation
  rows : List ρ
  stored : ∀ view, creation.body = .materializedView view → rows = []

def Relation.fresh {ρ : Type} (creation : Creation) : Relation ρ where
  creation := creation
  rows := []
  stored := fun _ _ => rfl

abbrev Relations (ρ : Type) := Table fun r : Relation ρ => r.creation.name

/-- A server, with the relations of the database that the connection uses. -/
structure ClickHouse (ρ : Type) where
  databases : Finset String
  relations : Relations ρ

inductive Statement
  | createDatabase (name : String)
  | dropTable (name : String)
  | create (creation : Creation)

abbrev StatementAnswer (_ : Statement) : Type := Except Err Unit

abbrev SchemaProg := Program Statement StatementAnswer

abbrev exec (statement : Statement) : SchemaProg (Except Err Unit) := perform statement

def eventColumns : String :=
  "event_id, event_type, event_version, event_time, ingested_at, " ++
    "job_id, execution_id, worker_id, scheduler_id, attempt, trace_id, payload"

def chronosEvents : Creation where
  name := "chronos_events"
  body := .table {
    columns := ["event_id UUID", "event_type LowCardinality(String)", "event_version UInt16",
      "event_time DateTime64(3, 'UTC')", "ingested_at DateTime64(3, 'UTC') DEFAULT now64(3)",
      "job_id String DEFAULT ''", "execution_id String DEFAULT ''",
      "worker_id String DEFAULT ''", "scheduler_id String DEFAULT ''",
      "attempt UInt32 DEFAULT 0", "trace_id String DEFAULT ''",
      "payload String DEFAULT '\x7b\x7d'"]
    indexes := ["idx_job_id job_id TYPE bloom_filter(0.01) GRANULARITY 1",
      "idx_trace_id trace_id TYPE bloom_filter(0.01) GRANULARITY 1",
      "idx_execution_id execution_id TYPE bloom_filter(0.01) GRANULARITY 1",
      "idx_event_type event_type TYPE set(0) GRANULARITY 4",
      "idx_worker_id worker_id TYPE bloom_filter(0.01) GRANULARITY 1"]
    projections :=
      ["proj_worker_time SELECT " ++ eventColumns ++ " ORDER BY (worker_id, event_time, event_id)",
        "proj_type_time SELECT " ++ eventColumns ++ " ORDER BY (event_type, event_time, event_id)"]
    engine := "ReplacingMergeTree(ingested_at)"
    partitionBy := "toYYYYMM(event_time)"
    orderBy := "(event_type, event_time, event_id)"
    ttl := some "toDateTime(event_time) + INTERVAL 30 DAY DELETE"
    settings := some "index_granularity = 8192" }

def jobMinuteStats : Creation where
  name := "job_minute_stats"
  body := .table {
    columns := ["minute DateTime('UTC')", "event_type LowCardinality(String)", "cnt UInt64",
      "uniq_jobs AggregateFunction(uniq, String)", "duration_sum UInt64",
      "duration_count UInt64",
      "duration_p50 AggregateFunction(quantileTDigest(0.5), Float64)",
      "duration_p90 AggregateFunction(quantileTDigest(0.9), Float64)",
      "duration_p95 AggregateFunction(quantileTDigest(0.95), Float64)",
      "duration_p99 AggregateFunction(quantileTDigest(0.99), Float64)"]
    engine := "AggregatingMergeTree"
    partitionBy := "toYYYYMM(minute)"
    orderBy := "(minute, event_type)"
    ttl := some "minute + INTERVAL 90 DAY DELETE" }

def completedDuration (level : String) : String :=
  "quantileTDigestStateIf(" ++ level ++ ")(toFloat64(JSONExtractUInt(payload, 'duration_ms')), " ++
    "event_type = 'JOB_COMPLETED' AND JSONExtractUInt(payload, 'duration_ms') > 0)"

def jobMinuteStatsMV : Creation where
  name := "job_minute_stats_mv"
  body := .materializedView {
    target := "job_minute_stats"
    select := ["toStartOfMinute(event_time) AS minute", "event_type", "count() AS cnt",
      "uniqState(job_id) AS uniq_jobs",
      "sumIf(JSONExtractUInt(payload, 'duration_ms'), event_type = 'JOB_COMPLETED') " ++
        "AS duration_sum",
      "countIf(event_type = 'JOB_COMPLETED' AND JSONExtractUInt(payload, 'duration_ms') > 0) " ++
        "AS duration_count",
      completedDuration "0.5" ++ " AS duration_p50", completedDuration "0.9" ++ " AS duration_p90",
      completedDuration "0.95" ++ " AS duration_p95",
      completedDuration "0.99" ++ " AS duration_p99"]
    source := "chronos_events"
    groupBy := "minute, event_type" }

def workerMinuteStats : Creation where
  name := "worker_minute_stats"
  body := .table {
    columns := ["minute DateTime('UTC')", "worker_id String",
      "event_type LowCardinality(String)", "cnt UInt64", "duration_sum UInt64",
      "duration_count UInt64"]
    engine := "SummingMergeTree((cnt, duration_sum, duration_count))"
    partitionBy := "toYYYYMM(minute)"
    orderBy := "(minute, worker_id, event_type)"
    ttl := some "minute + INTERVAL 90 DAY DELETE" }

def durationSums : List String :=
  ["sum(if(event_type = 'JOB_COMPLETED', JSONExtractUInt(payload, 'duration_ms'), 0)) " ++
      "AS duration_sum",
    "sum(if(event_type = 'JOB_COMPLETED' AND JSONExtractUInt(payload, 'duration_ms') > 0, " ++
      "1, 0)) AS duration_count"]

def workerMinuteStatsMV : Creation where
  name := "worker_minute_stats_mv"
  body := .materializedView {
    target := "worker_minute_stats"
    select := ["toStartOfMinute(event_time) AS minute", "worker_id", "event_type",
      "count() AS cnt"] ++ durationSums
    source := "chronos_events"
    condition := some "worker_id != ''"
    groupBy := "minute, worker_id, event_type" }

def failureMinuteStats : Creation where
  name := "failure_minute_stats"
  body := .table {
    columns := ["minute DateTime('UTC')", "event_type LowCardinality(String)", "cnt UInt64"]
    engine := "SummingMergeTree"
    partitionBy := "toYYYYMM(minute)"
    orderBy := "(minute, event_type)"
    ttl := some "minute + INTERVAL 90 DAY DELETE" }

def failureMinuteStatsMV : Creation where
  name := "failure_minute_stats_mv"
  body := .materializedView {
    target := "failure_minute_stats"
    select := ["toStartOfMinute(event_time) AS minute", "event_type", "count() AS cnt"]
    source := "chronos_events"
    condition := some
      "event_type IN ('JOB_FAILED', 'JOB_TIMEOUT', 'JOB_CANCELLED', 'JOB_RETRY_SCHEDULED')"
    groupBy := "minute, event_type" }

def jobHourlyStats : Creation where
  name := "job_hourly_stats"
  body := .table {
    columns := ["hour DateTime('UTC')", "event_type LowCardinality(String)", "cnt UInt64",
      "duration_sum UInt64", "duration_count UInt64"]
    engine := "SummingMergeTree((cnt, duration_sum, duration_count))"
    partitionBy := "toYYYYMM(hour)"
    orderBy := "(hour, event_type)"
    ttl := some "hour + INTERVAL 365 DAY DELETE" }

def jobHourlyStatsMV : Creation where
  name := "job_hourly_stats_mv"
  body := .materializedView {
    target := "job_hourly_stats"
    select := ["toStartOfHour(event_time) AS hour", "event_type", "count() AS cnt"] ++ durationSums
    source := "chronos_events"
    groupBy := "hour, event_type" }

def jobDailyStats : Creation where
  name := "job_daily_stats"
  body := .table {
    columns := ["day Date", "event_type LowCardinality(String)", "cnt UInt64"]
    engine := "SummingMergeTree"
    partitionBy := "toYYYYMM(day)"
    orderBy := "(day, event_type)" }

def jobDailyStatsMV : Creation where
  name := "job_daily_stats_mv"
  body := .materializedView {
    target := "job_daily_stats"
    select := ["toDate(event_time) AS day", "event_type", "count() AS cnt"]
    source := "chronos_events"
    groupBy := "day, event_type" }

def stmts : List Creation :=
  [chronosEvents, jobMinuteStats, jobMinuteStatsMV, workerMinuteStats, workerMinuteStatsMV,
    failureMinuteStats, failureMinuteStatsMV, jobHourlyStats, jobHourlyStatsMV, jobDailyStats,
    jobDailyStatsMV]

def dropped : List String :=
  ["job_minute_stats_mv", "job_minute_stats", "worker_minute_stats_mv", "worker_minute_stats",
    "failure_minute_stats_mv", "failure_minute_stats", "job_hourly_stats_mv", "job_hourly_stats",
    "job_daily_stats_mv", "job_daily_stats"]

/-- An error of a drop is ignored. -/
def drop (name : String) : SchemaProg Unit := do
  let _ ← exec (.dropTable name)
  pure ()

def createAll : List Creation → SchemaProg (Except Err Unit)
  | [] => pure (.ok ())
  | creation :: rest => do
      match ← exec (.create creation) with
      | .error e => pure (.error e)
      | .ok _ => createAll rest

def recreate : SchemaProg (Except Err Unit) := do
  forEach dropped drop
  createAll stmts

def ensureAdvancedSchema (db : String) : SchemaProg (Except Err Unit) :=
  if db = "" then recreate
  else do
    match ← exec (.createDatabase db) with
    | .error e => pure (.error e)
    | .ok _ => recreate

section Server

variable {ρ : Type}

/-- What is assumed of the server.  A view is created empty, after the relations it
reads and writes. -/
def execute : (c : Statement) → ClickHouse ρ → Option Err → StatementAnswer c × ClickHouse ρ
  | _, s, some e => (.error e, s)
  | .createDatabase name, s, none => (.ok (), { s with databases := insert name s.databases })
  | .dropTable name, s, none => (.ok (), { s with relations := s.relations.erase name })
  | .create creation, s, none =>
      match s.relations.get? creation.name with
      | some _ => (.ok (), s)
      | none =>
          if ∀ name ∈ creation.body.needs, (s.relations.get? name).isSome then
            (.ok (), { s with relations := s.relations.put (.fresh creation) })
          else (.error (.external "unknown table"), s)

def clickHouse (ρ : Type) : Machine Statement StatementAnswer (ClickHouse ρ) (Option Err) where
  step := execute
  Allowed := fun _ _ _ => True

def reliable (ρ : Type) : Machine Statement StatementAnswer (ClickHouse ρ) (Option Err) where
  step := execute
  Allowed := fun _ _ fault => fault = none

def SchemaExists (db : String) (s : ClickHouse ρ) : Prop :=
  (db = "" ∨ db ∈ s.databases) ∧
    ∀ creation ∈ stmts, (s.relations.get? creation.name).map Relation.creation = some creation

/-- Each creation finds what it needs among the relations known before it. -/
def wellOrdered (known : List String) : List Creation → Bool
  | [] => true
  | creation :: rest =>
      creation.body.needs.all (· ∈ known) && wellOrdered (creation.name :: known) rest

def created (creations : List Creation) (name : String) : Option (Relation ρ) :=
  (creations.find? fun creation => creation.name = name).map .fresh

theorem created_cons (creation : Creation) (rest : List Creation) (name : String) :
    (created (creation :: rest) name : Option (Relation ρ)) =
      if name = creation.name then some (.fresh creation) else created rest name := by
  simp only [created, List.find?_cons]
  by_cases hname : creation.name = name
  · simp [hname]
  · simp [hname, Ne.symm hname]

theorem create_ensures {s : ClickHouse ρ} {creation : Creation}
    (hneeds : ∀ name ∈ creation.body.needs, (s.relations.get? name).isSome)
    {f : Except Err Unit → SchemaProg (Except Err Unit)} {Q : Except Err Unit → ClickHouse ρ → Prop}
    (hrest : ∀ s' : ClickHouse ρ, s'.databases = s.databases →
      (∀ name, s'.relations.get? name = (s.relations.get? name).or
        (if name = creation.name then some (.fresh creation) else none)) →
      (reliable ρ).Ensures (f (.ok ())) s' Q) :
    (reliable ρ).Ensures (exec (.create creation) >>= f) s Q := by
  refine ensures_perform fun fault hfault => ?_
  obtain rfl : fault = none := hfault
  simp only [reliable, execute]
  split
  · rename_i r hr
    refine hrest s rfl fun name => ?_
    split
    · rename_i hname
      rw [hname, hr, Option.some_or]
    · rw [Option.or_none]
  · rename_i hnone
    rw [if_pos hneeds]
    refine hrest _ rfl fun name => ?_
    rw [get?_put]
    change (if name = creation.name then _ else _) = _
    split
    · rename_i hname
      rw [hname, hnone, Option.none_or]
    · rw [Option.or_none]

theorem createAll_ensures {creations : List Creation} {known : List String} {s : ClickHouse ρ}
    (hordered : wellOrdered known creations = true)
    (hknown : ∀ name ∈ known, (s.relations.get? name).isSome) :
    (reliable ρ).Ensures (createAll creations) s fun result s' =>
      result = .ok () ∧ s'.databases = s.databases ∧
      ∀ name, s'.relations.get? name = (s.relations.get? name).or (created creations name) := by
  induction creations generalizing known s with
  | nil =>
      refine ensures_ret ⟨rfl, rfl, fun name => ?_⟩
      exact (Option.or_none).symm
  | cons creation rest ih =>
      rw [wellOrdered, Bool.and_eq_true, List.all_eq_true] at hordered
      obtain ⟨hneeds, hrest⟩ := hordered
      refine create_ensures (fun name hname => ?_) fun s' hdatabases hs' => ?_
      · exact hknown name (of_decide_eq_true (hneeds name hname))
      · refine ensures_mono (ih hrest fun name hname => ?_) ?_
        · rw [hs']
          rcases List.mem_cons.mp hname with rfl | hname
          · simp
          · simp [hknown name hname]
        · rintro result t ⟨hresult, hdatabases', ht⟩
          refine ⟨hresult, hdatabases'.trans hdatabases, fun name => ?_⟩
          rw [ht, hs', Option.or_assoc, created_cons]
          split <;> simp

theorem drops_ensures (names : List String) (s : ClickHouse ρ) :
    (reliable ρ).Ensures (forEach names drop) s fun _ s' =>
      s'.databases = s.databases ∧
      ∀ name, s'.relations.get? name = if name ∈ names then none else s.relations.get? name := by
  induction names generalizing s with
  | nil => exact ensures_ret ⟨rfl, fun name => (if_neg List.not_mem_nil).symm⟩
  | cons dropped rest ih =>
      refine ensures_perform fun fault hfault => ?_
      obtain rfl : fault = none := hfault
      refine ensures_mono (ih { s with relations := s.relations.erase dropped }) ?_
      rintro _ t ⟨hdatabases, ht⟩
      refine ⟨hdatabases, fun name => ?_⟩
      rw [ht, get?_erase]
      by_cases hname : name = dropped <;> simp [hname]

theorem recreate_ensures (s : ClickHouse ρ) :
    (reliable ρ).Ensures recreate s fun result s' =>
      result = .ok () ∧ s'.databases = s.databases ∧
      ∀ name, s'.relations.get? name =
        (if name ∈ dropped then none else s.relations.get? name).or (created stmts name) := by
  apply ensures_bind
  refine ensures_mono (drops_ensures dropped s) ?_
  rintro _ t ⟨hdatabases, ht⟩
  have hordered : wellOrdered [] stmts = true := by decide
  refine ensures_mono (createAll_ensures hordered fun _ h => absurd h List.not_mem_nil) ?_
  rintro result s' ⟨hresult, hdatabases', hs'⟩
  refine ⟨hresult, hdatabases'.trans hdatabases, fun name => ?_⟩
  rw [hs', ht]

theorem ensureAdvancedSchema_ensures {db : String} {s : ClickHouse ρ} (hs : SchemaExists db s) :
    (reliable ρ).Ensures (ensureAdvancedSchema db) s fun result s' =>
      result = .ok () ∧ s'.databases = s.databases ∧
      ∀ name, s'.relations.get? name =
        (if name ∈ dropped then none else s.relations.get? name).or (created stmts name) := by
  unfold ensureAdvancedSchema
  split
  · exact recreate_ensures s
  · rename_i hdb
    refine ensures_perform fun fault hfault => ?_
    obtain rfl : fault = none := hfault
    have hsame : insert db s.databases = s.databases :=
      Finset.insert_eq_self.mpr (hs.1.resolve_left hdb)
    simp only [reliable, execute, hsame]
    exact recreate_ensures s

theorem eq_of_created {name : String} {r : Relation ρ} (hr : created stmts name = some r) :
    ∃ creation ∈ stmts, creation.name = name ∧ r = .fresh creation := by
  obtain ⟨creation, hfound, rfl⟩ := Option.map_eq_some_iff.mp hr
  exact ⟨creation, List.mem_of_find?_eq_some hfound,
    by simpa using List.find?_some hfound, rfl⟩

theorem eq_fresh {r : Relation ρ} (hrows : r.rows = []) : r = .fresh r.creation := by
  obtain ⟨creation, rows, _⟩ := r
  obtain rfl : rows = [] := hrows
  rfl

theorem dropped_created {name : String} (hname : name ∈ dropped) :
    ∃ r : Relation ρ, created stmts name = some r := by
  have hfound : ∀ name ∈ dropped,
      (stmts.find? fun creation => creation.name = name).isSome := by decide +kernel
  obtain ⟨creation, hcreation⟩ := Option.isSome_iff_exists.mp (hfound name hname)
  exact ⟨.fresh creation, by rw [created, hcreation, Option.map_some]⟩

/-- Ensuring a schema that exists changes nothing exactly if the tables that are dropped
and created again were empty. -/
theorem ensure_unchanged_iff {db : String} {s s' : ClickHouse ρ} {faults : List (Option Err)}
    {result : Except Err Unit} (hs : SchemaExists db s)
    (hrun : (reliable ρ).Runs (ensureAdvancedSchema db) s faults result s') :
    result = .ok () ∧
      (s' = s ↔ ∀ name ∈ dropped, ∀ r, s.relations.get? name = some r → r.rows = []) := by
  obtain ⟨hresult, hdatabases, hs'⟩ := ensureAdvancedSchema_ensures hs _ _ _ hrun
  refine ⟨hresult, fun hsame name hname r hr => ?_, fun hempty => ?_⟩
  · have hfresh := hs' name
    rw [if_pos hname, Option.none_or, hsame, hr] at hfresh
    obtain ⟨creation, -, -, rfl⟩ := eq_of_created hfresh.symm
    rfl
  · have hrelations : s'.relations = s.relations := by
      apply table_ext
      intro name
      rw [hs']
      split
      · rename_i hname
        obtain ⟨r, hr⟩ : ∃ r : Relation ρ, created stmts name = some r := dropped_created hname
        obtain ⟨creation, hcreation, rfl, rfl⟩ := eq_of_created hr
        obtain ⟨r, hstored, rfl⟩ := Option.map_eq_some_iff.mp (hs.2 creation hcreation)
        rw [hr, hstored, Option.none_or, ← eq_fresh (hempty _ hname r hstored)]
      · cases hstored : s.relations.get? name with
        | some r => rw [Option.some_or]
        | none =>
            rw [Option.none_or, Option.eq_none_iff_forall_ne_some]
            intro r hr
            obtain ⟨creation, hcreation, rfl, -⟩ := eq_of_created hr
            have hmissing := hs.2 creation hcreation
            rw [hstored] at hmissing
            exact absurd hmissing.symm (Option.some_ne_none _)
    cases s
    cases s'
    congr

theorem createAll_callsOnly (creations : List Creation) :
    (createAll creations).CallsOnly (· ≠ .dropTable "chronos_events") := by
  induction creations with
  | nil => trivial
  | cons creation rest ih =>
      refine (callsOnly_perform ..).mpr ⟨nofun, fun answer => ?_⟩
      cases answer with
      | error e => trivial
      | ok _ => exact ih

theorem recreate_callsOnly : recreate.CallsOnly (· ≠ .dropTable "chronos_events") := by
  refine callsOnly_bind (callsOnly_forEach fun name hname => ?_) fun _ => createAll_callsOnly stmts
  refine (callsOnly_perform ..).mpr ⟨?_, fun _ => trivial⟩
  rintro ⟨⟩
  exact absurd hname (by decide)

theorem ensureAdvancedSchema_callsOnly (db : String) :
    (ensureAdvancedSchema db).CallsOnly (· ≠ .dropTable "chronos_events") := by
  unfold ensureAdvancedSchema
  split
  · exact recreate_callsOnly
  · refine (callsOnly_perform ..).mpr ⟨nofun, fun answer => ?_⟩
    cases answer with
    | error e => trivial
    | ok _ => exact recreate_callsOnly

theorem execute_keeps {c : Statement} {s : ClickHouse ρ} {fault : Option Err} {name : String}
    {r : Relation ρ} (hc : c ≠ .dropTable name) (hr : s.relations.get? name = some r) :
    (execute c s fault).2.relations.get? name = some r := by
  cases fault with
  | some e => cases c <;> exact hr
  | none =>
      cases c with
      | createDatabase db => exact hr
      | dropTable other =>
          have hother : name ≠ other := fun h => hc (h ▸ rfl)
          change (s.relations.erase other).get? name = _
          rw [get?_erase, if_neg hother]
          exact hr
      | create creation =>
          simp only [execute]
          split
          · exact hr
          · rename_i hnone
            split
            · have hother : name ≠ creation.name := by
                rintro rfl
                exact absurd (hnone.symm.trans hr).symm (Option.some_ne_none r)
              change (s.relations.put (.fresh creation)).get? name = _
              rw [get?_put]
              exact (if_neg hother).trans hr
            · exact hr

/-- The raw events survive every start, also one that fails half-way. -/
theorem events_kept (db : String) {s : ClickHouse ρ} {events : Relation ρ}
    (hevents : s.relations.get? "chronos_events" = some events) :
    (clickHouse ρ).Ensures (ensureAdvancedSchema db) s fun _ s' =>
      s'.relations.get? "chronos_events" = some events :=
  ensures_of_calls (fun _ _ _ hc _ hr => execute_keeps hc hr) (ensureAdvancedSchema_callsOnly db)
    hevents

end Server

/-- A relation of the schema, with rows if it is the named table. -/
def filled (name : String) (rows : List String) (creation : Creation) : Relation String where
  creation := creation
  rows := if creation.name = name ∧ creation.body.needs = [] then rows else []
  stored := by
    intro view hview
    rw [hview]
    exact if_neg (by simp [Body.needs])

/-- A database after a first start, with rows in one of its tables. -/
def deployed (name : String) (rows : List String) : ClickHouse String where
  databases := {"chronos"}
  relations := (stmts.map (filled name rows)).foldl Table.put Table.empty

theorem get?_deployed (name : String) (rows : List String) {creation : Creation}
    (hcreation : creation ∈ stmts) :
    (deployed name rows).relations.get? creation.name = some (filled name rows creation) := by
  have hnames : ((stmts.map (filled name rows)).map fun r => r.creation.name).Nodup := by
    have hdistinct : (stmts.map Creation.name).Nodup := by decide
    rwa [List.map_map]
  exact get?_foldl_put_of_mem hnames (List.mem_map_of_mem hcreation) Table.empty

theorem schemaExists_deployed (name : String) (rows : List String) :
    SchemaExists "chronos" (deployed name rows) := by
  refine ⟨Or.inr (Finset.mem_singleton_self _), fun creation hcreation => ?_⟩
  rw [get?_deployed name rows hcreation]
  rfl

theorem exists_start (s : ClickHouse String) :
    ∃ faults result s',
      (reliable String).Runs (ensureAdvancedSchema "chronos") s faults result s' :=
  exists_runs (fun _ _ => ⟨none, rfl⟩) _ s

theorem raw_events_unchanged :
    ∃ faults, (reliable String).Runs (ensureAdvancedSchema "chronos")
      (deployed "chronos_events" ["event"]) faults (.ok ())
      (deployed "chronos_events" ["event"]) := by
  obtain ⟨faults, result, s', hrun⟩ := exists_start (deployed "chronos_events" ["event"])
  obtain ⟨rfl, hunchanged⟩ := ensure_unchanged_iff (schemaExists_deployed _ _) hrun
  obtain rfl : s' = deployed "chronos_events" ["event"] := by
    refine hunchanged.mpr fun name hname r hr => ?_
    obtain ⟨fresh, hfresh⟩ : ∃ fresh : Relation String, created stmts name = some fresh :=
      dropped_created hname
    obtain ⟨creation, hcreation, rfl, -⟩ := eq_of_created hfresh
    rw [get?_deployed _ _ hcreation] at hr
    obtain rfl := Option.some.inj hr
    refine if_neg fun hevents => ?_
    rw [hevents.1] at hname
    exact absurd hname (by decide)
  exact ⟨faults, hrun⟩

/-- One row of statistics is enough. -/
theorem start_clears_statistics :
    ∃ (s s' : ClickHouse String) (faults : List (Option Err)),
      SchemaExists "chronos" s ∧
      (reliable String).Runs (ensureAdvancedSchema "chronos") s faults (.ok ()) s' ∧
      (s.relations.get? "job_daily_stats").map Relation.rows = some ["day"] ∧
      (s'.relations.get? "job_daily_stats").map Relation.rows = some [] := by
  have hs := schemaExists_deployed "job_daily_stats" ["day"]
  obtain ⟨faults, result, s', hrun⟩ := exists_start (deployed "job_daily_stats" ["day"])
  obtain ⟨rfl, -, hs'⟩ := ensureAdvancedSchema_ensures hs _ _ _ hrun
  refine ⟨_, s', faults, hs, hrun, ?_, ?_⟩
  · have hdaily : jobDailyStats ∈ stmts := by decide
    exact congrArg _ (get?_deployed "job_daily_stats" ["day"] hdaily)
  · have hdropped : "job_daily_stats" ∈ dropped := by decide
    rw [hs', if_pos hdropped, Option.none_or]
    obtain ⟨r, hr⟩ : ∃ r : Relation String, created stmts "job_daily_stats" = some r :=
      dropped_created hdropped
    obtain ⟨creation, -, -, rfl⟩ := eq_of_created hr
    rw [hr]
    rfl

end Chronos.AnalyticsSchema
