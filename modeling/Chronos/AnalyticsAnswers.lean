import Chronos.Library.ExtendedNumbers
import Chronos.SchedulerService
import Mathlib.Data.List.ReduceOption
import Mathlib.Data.Rat.Floor

namespace Chronos.AnalyticsAnswers

open Chronos.Domain
open Chronos.Library.ExtendedNumbers
open Chronos.SchedulerService

/-- A `float64`, taken as exact. -/
abbrev Number := Extended ℚ

abbrev num (q : ℚ) : Number := .finite q

def cleanF (f : Number) : Number :=
  if f.IsFinite then f else num 0

def ceil : Number → Number
  | .finite q => num ⌈q⌉
  | f => f

def toInt : Number → Int
  | .finite q => floatToInt64 q
  | _ => -2 ^ 63

/-- `Time.Sub` stops at the ends of the 64-bit range. -/
def sub (t u : Time) : Duration :=
  max (-2 ^ 63) (min (t - u) (2 ^ 63 - 1))

structure TimeRange where
  fromTime : Time
  toTime : Time
  deriving DecidableEq, Repr

structure PerMinute where
  completed : UInt64
  peak : UInt64
  avg : Number

structure Outcomes where
  completed : UInt64
  failed : UInt64
  p95 : Number

/-- What ClickHouse answers to the queries, or the error of the query. -/
structure Database where
  perMinute : TimeRange → Except String PerMinute
  activeWorkers : TimeRange → Except String UInt64
  outcomes : TimeRange → Except String Outcomes

structure CapacityResult where
  range : TimeRange
  completed : UInt64
  peakPerMinute : UInt64
  avgPerMinute : Number
  activeWorkersHint : Int
  recommendedWorkers : Int
  targetPerWorker : Number
  notes : String
  deriving DecidableEq

def CapacityResult.floats (result : CapacityResult) : List Number :=
  [result.avgPerMinute, result.targetPerWorker]

def recommendedWorkers (peak : UInt64) (targetPerWorker : Number) : Int :=
  if num 0 < targetPerWorker then
    let workers := toInt (ceil (num peak.toNat / targetPerWorker))
    if workers < 1 ∧ 0 < peak then 1 else workers
  else 0

def usableTarget (targetPerWorker : Number) : Number :=
  if targetPerWorker ≤ num 0 then num 30 else targetPerWorker

def capacity (db : Database) (tr : TimeRange) (targetPerWorker : Number) :
    Except String CapacityResult :=
  match db.perMinute tr with
  | .error e => .error e
  | .ok answer =>
      -- An error of the second query is ignored.
      let workers := match db.activeWorkers tr with
        | .error _ => 0
        | .ok workers => workers
      .ok {
        range := tr
        completed := answer.completed
        peakPerMinute := answer.peak
        avgPerMinute := answer.avg
        activeWorkersHint := wrap64 workers.toNat
        recommendedWorkers := recommendedWorkers answer.peak (usableTarget targetPerWorker)
        targetPerWorker := usableTarget targetPerWorker
        notes := "Recommended workers = ceil(peak_completed_per_minute / " ++
          "target_jobs_per_worker_per_min). Tune target from measured worker throughput." }

structure Anomaly where
  metric : String
  baseline : Number
  current : Number
  ratio : Number
  severity : String
  message : String
  deriving DecidableEq

def Anomaly.floats (anomaly : Anomaly) : List Number :=
  [anomaly.baseline, anomaly.current, anomaly.ratio]

structure AnomaliesResult where
  window : TimeRange
  baseline : TimeRange
  anomalies : List Anomaly
  deriving DecidableEq

def AnomaliesResult.floats (result : AnomaliesResult) : List Number :=
  result.anomalies.flatMap Anomaly.floats

structure Snap where
  p95 : Number
  failRate : Number
  throughput : Number
  deriving DecidableEq

def load (db : Database) (tr : TimeRange) : Except String Snap :=
  match db.outcomes tr with
  | .error e => .error e
  | .ok answer =>
      let term := num (answer.completed + answer.failed).toNat
      let dur := num (sub tr.toTime tr.fromTime / second)
      .ok {
        p95 := cleanF answer.p95
        failRate := if num 0 < term then num answer.failed.toNat / term else num 0
        throughput := if num 0 < dur then num answer.completed.toNat / dur else num 0 }

def ratio (b c : Number) : Number :=
  if num 0 < b then c / b
  else if num 0 < c then .posInf
  else num 0

def severity (b c warn crit : Number) (higherBad : Bool) : String :=
  if higherBad then
    if crit ≤ ratio b c then "critical"
    else if warn ≤ ratio b c then "warn"
    else ""
  else if num 0 < b ∧ c / b ≤ num 1 / crit then "critical"
  else if num 0 < b ∧ c / b ≤ num 1 / warn then "warn"
  else ""

section Answers

-- How `fmt` writes a number with two decimals.
variable (format : Number → String)

def check (metric : String) (b c warn crit : Number) (higherBad : Bool) : Option Anomaly :=
  if b ≤ num 0 ∧ c ≤ num 0 then none
  else if severity b c warn crit higherBad = "" then none
  else some {
    metric := metric
    baseline := b
    current := c
    ratio := ratio b c
    severity := severity b c warn crit higherBad
    message := metric ++ " baseline=" ++ format b ++ " current=" ++ format c ++ " ratio=" ++
      format (ratio b c) }

def anomalies (db : Database) (current baseline : TimeRange) : Except String AnomaliesResult :=
  match load db current with
  | .error e => .error e
  | .ok cur =>
      match load db baseline with
      | .error e => .error e
      | .ok base => .ok {
          window := current
          baseline := baseline
          anomalies := List.reduceOption
            [check format "p95_latency_ms" base.p95 cur.p95 (num 2) (num 4) true,
              check format "failure_rate" base.failRate cur.failRate (num 2) (num 5) true,
              check format "throughput_per_sec" base.throughput cur.throughput (num 2) (num 4)
                false] }

/-- The parameters of a request; a missing one is empty. -/
structure Query where
  fromTime : String := ""
  toTime : String := ""
  window : String := ""
  targetPerWorker : String := ""

structure Parsers where
  parseTime : String → Except String Time
  parseDuration : String → Except String Duration
  parseFloat : String → Except String Number

variable (parsers : Parsers)

def parseBound (name text : String) (default : Time) : Except String Time :=
  if text = "" then .ok default
  else
    match parsers.parseTime text with
    | .error e => .error ("invalid " ++ name ++ ": " ++ e)
    | .ok t => .ok t

def parseRange (now : Time) (fromTime toTime : String) (defaultWindow : Duration) :
    Except String TimeRange := do
  let fromTime ← parseBound parsers "from" fromTime (now + wrap64 (-defaultWindow))
  let toTime ← parseBound parsers "to" toTime now
  if toTime ≤ fromTime then .error "to must be after from" else .ok ⟨fromTime, toTime⟩

/-- `Server.parseRange`. -/
def Query.parseRange (query : Query) (now : Time) (defaultWindow : Duration) :
    Except String TimeRange :=
  AnalyticsAnswers.parseRange parsers now query.fromTime query.toTime defaultWindow

def targetParameter (query : Query) : Number :=
  if query.targetPerWorker = "" then num 30
  else
    match parsers.parseFloat query.targetPerWorker with
    | .error _ => num 30
    | .ok target => target

/-- An answer with its status, which is 200 for a result. -/
abbrev Answer (α : Type) := Except (Nat × String) α

def unavailable : Nat × String :=
  (503, "analytics unavailable (ClickHouse not configured)")

def analyticsCapacity (analytics : Option Database) (now : Time) (query : Query) :
    Answer CapacityResult :=
  match analytics with
  | none => .error unavailable
  | some db =>
      match query.parseRange parsers now (24 * 3600 * second) with
      | .error e => .error (400, e)
      | .ok tr =>
          match capacity db tr (targetParameter parsers query) with
          | .error e => .error (502, e)
          | .ok result => .ok result

/-- The current window and the one before it.  `now` is the handler's own reading of the
clock and `parsed` that of `ParseRange`. -/
def anomalyWindows (now parsed : Time) (query : Query) : TimeRange × TimeRange :=
  let window :=
    if query.window = "" then 15 * 60 * second
    else
      match parsers.parseDuration query.window with
      | .error _ => 15 * 60 * second
      | .ok window => window
  let default : TimeRange × TimeRange :=
    (⟨now + wrap64 (-window), now⟩, ⟨now + wrap64 (-2 * window), now + wrap64 (-window)⟩)
  if query.fromTime = "" then default
  else
    match query.parseRange parsers parsed window with
    | .error _ => default
    | .ok tr => (tr, ⟨tr.fromTime + wrap64 (-sub tr.toTime tr.fromTime), tr.fromTime⟩)

def analyticsAnomalies (analytics : Option Database) (now parsed : Time) (query : Query) :
    Answer AnomaliesResult :=
  match analytics with
  | none => .error unavailable
  | some db =>
      let (current, baseline) := anomalyWindows parsers now parsed query
      match anomalies format db current baseline with
      | .error e => .error (502, e)
      | .ok result => .ok result

end Answers

/-- What the client gets: the status is written first, and nothing else if the value
cannot be encoded. -/
structure Response (α : Type) where
  status : Nat
  body : Option α

def writeJSON {α : Type} (floats : α → List Number) (status : Nat) (value : α) : Response α where
  status := status
  body := if ∀ x ∈ floats value, x.IsFinite then some value else none

theorem isFinite_cleanF (f : Number) : (cleanF f).IsFinite := by
  unfold cleanF
  split
  · assumption
  · trivial

theorem isFinite_quotient (a b : ℚ) :
    (if num 0 < num b then num a / num b else num 0).IsFinite := by
  split
  · exact isFinite_div trivial trivial ‹_›
  · trivial

/-- The latency is a positive number. -/
def Outcomes.Slow (answer : Outcomes) : Prop := num 0 < answer.p95 ∧ answer.p95.IsFinite

/-- Jobs failed, and the sum of the counters has not wrapped to zero. -/
def Outcomes.Fails (answer : Outcomes) : Prop :=
  0 < answer.failed ∧ 0 < answer.completed + answer.failed

theorem cleanF_pos_iff (f : Number) : num 0 < cleanF f ↔ num 0 < f ∧ f.IsFinite := by
  unfold cleanF
  split
  · rename_i hfinite
    exact (and_iff_left hfinite).symm
  · rename_i hfinite
    exact iff_of_false (lt_irrefl (0 : ℚ)) fun h => hfinite h.2

theorem share_pos_iff (a b : UInt64) :
    num 0 < (if num 0 < num b.toNat then num a.toNat / num b.toNat else num 0) ↔
      0 < a ∧ 0 < b := by
  have hpos (n : UInt64) : num 0 < num n.toNat ↔ 0 < n := by
    rw [finite_lt_finite, Nat.cast_pos, UInt64.lt_iff_toNat_lt, UInt64.toNat_zero]
  rw [← hpos a, ← hpos b]
  split
  · rename_i hb
    have hb' : (0 : ℚ) < b.toNat := finite_lt_finite.mp hb
    rw [and_iff_left hb, finite_div_finite hb'.ne', finite_lt_finite, finite_lt_finite]
    exact div_pos_iff_of_pos_right hb'
  · rename_i hb
    exact iff_of_false (lt_irrefl (0 : ℚ)) fun h => hb h.2

/-- What `load` makes of an answer. -/
structure Snap.Summarizes (snap : Snap) (answer : Outcomes) : Prop where
  p95 : snap.p95.IsFinite
  failRate : snap.failRate.IsFinite
  throughput : snap.throughput.IsFinite
  slow : num 0 < snap.p95 ↔ answer.Slow
  fails : num 0 < snap.failRate ↔ answer.Fails

theorem summarizes_of_load {db : Database} {tr : TimeRange} {snap : Snap}
    (hload : load db tr = .ok snap) :
    ∃ answer, db.outcomes tr = .ok answer ∧ snap.Summarizes answer := by
  unfold load at hload
  split at hload
  · exact nomatch hload
  · rename_i answer hanswer
    obtain rfl := Except.ok.inj hload
    exact ⟨answer, hanswer, isFinite_cleanF answer.p95, isFinite_quotient _ _,
      isFinite_quotient _ _, cleanF_pos_iff answer.p95, share_pos_iff _ _⟩

/-- Something where the baseline has nothing. -/
def Rises (b c : Number) : Prop := b ≤ num 0 ∧ num 0 < c

instance (b c : Number) : Decidable (Rises b c) :=
  inferInstanceAs (Decidable (_ ∧ _))

theorem not_pos_iff {b : Number} (hb : b.IsFinite) : ¬ num 0 < b ↔ b ≤ num 0 := by
  obtain ⟨q, rfl⟩ := isFinite_iff.mp hb
  exact (not_lt : ¬ (0 : ℚ) < q ↔ q ≤ 0)

theorem isFinite_ratio_iff {b c : Number} (hb : b.IsFinite) (hc : c.IsFinite) :
    (ratio b c).IsFinite ↔ ¬ Rises b c := by
  unfold ratio Rises
  rw [← not_pos_iff hb]
  split
  · rename_i hpos
    exact iff_of_true (isFinite_div hc hb hpos) fun hrises => hrises.1 hpos
  · rename_i hpos
    split
    · rename_i hcur
      exact iff_of_false id (not_not.mpr ⟨hpos, hcur⟩)
    · rename_i hcur
      exact iff_of_true trivial fun hrises => hcur hrises.2

section Finite

variable {format : Number → String} {metric : String} {b c : Number}

theorem check_eq_some {warn crit : Number} {higherBad : Bool} {anomaly : Anomaly}
    (hanomaly : check format metric b c warn crit higherBad = some anomaly) :
    severity b c warn crit higherBad ≠ "" ∧ anomaly.floats = [b, c, ratio b c] := by
  unfold check at hanomaly
  split at hanomaly
  · exact nomatch hanomaly
  · split at hanomaly
    · exact nomatch hanomaly
    · rename_i hseverity
      obtain rfl := Option.some.inj hanomaly
      exact ⟨hseverity, rfl⟩

theorem check_of_rises (format : Number → String) (metric : String) (hb : b.IsFinite)
    (hc : c.IsFinite) (hrises : Rises b c) (warn crit : ℚ) :
    ∃ anomaly ∈ check format metric b c (num warn) (num crit) true, anomaly.ratio = .posInf := by
  have hratio : ratio b c = .posInf := by
    rw [ratio, if_neg ((not_pos_iff hb).mpr hrises.1), if_pos hrises.2]
  have hcritical : severity b c (num warn) (num crit) true = "critical" := by
    rw [severity, if_pos rfl, hratio, if_pos (finite_le_posInf crit)]
  have hcurrent : ¬ (b ≤ num 0 ∧ c ≤ num 0) := fun hnone =>
    (not_pos_iff hc).mpr hnone.2 hrises.2
  have hsevere : severity b c (num warn) (num crit) true ≠ "" := by
    rw [hcritical]
    decide
  rw [check, if_neg hcurrent, if_neg hsevere]
  exact ⟨_, rfl, hratio⟩

theorem finite_rise_check_iff (hb : b.IsFinite) (hc : c.IsFinite) (warn crit : ℚ) :
    (∀ anomaly ∈ check format metric b c (num warn) (num crit) true,
      ∀ x ∈ anomaly.floats, x.IsFinite) ↔ ¬ Rises b c := by
  constructor
  · intro hfinite hrises
    obtain ⟨anomaly, hanomaly, hratio⟩ := check_of_rises format metric hb hc hrises warn crit
    have hposInf : Extended.posInf ∈ anomaly.floats := by simp [Anomaly.floats, hratio]
    exact hfinite anomaly hanomaly _ hposInf
  · intro hrises anomaly hanomaly
    rw [(check_eq_some hanomaly).2]
    have hratio := (isFinite_ratio_iff hb hc).mpr hrises
    simp [hb, hc, hratio]

/-- A drop is reported only against a baseline, so its ratio is a quotient. -/
theorem finite_drop_check (hb : b.IsFinite) (hc : c.IsFinite) {warn crit : Number}
    {anomaly : Anomaly} (hanomaly : anomaly ∈ check format metric b c warn crit false) :
    ∀ x ∈ anomaly.floats, x.IsFinite := by
  obtain ⟨hseverity, hfloats⟩ := check_eq_some hanomaly
  have hpos : num 0 < b := by
    by_contra hpos
    simp [severity, hpos] at hseverity
  have hratio : (ratio b c).IsFinite := by
    rw [ratio, if_pos hpos]
    exact isFinite_div hc hb hpos
  rw [hfloats]
  simp [hb, hc, hratio]

theorem forall_floats_iff (checks : List (Option Anomaly)) :
    (∀ x ∈ checks.reduceOption.flatMap Anomaly.floats, x.IsFinite) ↔
      ∀ found ∈ checks, ∀ anomaly ∈ found, ∀ x ∈ anomaly.floats, x.IsFinite := by
  constructor
  · rintro hfinite found hfound anomaly rfl x hx
    exact hfinite x (List.mem_flatMap.mpr ⟨anomaly, List.reduceOption_mem_iff.mpr hfound, hx⟩)
  · intro hfinite x hx
    obtain ⟨anomaly, hanomaly, hx⟩ := List.mem_flatMap.mp hx
    exact hfinite _ (List.reduceOption_mem_iff.mp hanomaly) anomaly rfl x hx

theorem not_rises_iff {P Q : Prop} (hb : b.IsFinite) (hbase : num 0 < b ↔ P)
    (hcur : num 0 < c ↔ Q) : ¬ Rises b c ↔ (Q → P) := by
  rw [Rises, ← not_pos_iff hb, hbase, hcur, not_and, imp_not_comm, not_not]

theorem finite_anomalies_iff {db : Database} {current baseline : TimeRange}
    {result : AnomaliesResult} (hresult : anomalies format db current baseline = .ok result) :
    (∀ x ∈ result.floats, x.IsFinite) ↔
      ∀ base cur, db.outcomes baseline = .ok base → db.outcomes current = .ok cur →
        (cur.Slow → base.Slow) ∧ (cur.Fails → base.Fails) := by
  unfold anomalies at hresult
  split at hresult
  · exact nomatch hresult
  · rename_i cur hcur
    split at hresult
    · exact nomatch hresult
    · rename_i base hbase
      obtain rfl := Except.ok.inj hresult
      obtain ⟨before, hbefore, hb⟩ := summarizes_of_load hbase
      obtain ⟨now, hnow, hc⟩ := summarizes_of_load hcur
      have hanswers : (∀ base cur, db.outcomes baseline = .ok base →
          db.outcomes current = .ok cur → (cur.Slow → base.Slow) ∧ (cur.Fails → base.Fails)) ↔
          (now.Slow → before.Slow) ∧ (now.Fails → before.Fails) := by
        rw [hbefore, hnow]
        exact ⟨fun h => h _ _ rfl rfl, by rintro h _ _ ⟨⟩ ⟨⟩; exact h⟩
      rw [hanswers, ← not_rises_iff hb.p95 hb.slow hc.slow,
        ← not_rises_iff hb.failRate hb.fails hc.fails, AnomaliesResult.floats, forall_floats_iff]
      simp only [List.forall_mem_cons, finite_rise_check_iff hb.p95 hc.p95,
        finite_rise_check_iff hb.failRate hc.failRate]
      refine and_congr_right fun _ => and_iff_left ⟨fun anomaly hanomaly => ?_,
        fun _ h => absurd h List.not_mem_nil⟩
      exact finite_drop_check hb.throughput hc.throughput hanomaly

end Finite

theorem isFinite_usableTarget_iff (target : Number) :
    (usableTarget target).IsFinite ↔ target ≠ .nan ∧ target ≠ .posInf := by
  cases target with
  | finite q =>
      unfold usableTarget
      split <;> simp [Extended.IsFinite]
  | posInf => decide
  | negInf => decide
  | nan => decide

theorem finite_capacity_iff {db : Database} {tr : TimeRange} {target : Number}
    {result : CapacityResult} (hresult : capacity db tr target = .ok result) :
    (∀ x ∈ result.floats, x.IsFinite) ↔
      (∀ answer, db.perMinute tr = .ok answer → answer.avg.IsFinite) ∧
        target ≠ .nan ∧ target ≠ .posInf := by
  unfold capacity at hresult
  split at hresult
  · exact nomatch hresult
  · rename_i answer hanswer
    obtain rfl := Except.ok.inj hresult
    simp only [CapacityResult.floats, List.forall_mem_cons, isFinite_usableTarget_iff, hanswer]
    simp

theorem capacity_of_answer {parsers : Parsers} {db : Database} {now : Time} {query : Query}
    {result : CapacityResult}
    (hresult : analyticsCapacity parsers (some db) now query = .ok result) :
    ∃ tr, query.parseRange parsers now (24 * 3600 * second) = .ok tr ∧
      capacity db tr (targetParameter parsers query) = .ok result := by
  simp only [analyticsCapacity] at hresult
  split at hresult
  · exact nomatch hresult
  · rename_i tr htr
    refine ⟨tr, htr, ?_⟩
    split at hresult
    · exact nomatch hresult
    · rename_i hcapacity
      rwa [← Except.ok.inj hresult]

theorem anomalies_of_answer {format : Number → String} {parsers : Parsers} {db : Database}
    {now parsed : Time} {query : Query} {result : AnomaliesResult}
    (hresult : analyticsAnomalies format parsers (some db) now parsed query = .ok result) :
    anomalies format db (anomalyWindows parsers now parsed query).1
      (anomalyWindows parsers now parsed query).2 = .ok result := by
  simp only [analyticsAnomalies] at hresult
  split at hresult
  · exact nomatch hresult
  · rename_i answer hanomalies
    rwa [← Except.ok.inj hresult]

/-- The two answers can be encoded except where the database has no finite average, for a target
that is no finite number, and for a latency or a failure rate that has appeared since a baseline
without any. -/
theorem answers_finite_iff {format : Number → String} {parsers : Parsers} {db : Database}
    {capacityTime now parsed : Time} {capacityQuery anomaliesQuery : Query}
    {capacity : CapacityResult} {anomalies : AnomaliesResult}
    (hcapacity : analyticsCapacity parsers (some db) capacityTime capacityQuery = .ok capacity)
    (hanomalies : analyticsAnomalies format parsers (some db) now parsed anomaliesQuery =
      .ok anomalies) :
    ((∀ x ∈ capacity.floats, x.IsFinite) ↔
      (∀ tr answer, capacityQuery.parseRange parsers capacityTime (24 * 3600 * second) = .ok tr →
        db.perMinute tr = .ok answer → answer.avg.IsFinite) ∧
        targetParameter parsers capacityQuery ≠ .nan ∧
        targetParameter parsers capacityQuery ≠ .posInf) ∧
    ((∀ x ∈ anomalies.floats, x.IsFinite) ↔
      let (current, baseline) := anomalyWindows parsers now parsed anomaliesQuery
      ∀ base cur, db.outcomes baseline = .ok base → db.outcomes current = .ok cur →
        (cur.Slow → base.Slow) ∧ (cur.Fails → base.Fails)) := by
  obtain ⟨tr, htr, hanswer⟩ := capacity_of_answer hcapacity
  refine ⟨?_, finite_anomalies_iff (anomalies_of_answer hanomalies)⟩
  rw [finite_capacity_iff hanswer, htr]
  exact and_congr_left' ⟨by rintro h _ answer ⟨⟩; exact h answer, fun h answer => h tr answer rfl⟩

/-- Parsers for the texts that the requests below use. -/
def someParsers : Parsers where
  parseTime := fun text => .error text
  parseDuration := fun text => .error text
  parseFloat := fun text =>
    if text = "NaN" then .ok .nan else if text = "10" then .ok (num 10) else .error text

/-- An hour in which jobs run, after a time without any. -/
def started (p95 : Number) : Database where
  perMinute := fun _ => .ok ⟨60, 4, num 1⟩
  activeWorkers := fun _ => .ok 2
  outcomes := fun tr => .ok (if tr.toTime ≤ 0 then ⟨0, 0, num 0⟩ else ⟨60, 0, p95⟩)

def capacityAnswer (p95 : Number) (targetPerWorker : String) : Answer CapacityResult :=
  analyticsCapacity someParsers (some (started p95)) 0 { targetPerWorker := targetPerWorker }

def anomaliesAnswer (p95 : Number) : Answer AnomaliesResult :=
  analyticsAnomalies (fun _ => "") someParsers (some (started p95)) (15 * 60 * second) 0 {}

theorem quiet_answers_finite :
    ∃ (capacity : CapacityResult) (anomalies : AnomaliesResult),
      capacityAnswer (num 0) "10" = .ok capacity ∧ anomaliesAnswer (num 0) = .ok anomalies ∧
      (∀ x ∈ capacity.floats, x.IsFinite) ∧ (∀ x ∈ anomalies.floats, x.IsFinite) := by
  obtain ⟨hcapacity, hanomalies⟩ := answers_finite_iff
    (show capacityAnswer (num 0) "10" = .ok _ from rfl)
    (show anomaliesAnswer (num 0) = .ok _ from rfl)
  refine ⟨_, _, rfl, rfl, hcapacity.mpr ⟨?_, by decide, by decide⟩, hanomalies.mpr ?_⟩
  · rintro tr answer - hanswer
    obtain rfl := Except.ok.inj hanswer
    trivial
  · intro base cur hbase hcur
    obtain rfl := Except.ok.inj hbase
    obtain rfl := Except.ok.inj hcur
    exact ⟨fun hslow => absurd hslow.1 (by decide), fun hfails => absurd hfails.1 (by decide)⟩

theorem started_answers_empty :
    ∃ (capacity : CapacityResult) (anomalies : AnomaliesResult),
      capacityAnswer (num 120) "NaN" = .ok capacity ∧ anomaliesAnswer (num 120) = .ok anomalies ∧
      writeJSON CapacityResult.floats 200 capacity = ⟨200, none⟩ ∧
      writeJSON AnomaliesResult.floats 200 anomalies = ⟨200, none⟩ := by
  exact ⟨_, _, rfl, rfl, rfl, rfl⟩

end Chronos.AnalyticsAnswers
