import Chronos.ConcurrentResults.Stages
import Chronos.Operations

namespace Chronos.ConcurrentResults

open Chronos.Domain
open Chronos.Library.Interleaving
open Chronos.Library.KeyedTable
open Chronos.MemoryStore
open Chronos.ResultRecords
open Chronos.SharedState

section Serial

variable {cron : Cron} {jobID executionID : String} {reports : Bool → Report} {report : Report}
  {w w' : World} {job : Job} {x y : Readings} {i : Bool}

theorem exists_idle_run (cron : Cron) (executionID : String) (report : Report)
    (hterminal : ∀ job ∈ w.store.jobs.get? jobID, job.state.terminal) :
    ∃ ds value last, memory.Runs (report.handleResult cron jobID executionID) w ds value last ∧
      last.store.jobs = w.store.jobs := by
  obtain ⟨ds, value, last, hrun, -⟩ :=
    exists_runs_at 0 (report.handleResult cron jobID executionID) w
  exact ⟨ds, value, last, hrun, unchanged_of_runs hterminal (runs_steady hrun)⟩

theorem serialises_idle (hterminal : ∀ job ∈ w.store.jobs.get? jobID, job.state.terminal)
    (hjobs : w'.store.jobs = w.store.jobs) :
    Serialises cron jobID executionID reports w w' := by
  obtain ⟨ds, value, middle, hfirst, hmiddle⟩ :=
    exists_idle_run cron executionID (reports true) hterminal
  rw [← hmiddle] at hterminal
  obtain ⟨ds', value', last, hsecond, hlast⟩ :=
    exists_idle_run cron executionID (reports (!true)) hterminal
  exact ⟨true, ds, value, middle, ds', value', last, hfirst, hsecond,
    hlast.trans (hmiddle.trans hjobs.symm)⟩

/-- The first call settles the job, the second one ignores it. -/
theorem serialises_settled (hjob : w.store.jobs.get? jobID = some job)
    (hlive : job.state.terminal = false) (hterminal : ((reports i).outcome job).terminal)
    (hnew : ((reports i).successor cron job x.now).isSome → Fresh w x.uuid)
    (hjobs : w'.store.jobs = (reports i).settle cron job x w.store.jobs) :
    Serialises cron jobID executionID reports w w' := by
  obtain ⟨ds, value, middle, hfirst, hmiddle, -⟩ :=
    exists_runs_settle executionID hjob hlive hnew
  have hsettled : ∀ job ∈ middle.store.jobs.get? jobID, job.state.terminal := by
    rw [hmiddle, get?_settle hjob hnew]
    rintro _ ⟨⟩
    exact hterminal
  obtain ⟨ds', value', last, hsecond, hlast⟩ :=
    exists_idle_run cron executionID (reports (!i)) hsettled
  exact ⟨i, ds, value, middle, ds', value', last, hfirst, hsecond,
    hlast.trans (hmiddle.trans hjobs.symm)⟩

theorem child_of_outcome (hne : report.outcome job ≠ .completed) (x : Readings) :
    report.child cron job x = none := by
  rw [Report.child, successor_of_outcome hne]
  rfl

/-- The first call schedules a retry, the second one settles the job. -/
theorem serialises_retried (hjob : w.store.jobs.get? jobID = some job)
    (hlive : job.state.terminal = false) (hretrying : (reports i).outcome job = .retrying)
    (hnew : ((reports (!i)).successor cron job y.now).isSome → Fresh w y.uuid)
    (hjobs : w'.store.jobs = addJob (w.store.jobs.put (overwritten reports i job x y))
      ((reports (!i)).child cron job y)) :
    Serialises cron jobID executionID reports w w' := by
  have hne : (reports i).outcome job ≠ .completed := by
    rw [hretrying]
    exact JobState.noConfusion
  have hsuccessor : (reports i).successor cron job x.now = none :=
    successor_of_outcome hne x.now
  have hnone : ((reports i).successor cron job x.now).isSome → Fresh w x.uuid := by
    rw [hsuccessor]
    exact fun h => absurd h Bool.false_ne_true
  have hretried : ((reports i).record job x).state.terminal = false := by
    rw [record_state, hretrying]
    rfl
  obtain ⟨houtcome, hfields, hsame⟩ := report_retried cron hretried (reports (!i))
  obtain ⟨ds, value, middle, hfirst, hmiddle, hfresh⟩ :=
    exists_runs_settle executionID hjob hlive hnone
  have hstored : middle.store.jobs.get? jobID = some ((reports i).record job x) := by
    rw [hmiddle, get?_settle hjob hnone]
  have hnew' : ((reports (!i)).successor cron ((reports i).record job x) y.now).isSome →
      Fresh middle y.uuid := by
    rw [hsame]
    exact fun hsome => (hfresh hsuccessor _).mpr (hnew hsome)
  obtain ⟨ds', value', last, hsecond, hlast, -⟩ :=
    exists_runs_settle executionID hstored hretried hnew'
  refine ⟨i, ds, value, middle, ds', value', last, hfirst, hsecond, ?_⟩
  have hrecord : (reports (!i)).record ((reports i).record job x) y =
      overwritten reports i job x y := by
    rw [Report.record, houtcome, hfields]
    rfl
  have hchild : (reports (!i)).child cron ((reports i).record job x) y =
      (reports (!i)).child cron job y := by
    rw [Report.child, hsame]
    rfl
  have hid : ((reports i).record job x).id = (overwritten reports i job x y).id := rfl
  rw [hlast, hmiddle, hjobs, Report.settle, Report.settle, hrecord, hchild,
    child_of_outcome hne, addJob, put_put hid]

theorem overwritten_eq_record (hterminal : ((reports i).outcome job).terminal)
    (hcompatible : Compatible cron job ((reports i).record job x) ((reports (!i)).outcome job)) :
    overwritten reports i job x y = (reports (!i)).record job y := by
  have hterminal' : ((reports (!i)).outcome job).terminal :=
    (outcome_terminal_or (reports (!i)) job).resolve_right hcompatible.1
  have herror : (reports (!i)).outcome job = .completed →
      ((reports i).record job x).lastError = job.lastError := hcompatible.2.2
  simp only [overwritten, Report.record, fields_terminal hterminal,
    fields_terminal hterminal'] at herror ⊢
  by_cases hcompleted : (reports (!i)).outcome job = .completed
  · have herror := herror hcompleted
    by_cases hfirst : (reports i).outcome job = .completed
    · simp [applyUpdate, hcompleted, hfirst]
    · simp only [applyUpdate, if_neg hfirst, Option.getD_some] at herror
      simp [applyUpdate, hcompleted, hfirst, herror]
  · by_cases hfirst : (reports i).outcome job = .completed
    · simp [applyUpdate, hcompleted, hfirst]
    · simp [applyUpdate, hcompleted, hfirst]

theorem record_terminal (hterminal : (report.outcome job).terminal) (x : Readings) :
    (report.record job x).completedAt = some x.now ∧
      (report.outcome job = .completed → (report.record job x).lastError = job.lastError) := by
  rw [Report.record, fields_terminal hterminal]
  constructor
  · split <;> rfl
  · intro hcompleted
    rw [if_pos hcompleted]
    rfl

theorem child_of_compatible {outcome : JobState} (hterminal : (report.outcome job).terminal)
    (hcompatible : Compatible cron job (report.record job x) outcome) :
    report.child cron job x = none := by
  by_cases hcompleted : report.outcome job = .completed
  · have hnext : nextOccurrence cron job x.now = none :=
      (hcompatible.2.1 hcompleted).2 x.now (record_terminal hterminal x).1
    rw [Report.child, Report.successor, if_pos hcompleted, hnext]
    rfl
  · exact child_of_outcome hcompleted x

/-- Where a serial order ends: the first call settles the job, or schedules a retry that
the second one settles. -/
theorem serial_cases (hjob : w.store.jobs.get? jobID = some job)
    (hlive : job.state.terminal = false)
    (hserial : Serialises cron jobID executionID reports w w') :
    ∃ k a, (((reports k).successor cron job a.now).isSome → Fresh w a.uuid) ∧
      (((reports k).outcome job).terminal ∧
          w'.store.jobs = (reports k).settle cron job a w.store.jobs ∨
        (reports k).outcome job = .retrying ∧
          w'.jobState jobID = some ((reports (!k)).outcome job)) := by
  obtain ⟨k, ds, value, middle, ds', value', last, hfirst, hsecond, hlast⟩ := hserial
  obtain ⟨a, hmiddle, hnew⟩ := settled_of_runs hjob hlive (runs_steady hfirst)
  have hrecord : middle.store.jobs.get? jobID = some ((reports k).record job a) := by
    rw [hmiddle, get?_settle hjob hnew]
  refine ⟨k, a, hnew, ?_⟩
  rcases outcome_terminal_or (reports k) job with hk | hk
  · have hidle : ∀ job ∈ middle.store.jobs.get? jobID, job.state.terminal := by
      rw [hrecord]
      rintro _ ⟨⟩
      exact hk
    have hunchanged := unchanged_of_runs hidle (runs_steady hsecond)
    exact Or.inl ⟨hk, hlast.symm.trans (hunchanged.trans hmiddle)⟩
  · have hretried : ((reports k).record job a).state.terminal = false := by
      rw [record_state, hk]
      rfl
    obtain ⟨b, hend, hnew'⟩ := settled_of_runs hrecord hretried (runs_steady hsecond)
    refine Or.inr ⟨hk, ?_⟩
    rw [World.jobState, ← hlast, hend, get?_settle hrecord hnew', Option.map_some, record_state,
      (report_retried cron hretried (reports (!k))).1]

/-- Where a serial order explains that the job was settled twice, one of the calls alone
has left it so. -/
theorem settled_of_serialises (hjob : w.store.jobs.get? jobID = some job)
    (hlive : job.state.terminal = false) (hterminal : ((reports i).outcome job).terminal)
    (hstored : w'.store.jobs.get? jobID = some (overwritten reports i job x y))
    (hserial : Serialises cron jobID executionID reports w w') :
    ∃ k a, (reports k).outcome job = (reports (!i)).outcome job ∧
      ((reports k).outcome job).terminal ∧
      w'.store.jobs = (reports k).settle cron job a w.store.jobs ∧
      (((reports k).successor cron job a.now).isSome → Fresh w a.uuid) := by
  obtain ⟨k, a, hnew, ⟨hk, hsettle⟩ | ⟨hk, hstate⟩⟩ := serial_cases hjob hlive hserial
  · rw [hsettle, get?_settle hjob hnew] at hstored
    exact ⟨k, a, congrArg Job.state (Option.some.inj hstored), hk, hsettle, hnew⟩
  · rw [World.jobState, hstored] at hstate
    have houtcome : (reports (!i)).outcome job = (reports (!k)).outcome job :=
      Option.some.inj hstate
    rcases Bool.eq_or_eq_not k i with rfl | rfl
    · rw [hk] at hterminal
      cases hterminal
    · rw [hk, Bool.not_not] at houtcome
      rw [← houtcome] at hterminal
      cases hterminal

theorem child_of_settle {id : String} {stored : Job}
    (hjob : w.store.jobs.get? jobID = some job) (hfresh : Fresh w id)
    (hid : (report.settle cron job x w.store.jobs).get? id = some stored) :
    ∃ child ∈ report.child cron job x, child.id = id := by
  have hput : (w.store.jobs.put (report.record job x)).get? id = none := by
    have hne : id ≠ (report.record job x).id := by
      rw [record_id, key_of_get? hjob]
      exact fresh_ne hfresh hjob
    rw [get?_put_of_ne _ hne]
    exact notMem_keys.mp hfresh.2.2.1
  rw [Report.settle] at hid
  cases hchild : report.child cron job x with
  | none =>
      rw [hchild, addJob, hput] at hid
      cases hid
  | some child =>
      rw [hchild, addJob, get?_put] at hid
      split at hid
      · rename_i heq
        exact ⟨child, rfl, heq.symm⟩
      · rw [hput] at hid
        cases hid

/-- Two calls that both settle the job, in an overlap, can only be explained by a serial
order where the second one overrides the first one entirely. -/
theorem compatible_of_serialises (hjob : w.store.jobs.get? jobID = some job)
    (hlive : job.state.terminal = false) (hterminal : ((reports i).outcome job).terminal)
    (hnew : ((reports i).successor cron job x.now).isSome → Fresh w x.uuid)
    (hnew' : ((reports (!i)).successor cron job y.now).isSome → Fresh w y.uuid)
    (hdistinct : ∀ child ∈ (reports i).child cron job x,
      ∀ child' ∈ (reports (!i)).child cron job y, child.id ≠ child'.id)
    (hjobs : w'.store.jobs = addJob (addJob (w.store.jobs.put (overwritten reports i job x y))
      ((reports i).child cron job x)) ((reports (!i)).child cron job y))
    (hkeeps : (reports i).outcome job = .completed →
      (reports (!i)).outcome job ≠ .retrying ∧ (reports (!i)).outcome job ≠ .timeout)
    (hserial : Serialises cron jobID executionID reports w w') :
    Compatible cron job ((reports i).record job x) ((reports (!i)).outcome job) := by
  have hchild := child_fresh hnew
  have hchild' := child_fresh hnew'
  have hstored : w'.store.jobs.get? jobID = some (overwritten reports i job x y) := by
    rw [hjobs, get?_addJob fun child hmem => ?_]
    · exact get?_written hjob rfl fun child hmem => (hchild child hmem).1 ▸ (hchild child hmem).2
    · rw [(hchild' child hmem).1]
      exact fresh_ne (hchild' child hmem).2 hjob
  obtain ⟨k, a, houtcome, hk, hsettle, hnewa⟩ :=
    settled_of_serialises hjob hlive hterminal hstored hserial
  have hterminal' : ((reports (!i)).outcome job).terminal := houtcome ▸ hk
  have hrecord : (reports k).record job a = overwritten reports i job x y := by
    have hsame := get?_settle hjob hnewa
    rw [← hsettle, hstored] at hsame
    exact (Option.some.inj hsame).symm
  have hnow : a.now = y.now := by
    have hcompletedAt := congrArg Job.completedAt hrecord
    rw [(record_terminal hk a).1, overwritten, fields_terminal hterminal'] at hcompletedAt
    split at hcompletedAt <;> exact Option.some.inj hcompletedAt
  refine ⟨fun hretrying => ?_, fun hcompleted => ⟨(hkeeps hcompleted).2, ?_⟩, fun hcompleted => ?_⟩
  · rw [hretrying] at hterminal'
    cases hterminal'
  · intro completedAt hcompletedAt
    rw [(record_terminal hterminal x).1] at hcompletedAt
    obtain rfl := Option.some.inj hcompletedAt
    change nextOccurrence cron job x.now = none
    by_contra hnext
    -- the two calls have created a job each, the serial order one only
    have hone : ∀ child, child ∈ (reports i).child cron job x ∨
        child ∈ (reports (!i)).child cron job y →
        child.id = a.uuid ∧ ((reports k).successor cron job a.now).isSome := by
      intro child hmem
      obtain ⟨hfresh, hget⟩ : Fresh w child.id ∧ w'.store.jobs.get? child.id = some child := by
        rw [hjobs]
        rcases hmem with hmem | hmem
        · refine ⟨(hchild child hmem).1 ▸ (hchild child hmem).2, ?_⟩
          rw [get?_addJob fun child' hmem' => (hdistinct child hmem child' hmem').symm,
            show (reports i).child cron job x = some child from hmem]
          exact get?_put_self _ child
        · refine ⟨(hchild' child hmem).1 ▸ (hchild' child hmem).2, ?_⟩
          rw [show (reports (!i)).child cron job y = some child from hmem]
          exact get?_put_self _ child
      rw [hsettle] at hget
      obtain ⟨born, hborn, hid⟩ := child_of_settle hjob hfresh hget
      refine ⟨hid.symm.trans (child_fresh hnewa born hborn).1, ?_⟩
      obtain ⟨successor, hsuccessor, -⟩ := Option.map_eq_some_iff.mp hborn
      rw [hsuccessor]
      rfl
    obtain ⟨child, hmem⟩ : ∃ child, child ∈ (reports i).child cron job x := by
      apply Option.isSome_iff_exists.mp
      rw [record_state] at hcompleted
      rw [Report.child, Option.isSome_map, Report.successor, if_pos hcompleted]
      exact Option.isSome_iff_ne_none.mpr hnext
    obtain ⟨child', hmem'⟩ : ∃ child', child' ∈ (reports (!i)).child cron job y := by
      apply Option.isSome_iff_exists.mp
      rw [Report.child, Option.isSome_map, Report.successor, ← houtcome, ← hnow]
      exact (hone child (Or.inl hmem)).2
    apply hdistinct child hmem child' hmem'
    rw [(hone child (Or.inl hmem)).1, (hone child' (Or.inr hmem')).1]
  · have herror := congrArg Job.lastError hrecord
    rw [(record_terminal hk a).2 (houtcome.trans hcompleted), overwritten,
      fields_terminal hterminal', if_pos hcompleted] at herror
    exact herror.symm

/-- Two reports for one execution behave as if handled one after the other, and never
write RETRYING or TIMEOUT over COMPLETED, exactly when no update that finds the job
terminal does harm. -/
theorem concurrent_results_serialise_iff (cron : Cron) (jobID executionID : String)
    (reports : Bool → Report) (w w' : World) (schedule : List (Bool × Draw))
    (programs' : Bool → Prog (Except Err Unit))
    (hrun : interleave memory (fun i => (reports i).handleResult cron jobID executionID) w
      schedule = some (programs', w'))
    (hdone : ∀ i, ∃ value, programs' i = .ret value) :
    Serialises cron jobID executionID reports w w' ∧
        Throughout memory (KeepsCompleted jobID)
          (fun i => (reports i).handleResult cron jobID executionID) w schedule ↔
      Throughout memory (Harmless cron jobID reports w)
        (fun i => (reports i).handleResult cron jobID executionID) w schedule := by
  obtain ⟨φ, hfollows, hstage⟩ := stage_of_interleave hrun
  have hended : ∀ i, (φ i).Ended := by
    intro i
    obtain ⟨value, hvalue⟩ := hdone i
    have hfollows := hfollows i
    rw [hvalue] at hfollows
    exact hfollows
  have hover : ∀ {i x found}, Knows x found (φ i) → ∀ job ∈ found, job.state.terminal := by
    intro i x found hknows
    rcases hended i with hφ | hφ
    · rw [hφ] at hknows
      exact hknows
    · rw [hφ] at hknows
      exact hknows.elim
  have hrest : ∀ {i rest}, φ i = .wrote rest → rest = none := by
    intro i rest hφ
    rcases hended i with hend | hend
    · rw [hφ] at hend
      cases hend
    · rw [hφ] at hend
      exact Phase.wrote.inj hend
  cases hstage with
  | unwritten hgood hkeeps hjobs hknows =>
      obtain ⟨x, hx⟩ := hknows true
      exact iff_of_true ⟨serialises_idle (hover hx) hjobs, hkeeps⟩ hgood
  | written hgood hkeeps i job x rest made hjob hlive hφ hspawned hjobs hother =>
      obtain ⟨hmade, hnew⟩ := spawned_done hspawned (hrest hφ)
      have hterminal : ((reports i).outcome job).terminal := by
        obtain ⟨y, hy | hy⟩ := hother
        · rw [hover hy job rfl] at hlive
          cases hlive
        · exact hover hy _ rfl
      rw [hmade] at hjobs
      exact iff_of_true ⟨serialises_settled hjob hlive hterminal hnew hjobs, hkeeps⟩ hgood
  | overwritten i job x y rest made rest' made' hgood hkeeps hjob hlive hφ hφ' hspawned
      hspawned' hjobs hdistinct =>
      obtain ⟨rfl, hnew⟩ := spawned_done hspawned (hrest hφ)
      obtain ⟨rfl, hnew'⟩ := spawned_done hspawned' (hrest hφ')
      rw [hgood, hkeeps]
      constructor
      · rintro ⟨hserial, hkeeps⟩ hterminal
        exact compatible_of_serialises hjob hlive hterminal hnew hnew' hdistinct hjobs hkeeps
          hserial
      · intro hcompatible
        rcases outcome_terminal_or (reports i) job with hterminal | hretrying
        · have hcompatible := hcompatible hterminal
          refine ⟨?_, fun hcompleted => ⟨hcompatible.1, (hcompatible.2.1 hcompleted).1⟩⟩
          have hterminal' : ((reports (!i)).outcome job).terminal :=
            (outcome_terminal_or (reports (!i)) job).resolve_right hcompatible.1
          rw [child_of_compatible hterminal hcompatible, addJob,
            overwritten_eq_record hterminal hcompatible] at hjobs
          exact serialises_settled hjob hlive hterminal' hnew' hjobs
        · have hne : (reports i).outcome job ≠ .completed := by
            rw [hretrying]
            exact JobState.noConfusion
          rw [child_of_outcome hne, addJob] at hjobs
          exact ⟨serialises_retried hjob hlive hretrying hnew' hjobs, fun h => absurd h hne⟩

end Serial

section Scenarios

open Chronos.Operations
open Chronos.SchedulerService

instance (jobID : String) (programs : Bool → Prog (Except Err Unit)) (w : World) (i : Bool)
    (d : Draw) : Decidable (KeepsCompleted jobID programs w i d) :=
  inferInstanceAs (Decidable (∀ c ∈ _, _ → _ ∧ _))

instance (cron : Cron) (job stored : Job) (outcome : JobState) :
    Decidable (Compatible cron job stored outcome) :=
  inferInstanceAs (Decidable (_ ∧ (_ → _ ∧ ∀ _ ∈ _, _ = none) ∧ (_ → _)))

instance (cron : Cron) (jobID : String) (reports : Bool → Report) (w₀ : World)
    (programs : Bool → Prog (Except Err Unit)) (w : World) (i : Bool) (d : Draw) :
    Decidable (Harmless cron jobID reports w₀ programs w i d) :=
  inferInstanceAs (Decidable (∀ c ∈ _, _ → ∀ _ ∈ _, ∀ _ ∈ _, _ → _))

/-- The watchdog's timeout and the worker's success. -/
def timeoutAndSuccess : Bool → Report
  | false => ⟨"worker", 1, watchdogResult (echoJob .running)⟩
  | true => ⟨"worker", 1, succeeded⟩

/-- `calls` calls of one of the two. -/
def turns (i : Bool) (calls : Nat) : List (Bool × Draw) :=
  List.replicate calls (i, { now := 5 })

/-- The whole success comes between the read and the write of the timeout. -/
def successInside : List (Bool × Draw) :=
  turns false 6 ++ turns true 7 ++ turns false 2

theorem timeout_overwrites_success :
    ∃ programs' w', interleave memory
        (fun i => (timeoutAndSuccess i).handleResult utcOnly "job" "execution")
        (oneWorker (echoJob .running) []) successInside = some (programs', w') ∧
      (∀ i, ∃ value, programs' i = .ret value) ∧ w'.jobState "job" = some .retrying ∧
      ¬ Serialises utcOnly "job" "execution" timeoutAndSuccess
        (oneWorker (echoJob .running) []) w' ∧
      ¬ Throughout memory (KeepsCompleted "job")
        (fun i => (timeoutAndSuccess i).handleResult utcOnly "job" "execution")
        (oneWorker (echoJob .running) []) successInside := by
  let result := (interleave memory
    (fun i => (timeoutAndSuccess i).handleResult utcOnly "job" "execution")
    (oneWorker (echoJob .running) []) successInside).get (by decide +kernel)
  have hretrying : result.2.jobState "job" = some .retrying := by decide +kernel
  refine ⟨result.1, result.2, (Option.some_get (by decide +kernel)).symm, fun i => ?_,
    hretrying, fun hserial => ?_, by decide +kernel⟩
  · cases i <;> exact ⟨.ok (), rfl⟩
  · have hjob : (oneWorker (echoJob .running) []).store.jobs.get? "job" =
        some (echoJob .running) := get?_put_self _ (echoJob .running)
    obtain ⟨k, a, hnew, ⟨hk, hsettle⟩ | ⟨hk, hstate⟩⟩ := serial_cases hjob rfl hserial
    · rw [World.jobState, hsettle, get?_settle hjob hnew, Option.map_some, record_state,
        Option.some.injEq] at hretrying
      rw [hretrying] at hk
      cases hk
    · rw [hstate] at hretrying
      revert hk hretrying
      cases k <;> decide

/-- The timeout schedules a retry between the read and the write of the success. -/
def timeoutInside : List (Bool × Draw) :=
  turns true 5 ++ turns false 8 ++ turns true 2

theorem retried_success_serialises :
    ∃ w', w'.jobState "job" = some .completed ∧
      Serialises utcOnly "job" "execution" timeoutAndSuccess
        (oneWorker (echoJob .running) []) w' := by
  let result := (interleave memory
    (fun i => (timeoutAndSuccess i).handleResult utcOnly "job" "execution")
    (oneWorker (echoJob .running) []) timeoutInside).get (by decide +kernel)
  refine ⟨result.2, by decide +kernel, ?_⟩
  refine ((concurrent_results_serialise_iff utcOnly "job" "execution" timeoutAndSuccess
    (oneWorker (echoJob .running) []) result.2 timeoutInside result.1
    (Option.some_get (by decide +kernel)).symm fun i => ?_).mpr (by decide +kernel)).1
  cases i <;> exact ⟨.ok (), rfl⟩

end Scenarios

end Chronos.ConcurrentResults
