import Chronos.ResultRecords

namespace Chronos.ConcurrentResults

open Chronos.Domain
open Chronos.MemoryStore
open Chronos.ResultRecords
open Chronos.SharedState

/-- The job table is one that the two calls leave when they run one after the other. -/
def Serialises (cron : Cron) (jobID executionID : String) (reports : Bool → Report)
    (w w' : World) : Prop :=
  ∃ i ds value middle ds' value' last,
    memory.Runs ((reports i).handleResult cron jobID executionID) w ds value middle ∧
      memory.Runs ((reports (!i)).handleResult cron jobID executionID) middle ds' value' last ∧
      last.store.jobs = w'.store.jobs

def KeepsCall (jobID : String) (w : World) (c : Call) (d : Draw) : Prop :=
  w.jobState jobID = some .completed →
    (step c w d).2.jobState jobID ≠ some .retrying ∧
      (step c w d).2.jobState jobID ≠ some .timeout

/-- The next call does not write RETRYING or TIMEOUT over COMPLETED. -/
def KeepsCompleted (jobID : String) (programs : Bool → Prog (Except Err Unit)) (w : World)
    (i : Bool) (d : Draw) : Prop :=
  ∀ c ∈ (programs i).next?, KeepsCall jobID w c d

def updatesJob : Call → Bool
  | .updateJobStateIf _ _ _ _ => true
  | _ => false

/-- A report with this outcome leaves nothing of what the other report has made of `job`,
now `stored`, that it would not have left alone. -/
def Compatible (cron : Cron) (job stored : Job) (outcome : JobState) : Prop :=
  outcome ≠ .retrying ∧
    (stored.state = .completed → outcome ≠ .timeout ∧
      ∀ completedAt ∈ stored.completedAt, nextOccurrence cron stored completedAt = none) ∧
    (outcome = .completed → stored.lastError = job.lastError)

def HarmlessCall (cron : Cron) (jobID : String) (reports : Bool → Report) (w₀ w : World)
    (i : Bool) (c : Call) : Prop :=
  updatesJob c → ∀ job ∈ w₀.store.jobs.get? jobID, ∀ stored ∈ w.store.jobs.get? jobID,
    stored.state.terminal → Compatible cron job stored ((reports i).outcome job)

/-- The next call does no harm if it is an update that finds the job terminal. -/
def Harmless (cron : Cron) (jobID : String) (reports : Bool → Report) (w₀ : World)
    (programs : Bool → Prog (Except Err Unit)) (w : World) (i : Bool) (_ : Draw) : Prop :=
  ∀ c ∈ (programs i).next?, HarmlessCall cron jobID reports w₀ w i c

section Threads

variable {cron : Cron} {jobID : String} {report : Report} {φ φ' : Phase} {c : Call}
  {w : World} {d : Draw} {jobs : JobTable}

theorem side_updatesJob (hc : sideCall c) : updatesJob c = false := by
  cases c with
  | updateJobStateIf => cases hc
  | _ => rfl

/-- A call before its write either changes nothing, and knows what it knew or has just
read, or writes what its report makes of the record it knows. -/
theorem knows_advance {x : Readings} {found : Option Job}
    (hadvance : Advance cron jobID report φ φ' w d jobs c) (hknows : Knows x found φ) :
    (jobs = w.store.jobs ∧ updatesJob c = false ∧
        ∃ x', Knows x' found φ' ∨ Knows x' (w.store.jobs.get? jobID) φ') ∨
      ∃ job, found = some job ∧ job.state.terminal = false ∧ updatesJob c ∧
        φ' = .wrote (report.successor cron job x.now) ∧
        ∀ stored, w.store.jobs.get? jobID = some stored → jobs = w.store.jobs.put
          (applyUpdate stored (report.outcome job) (report.fields job x.now x.rand) d.now) := by
  cases hadvance with
  | side hc hφ' hjobs =>
      subst hφ'
      exact Or.inl ⟨hjobs, side_updatesJob hc, x, Or.inl hknows⟩
  | read hφ hφ' hjobs =>
      subst hφ'
      exact Or.inl ⟨hjobs, rfl, x, Or.inr (knows_found _)⟩
  | clock job hφ hφ' hjobs =>
      subst hφ hφ'
      refine Or.inl ⟨hjobs, rfl, { x with now := d.now }, Or.inl ⟨hknows.1, hknows.2, rfl, ?_⟩⟩
      exact fun z hz => absurd hz.symm (Option.some_ne_none z)
  | random job now hφ hφ' hunit hjobs =>
      subst hφ hφ'
      obtain ⟨hjob, hlive, hnow, -⟩ := hknows
      refine Or.inl ⟨hjobs, rfl, { x with rand := d.rand, unit := hunit }, Or.inl ?_⟩
      refine ⟨hjob, hlive, hnow, ?_⟩
      rintro _ ⟨⟩
      rfl
  | write job now rand fields hφ hφ' hjobs =>
      subst hφ hφ'
      obtain ⟨hjob, hlive, rfl, hrand⟩ := hknows
      exact Or.inr ⟨job, hjob, hlive, rfl, rfl, fun stored hstored =>
        hjobs stored x.rand hstored hrand⟩
  | spawn child hφ =>
      subst hφ
      exact hknows.elim

/-- After its write a call changes nothing or creates the job it still has to create. -/
theorem wrote_advance {rest : Option Job}
    (hadvance : Advance cron jobID report φ φ' w d jobs c) (hφ : φ = .wrote rest) :
    updatesJob c = false ∧
      (φ' = .wrote rest ∧ jobs = w.store.jobs ∨
        ∃ child, rest = some child ∧ φ' = .wrote none ∧ Fresh w d.uuid ∧
          jobs = w.store.jobs.put (stampJob child d.uuid d.now)) := by
  subst hφ
  cases hadvance with
  | side hc hφ' hjobs => exact ⟨side_updatesJob hc, Or.inl ⟨hφ', hjobs⟩⟩
  | spawn child hφ hφ' hfresh hjobs =>
      exact ⟨rfl, Or.inr ⟨child, Phase.wrote.inj hφ, hφ', hfresh, hjobs⟩⟩
  | read hφ => cases hφ
  | clock job hφ => cases hφ
  | random job now hφ => cases hφ
  | write job now rand fields hφ => cases hφ

variable (cron) in
/-- A report makes of a retried job what it makes of the job before. -/
theorem report_retried {job : Job} {x : Readings}
    (hlive : (report.record job x).state.terminal = false) (other : Report) :
    other.outcome (report.record job x) = other.outcome job ∧
      other.fields (report.record job x) = other.fields job ∧
      other.successor cron (report.record job x) = other.successor cron job := by
  have hretrying : report.outcome job = .retrying := by
    rcases outcome_terminal_or report job with hterminal | hretrying
    · exact absurd (hlive.symm.trans hterminal) Bool.false_ne_true
    · exact hretrying
  have hjob : job.state ≠ .cancelRequested := by
    intro hcancel
    have hcancelled : report.outcome job = .cancelled := if_pos (Or.inr hcancel)
    rw [hcancelled] at hretrying
    cases hretrying
  have hrecord : (report.record job x).state ≠ .cancelRequested := by
    rw [record_state, hretrying]
    exact JobState.noConfusion
  have houtcome : other.outcome (report.record job x) = other.outcome job := by
    simp only [Report.outcome, hjob, hrecord]
    rfl
  have herror : other.lastError (report.record job x) = other.lastError job := by
    simp only [Report.lastError, ne_eq, hjob, hrecord]
  refine ⟨houtcome, ?_, ?_⟩
  · funext now rand
    simp only [Report.fields, houtcome, herror]
    rfl
  · funext now
    simp only [Report.successor, houtcome]
    rfl

end Threads

end Chronos.ConcurrentResults
