import Chronos.ConcurrentResults
import Chronos.Library.Interleaving

namespace Chronos.ConcurrentResults

open Chronos.Domain
open Chronos.Library.CallProgram
open Chronos.Library.Interleaving
open Chronos.Library.KeyedTable
open Chronos.MemoryStore
open Chronos.ResultRecords
open Chronos.SharedState

section Stages

variable (cron : Cron) (jobID : String) (reports : Bool → Report) (w₀ : World)

/-- The record that both calls have written, `i` first. -/
def overwritten (i : Bool) (job : Job) (x y : Readings) : Job :=
  applyUpdate ((reports i).record job x) ((reports (!i)).outcome job)
    ((reports (!i)).fields job y.now y.rand) y.wroteAt

/-- How far the two calls have come: neither has written, `i` has, or both have, `i`
first.  `good` and `keeps` say whether all updates so far were harmless and kept a
COMPLETED. -/
inductive Stage (good keeps : Prop) (φ : Bool → Phase) (jobs : JobTable) : Prop
  | unwritten (hgood : good) (hkeeps : keeps) (hjobs : jobs = w₀.store.jobs)
      (hknows : ∀ i, ∃ x, Knows x (w₀.store.jobs.get? jobID) (φ i))
  | written (hgood : good) (hkeeps : keeps) (i : Bool) (job : Job) (x : Readings)
      (rest made : Option Job) (hjob : w₀.store.jobs.get? jobID = some job)
      (hlive : job.state.terminal = false) (hφ : φ i = .wrote rest)
      (hspawned : Spawned cron (reports i) w₀ job x rest made)
      (hjobs : jobs = addJob (w₀.store.jobs.put ((reports i).record job x)) made)
      (hother : ∃ y, Knows y (some job) (φ (!i)) ∨
        Knows y (some ((reports i).record job x)) (φ (!i)))
  | overwritten (i : Bool) (job : Job) (x y : Readings) (rest made rest' made' : Option Job)
      (hgood : good ↔ (((reports i).outcome job).terminal →
        Compatible cron job ((reports i).record job x) ((reports (!i)).outcome job)))
      (hkeeps : keeps ↔ ((reports i).outcome job = .completed →
        (reports (!i)).outcome job ≠ .retrying ∧ (reports (!i)).outcome job ≠ .timeout))
      (hjob : w₀.store.jobs.get? jobID = some job) (hlive : job.state.terminal = false)
      (hφ : φ i = .wrote rest) (hφ' : φ (!i) = .wrote rest')
      (hspawned : Spawned cron (reports i) w₀ job x rest made)
      (hspawned' : Spawned cron (reports (!i)) w₀ job y rest' made')
      (hjobs : jobs = addJob (addJob (w₀.store.jobs.put
        (overwritten reports i job x y)) made) made')
      (hdistinct : ∀ child ∈ made, ∀ child' ∈ made', child.id ≠ child'.id)

variable {cron jobID reports w₀} {good keeps : Prop} {φ : Bool → Phase} {φ' : Phase} {k : Bool}
  {w : World} {c : Call} {d : Draw}

theorem harmless_other (hc : updatesJob c = false) :
    HarmlessCall cron jobID reports w₀ w k c := by
  intro hupdates
  rw [hc] at hupdates
  cases hupdates

theorem keeps_same (hstate : (step c w d).2.jobState jobID = w.jobState jobID) :
    KeepsCall jobID w c d := by
  intro hcompleted
  rw [hstate, hcompleted]
  exact ⟨by simp, by simp⟩

theorem jobState_of_jobs {w w' : World} (hjobs : w'.store.jobs = w.store.jobs) (id : String) :
    w'.jobState id = w.jobState id := by
  rw [World.jobState, hjobs, World.jobState]

theorem addJob_some (t : JobTable) (made : Option Job) (child : Job)
    (hne : ∀ other ∈ made, other.id ≠ child.id) :
    (addJob t made).put child = addJob (t.put child) made := by
  cases made with
  | none => rfl
  | some other => exact put_comm (hne other rfl)

theorem update_other (φ : Bool → Phase) (k : Bool) (φ' : Phase) :
    Function.update φ k φ' (!k) = φ (!k) :=
  Function.update_of_ne (Bool.not_ne_self k) ..

theorem stage_unwritten (hjobs₀ : w.store.jobs = w₀.store.jobs)
    (hknows : ∀ i, ∃ x, Knows x (w₀.store.jobs.get? jobID) (φ i))
    (hadvance : Advance cron jobID (reports k) (φ k) φ' w d (step c w d).2.store.jobs c) :
    Stage cron jobID reports w₀ (HarmlessCall cron jobID reports w₀ w k c)
      (KeepsCall jobID w c d) (Function.update φ k φ') (step c w d).2.store.jobs := by
  obtain ⟨x, hx⟩ := hknows k
  rcases knows_advance hadvance hx with ⟨hsame, hc, x', hx'⟩ |
    ⟨job, hjob, hlive, -, rfl, hput⟩
  · refine .unwritten (harmless_other hc) (keeps_same (jobState_of_jobs hsame jobID))
      (hsame.trans hjobs₀) fun i => ?_
    by_cases hi : i = k
    · subst hi
      rw [hjobs₀] at hx'
      rw [Function.update_self]
      exact ⟨x', hx'.elim id id⟩
    · rw [Function.update_of_ne hi]
      exact hknows i
  · have hstored : w.store.jobs.get? jobID = some job := by rw [hjobs₀, hjob]
    refine .written ?_ ?_ k job { x with wroteAt := d.now } _ none hjob hlive
      (Function.update_self ..) .pending ?_ ?_
    · intro _ _ _ stored hstored' hterminal
      obtain rfl := Option.some.inj (hstored.symm.trans hstored')
      rw [hlive] at hterminal
      cases hterminal
    · intro hcompleted
      rw [World.jobState, hstored] at hcompleted
      rw [show job.state = .completed from Option.some.inj hcompleted] at hlive
      cases hlive
    · rw [hput job hstored, hjobs₀]
      rfl
    · obtain ⟨y, hy⟩ := hknows (!k)
      rw [hjob] at hy
      rw [update_other]
      exact ⟨y, Or.inl hy⟩

theorem spawned_fresh_all {report : Report} {job : Job} {x : Readings} {rest made : Option Job}
    (hspawned : Spawned cron report w₀ job x rest made) :
    ∀ child ∈ made, Fresh w₀ child.id := by
  rintro child rfl
  exact spawned_fresh hspawned

/-- The new job of a call does not touch the record of the job. -/
theorem keeps_spawn {job child : Job} (hjob : w.store.jobs.get? jobID = some job)
    (hfresh : Fresh w d.uuid) (hid : (stampJob child d.uuid d.now).id = d.uuid)
    (hput : (step c w d).2.store.jobs = w.store.jobs.put (stampJob child d.uuid d.now)) :
    KeepsCall jobID w c d := by
  apply keeps_same
  rw [World.jobState, hput, get?_put_of_ne, World.jobState]
  rw [hid]
  exact (fresh_ne hfresh hjob).symm

section Written

variable {job : Job} {x : Readings} {rest made : Option Job}

theorem stage_writer (hback : ∀ id, Fresh w id → Fresh w₀ id)
    (hjob : w₀.store.jobs.get? jobID = some job) (hlive : job.state.terminal = false)
    (hφ : φ k = .wrote rest) (hspawned : Spawned cron (reports k) w₀ job x rest made)
    (hjobs₀ : w.store.jobs = addJob (w₀.store.jobs.put ((reports k).record job x)) made)
    (hother : ∃ y, Knows y (some job) (φ (!k)) ∨
      Knows y (some ((reports k).record job x)) (φ (!k)))
    (hadvance : Advance cron jobID (reports k) (φ k) φ' w d (step c w d).2.store.jobs c) :
    Stage cron jobID reports w₀ (HarmlessCall cron jobID reports w₀ w k c)
      (KeepsCall jobID w c d) (Function.update φ k φ') (step c w d).2.store.jobs := by
  have hother' : ∃ y, Knows y (some job) (Function.update φ k φ' (!k)) ∨
      Knows y (some ((reports k).record job x)) (Function.update φ k φ' (!k)) := by
    rw [update_other]
    exact hother
  obtain ⟨hc, ⟨rfl, hsame⟩ | ⟨child, rfl, rfl, hfresh, hput⟩⟩ := wrote_advance hadvance hφ
  · exact .written (harmless_other hc) (keeps_same (jobState_of_jobs hsame jobID)) k job x rest
      made hjob hlive (Function.update_self ..) hspawned (hsame.trans hjobs₀) hother'
  · obtain ⟨hchild, rfl⟩ := spawned_pending hspawned
    have hstored : w.store.jobs.get? jobID = some ((reports k).record job x) := by
      rw [hjobs₀]
      exact get?_written hjob rfl (spawned_fresh_all hspawned)
    refine .written (harmless_other hc)
      (keeps_spawn hstored hfresh (stamp_successor hchild _ _) hput) k job
      { x with uuid := d.uuid, createdAt := d.now } none _ hjob hlive (Function.update_self ..)
      (.created hchild (hback _ hfresh)) ?_ hother'
    rw [hput, hjobs₀]
    rfl

/-- What the second call can do while the first one has written. -/
theorem second_advance {i : Bool}
    (hstored : w.store.jobs.get? jobID = some ((reports i).record job x))
    (hother : ∃ y, Knows y (some job) (φ (!i)) ∨
      Knows y (some ((reports i).record job x)) (φ (!i)))
    (hadvance : Advance cron jobID (reports (!i)) (φ (!i)) φ' w d (step c w d).2.store.jobs c) :
    ((step c w d).2.store.jobs = w.store.jobs ∧ updatesJob c = false ∧
        ∃ y, Knows y (some job) φ' ∨ Knows y (some ((reports i).record job x)) φ') ∨
      ∃ y, updatesJob c ∧ φ' = .wrote ((reports (!i)).successor cron job y.now) ∧
        (step c w d).2.store.jobs = w.store.jobs.put (overwritten reports i job x y) := by
  obtain ⟨y, hy | hy⟩ := hother
  · rcases knows_advance hadvance hy with ⟨hsame, hc, y', hy'⟩ | ⟨job', hjob', -, hc, hφ', hput⟩
    · rw [hstored] at hy'
      exact Or.inl ⟨hsame, hc, y', hy'⟩
    · obtain rfl := Option.some.inj hjob'
      exact Or.inr ⟨{ y with wroteAt := d.now }, hc, hφ', hput _ hstored⟩
  · rcases knows_advance hadvance hy with
      ⟨hsame, hc, y', hy'⟩ | ⟨job', hjob', hretried, hc, hφ', hput⟩
    · rw [hstored, or_self] at hy'
      exact Or.inl ⟨hsame, hc, y', Or.inr hy'⟩
    · obtain rfl := Option.some.inj hjob'
      obtain ⟨houtcome, hfields, hsuccessor⟩ := report_retried cron hretried (reports (!i))
      rw [hsuccessor] at hφ'
      have hput := hput _ hstored
      rw [houtcome, hfields] at hput
      exact Or.inr ⟨{ y with wroteAt := d.now }, hc, hφ', hput⟩

theorem stage_second {i : Bool} (hjob : w₀.store.jobs.get? jobID = some job)
    (hlive : job.state.terminal = false) (hφ : φ i = .wrote rest)
    (hspawned : Spawned cron (reports i) w₀ job x rest made)
    (hjobs₀ : w.store.jobs = addJob (w₀.store.jobs.put ((reports i).record job x)) made)
    (hother : ∃ y, Knows y (some job) (φ (!i)) ∨
      Knows y (some ((reports i).record job x)) (φ (!i)))
    (hadvance : Advance cron jobID (reports (!i)) (φ (!i)) φ' w d (step c w d).2.store.jobs c) :
    Stage cron jobID reports w₀ (HarmlessCall cron jobID reports w₀ w (!i) c)
      (KeepsCall jobID w c d) (Function.update φ (!i) φ') (step c w d).2.store.jobs := by
  have hφ₀ : Function.update φ (!i) φ' i = .wrote rest := by
    rw [Function.update_of_ne (Bool.not_ne_self i).symm, hφ]
  have hfresh := spawned_fresh_all hspawned
  have hstored : w.store.jobs.get? jobID = some ((reports i).record job x) := by
    rw [hjobs₀]
    exact get?_written hjob rfl hfresh
  rcases second_advance hstored hother hadvance with ⟨hsame, hc, hother'⟩ | ⟨y, hc, rfl, hput⟩
  · refine .written (harmless_other hc) (keeps_same (jobState_of_jobs hsame jobID)) i job x rest
      made hjob hlive hφ₀ hspawned (hsame.trans hjobs₀) ?_
    rw [Function.update_self]
    exact hother'
  · have hnew : (overwritten reports i job x y).id = jobID := by
      rw [overwritten, applyUpdate_id, record_id, key_of_get? hjob]
    refine .overwritten i job x y rest made _ none ?_ ?_ hjob hlive hφ₀ (Function.update_self ..)
      hspawned .pending ?_ fun _ _ child hchild => absurd hchild.symm (Option.some_ne_none child)
    · constructor
      · intro hharmless hterminal
        exact hharmless hc job hjob _ hstored hterminal
      · intro hcompatible _ job' hjob' stored hstored' hterminal
        obtain rfl := Option.some.inj (hjob.symm.trans hjob')
        obtain rfl := Option.some.inj (hstored.symm.trans hstored')
        exact hcompatible hterminal
    · have hbefore : w.jobState jobID = some ((reports i).outcome job) := by
        rw [World.jobState, hstored]
        rfl
      have hafter : (step c w d).2.jobState jobID = some ((reports (!i)).outcome job) := by
        rw [World.jobState, hput, get?_put, if_pos hnew.symm]
        rfl
      rw [KeepsCall, hbefore, hafter]
      simp only [Option.some.injEq, ne_eq]
    · have hid : ((reports i).record job x).id = (overwritten reports i job x y).id := rfl
      rw [hput, hjobs₀, addJob_some _ _ _ fun child hchild => ?_]
      · rw [put_put hid]
        rfl
      · rw [hnew]
        exact fresh_ne (hfresh child hchild) hjob

/-- Both calls have written; a mover can only create the job it still has to create. -/
theorem stage_settled {i : Bool} {y : Readings} {rest' made' : Option Job}
    (hback : ∀ id, Fresh w id → Fresh w₀ id)
    (hgood : good ↔ (((reports i).outcome job).terminal →
      Compatible cron job ((reports i).record job x) ((reports (!i)).outcome job)))
    (hkeeps : keeps ↔ ((reports i).outcome job = .completed →
      (reports (!i)).outcome job ≠ .retrying ∧ (reports (!i)).outcome job ≠ .timeout))
    (hjob : w₀.store.jobs.get? jobID = some job) (hlive : job.state.terminal = false)
    (hφ : φ i = .wrote rest) (hφ' : φ (!i) = .wrote rest')
    (hspawned : Spawned cron (reports i) w₀ job x rest made)
    (hspawned' : Spawned cron (reports (!i)) w₀ job y rest' made')
    (hjobs₀ : w.store.jobs = addJob (addJob (w₀.store.jobs.put
      (overwritten reports i job x y)) made) made')
    (hdistinct : ∀ child ∈ made, ∀ child' ∈ made', child.id ≠ child'.id)
    (hadvance : Advance cron jobID (reports k) (φ k) φ' w d (step c w d).2.store.jobs c) :
    Stage cron jobID reports w₀ (good ∧ HarmlessCall cron jobID reports w₀ w k c)
      (keeps ∧ KeepsCall jobID w c d) (Function.update φ k φ') (step c w d).2.store.jobs := by
  have hstored : w.store.jobs.get? jobID = some (overwritten reports i job x y) := by
    rw [hjobs₀, get?_addJob fun child hchild =>
      fresh_ne (spawned_fresh_all hspawned' child hchild) hjob]
    exact get?_written hjob rfl (spawned_fresh_all hspawned)
  have hpresent : ∀ child, child ∈ made ∨ child ∈ made' → child.id ∈ w.store.jobs.keys := by
    rw [hjobs₀]
    rintro child (rfl | rfl)
    · cases made' with
      | none => exact mem_keys.mpr ⟨child, get?_put_self _ child⟩
      | some child' =>
          refine mem_keys.mpr ⟨child, ?_⟩
          rw [addJob, get?_put_of_ne _ (hdistinct child rfl child' rfl)]
          exact get?_put_self _ child
    · exact mem_keys.mpr ⟨child, get?_put_self _ child⟩
  have hnew : Fresh w d.uuid → ∀ child, child ∈ made ∨ child ∈ made' → child.id ≠ d.uuid :=
    fun hfresh child hchild heq => hfresh.2.2.1 (heq ▸ hpresent child hchild)
  have hgood' : updatesJob c = false → (good ∧ HarmlessCall cron jobID reports w₀ w k c ↔
      (((reports i).outcome job).terminal →
        Compatible cron job ((reports i).record job x) ((reports (!i)).outcome job))) :=
    fun hc => (and_iff_left (harmless_other hc)).trans hgood
  have hkeeps' : KeepsCall jobID w c d → (keeps ∧ KeepsCall jobID w c d ↔
      ((reports i).outcome job = .completed → (reports (!i)).outcome job ≠ .retrying ∧
        (reports (!i)).outcome job ≠ .timeout)) :=
    fun hcall => (and_iff_left hcall).trans hkeeps
  rcases Bool.eq_or_eq_not k i with rfl | rfl
  · have hφ₁ : Function.update φ k φ' (!k) = .wrote rest' := by rw [update_other, hφ']
    obtain ⟨hc, ⟨rfl, hsame⟩ | ⟨child, rfl, rfl, hfresh, hput⟩⟩ := wrote_advance hadvance hφ
    · exact .overwritten k job x y rest made rest' made' (hgood' hc)
        (hkeeps' (keeps_same (jobState_of_jobs hsame jobID))) hjob hlive
        (Function.update_self ..) hφ₁ hspawned hspawned' (hsame.trans hjobs₀) hdistinct
    · obtain ⟨hchild, rfl⟩ := spawned_pending hspawned
      have hid := stamp_successor hchild d.uuid d.now
      refine .overwritten k job { x with uuid := d.uuid, createdAt := d.now } y none _ rest' made'
        (hgood' hc) (hkeeps' (keeps_spawn hstored hfresh hid hput)) hjob hlive
        (Function.update_self ..) hφ₁ (.created hchild (hback _ hfresh)) hspawned' ?_ ?_
      · rw [hput, hjobs₀, addJob_some _ _ _ fun other hother => ?_]
        · rfl
        · rw [hid]
          exact hnew hfresh other (Or.inr hother)
      · rintro _ ⟨⟩ child' hchild'
        rw [hid]
        exact (hnew hfresh child' (Or.inr hchild')).symm
  · have hφ₀ : Function.update φ (!i) φ' i = .wrote rest := by
      rw [Function.update_of_ne (Bool.not_ne_self i).symm, hφ]
    obtain ⟨hc, ⟨rfl, hsame⟩ | ⟨child, rfl, rfl, hfresh, hput⟩⟩ := wrote_advance hadvance hφ'
    · exact .overwritten i job x y rest made rest' made' (hgood' hc)
        (hkeeps' (keeps_same (jobState_of_jobs hsame jobID))) hjob hlive hφ₀
        (Function.update_self ..) hspawned hspawned' (hsame.trans hjobs₀) hdistinct
    · obtain ⟨hchild, rfl⟩ := spawned_pending hspawned'
      have hid := stamp_successor hchild d.uuid d.now
      refine .overwritten i job x { y with uuid := d.uuid, createdAt := d.now } rest made none _
        (hgood' hc) (hkeeps' (keeps_spawn hstored hfresh hid hput)) hjob hlive hφ₀
        (Function.update_self ..) hspawned (.created hchild (hback _ hfresh)) ?_ ?_
      · rw [hput, hjobs₀]
        rfl
      · rintro other hother _ ⟨⟩
        rw [hid]
        exact hnew hfresh other (Or.inl hother)

end Written

theorem stage_and {G K : Prop} {jobs : JobTable} (hgood : good) (hkeeps : keeps)
    (hstage : Stage cron jobID reports w₀ G K φ jobs) :
    Stage cron jobID reports w₀ (good ∧ G) (keeps ∧ K) φ jobs := by
  rwa [and_iff_right hgood, and_iff_right hkeeps]

theorem stage_step (hback : ∀ id, Fresh w id → Fresh w₀ id)
    (hstage : Stage cron jobID reports w₀ good keeps φ w.store.jobs)
    (hadvance : Advance cron jobID (reports k) (φ k) φ' w d (step c w d).2.store.jobs c) :
    Stage cron jobID reports w₀ (good ∧ HarmlessCall cron jobID reports w₀ w k c)
      (keeps ∧ KeepsCall jobID w c d) (Function.update φ k φ') (step c w d).2.store.jobs := by
  cases hstage with
  | unwritten hgood hkeeps hjobs hknows =>
      exact stage_and hgood hkeeps (stage_unwritten hjobs hknows hadvance)
  | written hgood hkeeps i job x rest made hjob hlive hφ hspawned hjobs hother =>
      rcases Bool.eq_or_eq_not k i with rfl | rfl
      · exact stage_and hgood hkeeps
          (stage_writer hback hjob hlive hφ hspawned hjobs hother hadvance)
      · exact stage_and hgood hkeeps
          (stage_second hjob hlive hφ hspawned hjobs hother hadvance)
  | overwritten i job x y rest made rest' made' hgood hkeeps hjob hlive hφ hφ' hspawned
      hspawned' hjobs hdistinct =>
      exact stage_settled hback hgood hkeeps hjob hlive hφ hφ' hspawned hspawned' hjobs
        hdistinct hadvance

/-- The stage that a schedule of the two calls reaches. -/
theorem stage_of_interleave {executionID : String} {schedule : List (Bool × Draw)}
    {programs' : Bool → Prog (Except Err Unit)} {w' : World}
    (hrun : interleave memory (fun i => (reports i).handleResult cron jobID executionID) w₀
      schedule = some (programs', w')) :
    ∃ φ, (∀ i, (programs' i).Follows (settling cron jobID (reports i)) (fun φ _ => φ.Ended)
        (φ i)) ∧
      Stage cron jobID reports w₀
        (Throughout memory (Harmless cron jobID reports w₀)
          (fun i => (reports i).handleResult cron jobID executionID) w₀ schedule)
        (Throughout memory (KeepsCompleted jobID)
          (fun i => (reports i).handleResult cron jobID executionID) w₀ schedule)
        φ w'.store.jobs := by
  have hgeneral : ∀ (schedule : List (Bool × Draw)) {programs : Bool → Prog (Except Err Unit)}
      {w : World} {good keeps : Prop} {φ : Bool → Phase},
      interleave memory programs w schedule = some (programs', w') →
      (∀ i, (programs i).Follows (settling cron jobID (reports i)) (fun φ _ => φ.Ended) (φ i)) →
      (∀ id, Fresh w id → Fresh w₀ id) →
      Stage cron jobID reports w₀ good keeps φ w.store.jobs →
      ∃ φ', (∀ i, (programs' i).Follows (settling cron jobID (reports i))
          (fun φ _ => φ.Ended) (φ' i)) ∧
        Stage cron jobID reports w₀
          (good ∧ Throughout memory (Harmless cron jobID reports w₀) programs w schedule)
          (keeps ∧ Throughout memory (KeepsCompleted jobID) programs w schedule)
          φ' w'.store.jobs := by
    intro schedule
    induction schedule with
    | nil =>
        intro programs w good keeps φ hrun hfollows _ hstage
        obtain ⟨rfl, rfl⟩ := Prod.mk.inj (Option.some.inj hrun)
        refine ⟨φ, hfollows, ?_⟩
        simpa only [Throughout, and_true] using hstage
    | cons move schedule ih =>
        obtain ⟨k, d⟩ := move
        intro programs w good keeps φ hrun hfollows hback hstage
        obtain ⟨c, next, hcall, hallowed, hrest⟩ := interleave_cons hrun
        have hk := hfollows k
        rw [hcall] at hk
        have hmoved : ∀ i, (Function.update programs k (next (step c w d).1) i).Follows
            (settling cron jobID (reports i)) (fun φ _ => φ.Ended)
            (Function.update φ k
              ((settling cron jobID (reports k)).after (φ k) c (step c w d).1) i) := by
          intro i
          by_cases hi : i = k
          · subst hi
            rw [Function.update_self, Function.update_self]
            exact hk.2 _
          · rw [Function.update_of_ne hi, Function.update_of_ne hi]
            exact hfollows i
        obtain ⟨φ', hfollows', hstage'⟩ := ih hrest hmoved
          (fun id hfresh => hback id (fresh_of_step hfresh))
          (stage_step hback hstage (advance_of_admits hk.1 (steady_of_memory hallowed)))
        refine ⟨φ', hfollows', ?_⟩
        have hnext : ∀ P : Call → Prop, (∀ c' ∈ (programs k).next?, P c') ↔ P c := by
          intro P
          simp [hcall, Program.next?]
        rw [throughout_call hcall, throughout_call hcall, Harmless, KeepsCompleted, hnext,
          hnext, ← and_assoc, ← and_assoc]
        exact hstage'
  have hstart : Stage cron jobID reports w₀ True True (fun _ => .reading) w₀.store.jobs :=
    .unwritten trivial trivial rfl fun _ => ⟨default, trivial⟩
  obtain ⟨φ, hfollows, hstage⟩ := hgeneral schedule hrun
    (fun _ => handleResult_follows executionID) (fun _ hfresh => hfresh)
    hstart
  exact ⟨φ, hfollows, by simpa only [true_and] using hstage⟩

end Stages

end Chronos.ConcurrentResults
