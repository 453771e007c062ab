import Chronos.Operations
import Chronos.SchedulerRuns

namespace Chronos.Redelivery

open Chronos.Domain
open Chronos.Library.CallProgram
open Chronos.Library.CallMachine
open Chronos.Library.KeyedTable
open Chronos.MemoryStore
open Chronos.Operations
open Chronos.SchedulerCalls
open Chronos.SchedulerRuns
open Chronos.SchedulerService
open Chronos.SharedState
open Relation

/-- A delivery leaves its message on the queue, so that every message can be
delivered again at any time. -/
def Enabled (w : World) : Task → Prop
  | .handleQueuedJob message => message ∈ w.queue.items
  | .handleResult _ _ _ _ _ | .promoteDueJobs => True
  | _ => False

instance (w : World) (task : Task) : Decidable (Enabled w task) := by
  cases task <;> dsimp only [Enabled] <;> infer_instance

section

variable (cron : Cron) (cfg : SchedulerConfig)

def Step (task : Task) (start : Time) (w w' : World) : Prop :=
  Enabled w task ∧ Performs cron cfg (steady fun now => start ≤ now) task w w'

def Reaches (P : Task → Time → World → Prop) : World → World → Prop :=
  ReflTransGen fun w w' => ∃ task start, Step cron cfg task start w w' ∧ P task start w

end

/-- The message of a delivery is not older than its job, and a job waiting for a
retry is not delivered before its time. -/
def Timely (task : Task) (start : Time) (w : World) : Prop :=
  match task with
  | .handleQueuedJob message =>
      ∀ job ∈ w.store.jobs.get? message.jobID, job.state.queueable →
        job.attempt ≤ message.attempt ∧
          (job.state = .retrying → ∀ due ∈ job.nextRetryAt, due ≤ start)
  | _ => True

instance (task : Task) (start : Time) (w : World) : Decidable (Timely task start w) := by
  cases task <;> dsimp only [Timely] <;> infer_instance

def Created (w w' : World) (ex : JobExecution) : Prop :=
  w.store.executions.get? ex.id = none ∧ w'.store.executions.get? ex.id = some ex

/-- The operation creates at most one execution, with an attempt above those of
all earlier executions of the job and not before the job's retry is due. -/
structure Harmless (w w' : World) : Prop where
  single : ∀ {ex ex'}, Created w w' ex → Created w w' ex' → ex = ex'
  increasing : ∀ {ex old}, Created w w' ex → w.store.executions.get? old.id = some old →
    old.jobID = ex.jobID → old.attempt < ex.attempt
  notEarly : ∀ {ex job due}, Created w w' ex → w.store.jobs.get? ex.jobID = some job →
    job.state = .retrying → job.nextRetryAt = some due → due ≤ ex.createdAt
  kept : ∀ {old}, w.store.executions.get? old.id = some old → ∃ ex,
    w'.store.executions.get? old.id = some ex ∧ ex.jobID = old.jobID ∧
      ex.attempt = old.attempt

def Bounded (w : World) : Prop :=
  ∀ id ex, w.store.executions.get? id = some ex →
    ∃ job, w.store.jobs.get? ex.jobID = some job ∧ ex.attempt ≤ job.attempt

def keepsAttempts : Call → Prop
  | .createExecution _ => False
  | .updateJobStateIf _ _ fields _ => fields.attempt = none
  | .createJob job => job.id = ""
  | _ => True

/-- No execution is new, and jobs and executions have their attempts. -/
structure Carries (w w' : World) : Prop where
  jobs : ∀ {id job}, w.store.jobs.get? id = some job →
    ∃ job', w'.store.jobs.get? id = some job' ∧ job'.attempt = job.attempt
  executions : w.store.executions.Evolves
    (fun ex ex' => ex'.jobID = ex.jobID ∧ ex'.attempt = ex.attempt) w'.store.executions

theorem carries_refl (w : World) : Carries w w where
  jobs := fun {_ job} hjob => ⟨job, hjob, rfl⟩
  executions := evolves_refl _ _

theorem carries_step {start : Time} {w w₁ : World} {c : Call} {d : Draw}
    (hc : keepsAttempts c) (hdraw : (steady fun now => start ≤ now).Allowed w₁ c d)
    (h : Carries w w₁) : Carries w (step c w₁ d).2 where
  jobs := by
    intro id job hjob
    obtain ⟨job₁, hjob₁, hattempt⟩ := h.jobs hjob
    rcases step_jobs c w₁ d with hsame | ⟨child, rfl, hput⟩ |
      ⟨id', state, fields, onlyFrom, old, rfl, hold, -, hput⟩
    · rw [hsame]
      exact ⟨job₁, hjob₁, hattempt⟩
    · have hkey : (stampJob child d.uuid d.now).id = d.uuid := if_pos hc
      have hne : id ≠ d.uuid := by
        rintro rfl
        exact (hdraw.1 hc).2.2.1 (mem_keys.mpr ⟨job₁, hjob₁⟩)
      rw [hput, get?_put_of_ne _ (by rwa [hkey])]
      exact ⟨job₁, hjob₁, hattempt⟩
    · rw [hput, get?_put, applyUpdate_id, key_of_get? hold]
      split
      · rename_i heq
        subst heq
        obtain rfl := Option.some.inj (hold.symm.trans hjob₁)
        have hfield : fields.attempt = none := hc
        exact ⟨_, rfl, by rw [applyUpdate_attempt, hfield]; exact hattempt⟩
      · exact ⟨job₁, hjob₁, hattempt⟩
  executions := by
    rcases step_executions c w₁ d with hsame | ⟨ex, rfl, -⟩ |
      ⟨id, state, result, ex, ex', rfl, hex, ⟨hid, hsame⟩, hput⟩
    · rw [hsame]
      exact h.executions
    · exact hc.elim
    · rw [hput]
      refine evolves_trans ?_ h.executions (evolves_put (a := ex) ?_ hsame)
      · exact fun _ _ _ hab hbc => ⟨hbc.1.trans hab.1, hbc.2.trans hab.2⟩
      · rwa [hid, key_of_get? hex]

theorem keepsAttempts_of_resultCall {jobID : String} {c : Call} (hc : resultCall jobID c) :
    keepsAttempts c := by
  cases c with
  | updateJobStateIf id state fields onlyFrom => exact hc.2.2.1
  | createJob job => exact hc.1
  | createExecution ex => exact hc.elim
  | _ => trivial

theorem keepsAttempts_of_promoteCall {c : Call} (hc : promoteCall c) : keepsAttempts c := by
  cases c with
  | updateJobStateIf id state fields onlyFrom => exact hc.2.1
  | createJob job => exact hc.elim
  | createExecution ex => exact hc.elim
  | _ => trivial

theorem ensures_carries {α : Type} {start : Time} {p : Prog α}
    (hp : p.CallsOnly keepsAttempts) (w : World) :
    (steady fun now => start ≤ now).Ensures p w fun _ w' => Carries w w' :=
  ensures_of_calls (fun _ _ _ hc hdraw h => carries_step hc hdraw h) hp (carries_refl w)

theorem step_cases {cron : Cron} {cfg : SchedulerConfig} {task : Task} {start : Time}
    {w w' : World} (hstep : Step cron cfg task start w w') :
    Carries w w' ∨ ∃ message job job' ex, task = .handleQueuedJob message ∧
      Dispatch message w w' job job' ex ∧ start ≤ ex.createdAt := by
  obtain ⟨henabled, ds, outcome, hrun⟩ := hstep
  cases task with
  | handleQueuedJob message =>
      rcases ensures_return (handleQueuedJob_ensures message w) ds outcome w' hrun with
        ⟨hjobs, hexecutions⟩ | ⟨job, job', ex, hdispatch, hclock⟩
      · refine Or.inl ⟨?_, ?_⟩
        · rw [hjobs]
          exact (carries_refl w).jobs
        · rw [hexecutions]
          exact evolves_refl _ _
      · exact Or.inr ⟨message, job, job', ex, rfl, hdispatch, hclock⟩
  | handleResult jobID executionID workerID attempt result =>
      refine Or.inl (ensures_return (ensures_carries ?_ w) ds outcome w' hrun)
      exact callsOnly_mono (handleResult_calls cron jobID executionID workerID attempt result)
        fun _ => keepsAttempts_of_resultCall
  | promoteDueJobs =>
      refine Or.inl (ensures_return (ensures_carries ?_ w) ds outcome w' hrun)
      exact callsOnly_mono (promoteDueJobs_calls cfg) fun _ => keepsAttempts_of_promoteCall
  | _ => exact henabled.elim

theorem bounded_of_carries {w w' : World} (hbounded : Bounded w) (h : Carries w w') :
    Bounded w' := by
  intro id ex' hex'
  have hstored : ∃ ex, w.store.executions.get? id = some ex := by
    rw [← Option.isSome_iff_exists, Option.isSome_iff_ne_none]
    intro hnone
    simp [h.executions.absent hnone] at hex'
  obtain ⟨ex, hex⟩ := hstored
  obtain ⟨_, hkept, hsame⟩ := h.executions.kept hex
  obtain rfl := Option.some.inj (hkept.symm.trans hex')
  obtain ⟨job, hjob, hle⟩ := hbounded id ex hex
  obtain ⟨job', hjob', hattempt⟩ := h.jobs hjob
  rcases hsame with rfl | ⟨hjobID, hexAttempt⟩
  · exact ⟨job', hjob', hattempt ▸ hle⟩
  · refine ⟨job', hjobID ▸ hjob', ?_⟩
    rw [hexAttempt, hattempt]
    exact hle

theorem harmless_of_carries {w w' : World} (h : Carries w w') : Harmless w w' := by
  have hnone : ∀ {ex}, ¬ Created w w' ex := by
    rintro ex ⟨hnone, hsome⟩
    simp [h.executions.absent hnone] at hsome
  refine ⟨fun hex => absurd hex hnone, fun hex => absurd hex hnone,
    fun hex => absurd hex hnone, fun {old} hold => ?_⟩
  obtain ⟨ex, hex, rfl | hsame⟩ := h.executions.kept hold
  · exact ⟨ex, hex, rfl, rfl⟩
  · exact ⟨ex, hex, hsame⟩

section Dispatched

variable {message : QueuedJob} {w w' : World} {job job' : Job} {ex : JobExecution}

theorem created_of_dispatch (h : Dispatch message w w' job job' ex) {new : JobExecution}
    (hnew : Created w w' new) : new = ex := by
  obtain ⟨hnone, hsome⟩ := hnew
  rw [h.executions, get?_put] at hsome
  split at hsome
  · exact (Option.some.inj hsome).symm
  · simp [hnone] at hsome

theorem bounded_of_dispatch (hbounded : Bounded w) (h : Dispatch message w w' job job' ex)
    (hmessage : job.attempt ≤ message.attempt) : Bounded w' := by
  have hjobID : job'.id = message.jobID := h.id.trans (key_of_get? h.stored)
  have hjob' : w'.store.jobs.get? message.jobID = some job' := by
    rw [h.jobs, ← hjobID]
    exact get?_put_self _ _
  intro id stored hstored
  rw [h.executions, get?_put] at hstored
  split at hstored
  · obtain rfl := Option.some.inj hstored
    refine ⟨job', h.exJobID ▸ hjob', ?_⟩
    rw [h.exAttempt, h.attempt]
  · obtain ⟨owner, howner, hle⟩ := hbounded id stored hstored
    by_cases hsame : stored.jobID = message.jobID
    · rw [hsame, h.stored, Option.some.injEq] at howner
      subst howner
      refine ⟨job', hsame ▸ hjob', ?_⟩
      rw [h.attempt]
      omega
    · refine ⟨owner, ?_, hle⟩
      rw [h.jobs, get?_put_of_ne _ (by rwa [hjobID])]
      exact howner

theorem harmless_of_dispatch (hbounded : Bounded w) (h : Dispatch message w w' job job' ex)
    (hmessage : job.attempt ≤ message.attempt)
    (hdue : job.state = .retrying → ∀ due, job.nextRetryAt = some due → due ≤ ex.createdAt) :
    Harmless w w' where
  single := fun hnew hnew' => by rw [created_of_dispatch h hnew, created_of_dispatch h hnew']
  increasing := by
    intro new old hnew hold hsame
    obtain rfl := created_of_dispatch h hnew
    obtain ⟨owner, howner, hle⟩ := hbounded old.id old hold
    rw [hsame, h.exJobID, h.stored, Option.some.injEq] at howner
    subst howner
    rw [h.exAttempt]
    omega
  notEarly := by
    intro new owner due hnew howner hretrying hnext
    obtain rfl := created_of_dispatch h hnew
    rw [h.exJobID, h.stored, Option.some.injEq] at howner
    subst howner
    exact hdue hretrying due hnext
  kept := by
    intro old hold
    have hne : old.id ≠ ex.id := by
      intro heq
      exact h.fresh.2.2.2 (mem_keys.mpr ⟨old, heq ▸ hold⟩)
    refine ⟨old, ?_, rfl, rfl⟩
    rw [h.executions, get?_put_of_ne _ hne, hold]

end Dispatched

theorem timely_step {cron : Cron} {cfg : SchedulerConfig} {task : Task} {start : Time}
    {w w' : World} (hbounded : Bounded w) (hstep : Step cron cfg task start w w')
    (htimely : Timely task start w) : Bounded w' ∧ Harmless w w' := by
  rcases step_cases hstep with hcarries | ⟨message, job, job', ex, rfl, hdispatch, hclock⟩
  · exact ⟨bounded_of_carries hbounded hcarries, harmless_of_carries hcarries⟩
  · obtain ⟨hmessage, hdue⟩ := htimely job hdispatch.stored hdispatch.queueable
    refine ⟨bounded_of_dispatch hbounded hdispatch hmessage,
      harmless_of_dispatch hbounded hdispatch hmessage fun hretrying due hnext => ?_⟩
    exact (hdue hretrying due hnext).trans hclock

theorem bounded_of_reaches {cron : Cron} {cfg : SchedulerConfig} {w₀ w : World}
    (hempty : w₀.store.executions = .empty) (hrun : Reaches cron cfg Timely w₀ w) :
    Bounded w := by
  induction hrun with
  | refl =>
      intro id ex hex
      simp [hempty] at hex
  | tail _ hlast ih =>
      obtain ⟨task, start, hstep, htimely⟩ := hlast
      exact (timely_step ih hstep htimely).1

/-- In every run of timely deliveries, results and promotions, from a store that
has no executions yet, every operation is harmless. -/
theorem timely_deliveries_harmless (cron : Cron) (cfg : SchedulerConfig) {w₀ w w' : World}
    {task : Task} {start : Time} (hempty : w₀.store.executions = .empty)
    (hrun : Reaches cron cfg Timely w₀ w) (hstep : Step cron cfg task start w w')
    (htimely : Timely task start w) : Harmless w w' :=
  (timely_step (bounded_of_reaches hempty hrun) hstep htimely).2

def operate (task : Task) (start : Time) (ds : List Draw) (w : World) : Option World :=
  if Enabled w task then
    perform utcOnly smallConfig (steady fun now => start ≤ now) task ds w
  else none

theorem step_of_get {task : Task} {start : Time} {ds : List Draw} {w : World}
    (hoperate : (operate task start ds w).isSome) :
    Step utcOnly smallConfig task start w ((operate task start ds w).get hoperate) := by
  unfold operate at hoperate ⊢
  split at hoperate
  · rename_i henabled
    simp only [if_pos henabled]
    exact ⟨henabled, performs_of_get _ _ _⟩
  · simp at hoperate

def failedOnce : Task :=
  .handleResult "job" "first" "worker" 1 { success := false, retryable := true, error := "boom" }

/-- The job fails and waits for its retry.  The message delivered once more gives
it a second execution with the same attempt, at a time when the retry is not due. -/
theorem redelivered_message_repeats_attempt :
    ∃ w₀ w₁ w₂ w₃ : World,
      Performs utcOnly smallConfig memory (.createJob (some echoRequest)) idleWorker w₀ ∧
      Step utcOnly smallConfig (.handleQueuedJob echoMessage) 2 w₀ w₁ ∧
      Step utcOnly smallConfig failedOnce 3 w₁ w₂ ∧
      (w₂.store.jobs.get? "job").map (fun job => (job.state, job.nextRetryAt)) =
        some (.retrying, some (3 + second)) ∧
      Step utcOnly smallConfig (.handleQueuedJob echoMessage) 4 w₂ w₃ ∧
      (w₂.store.executions.get? "first").map (fun ex => (ex.jobID, ex.attempt)) =
        some ("job", 1) ∧
      w₂.store.executions.get? "second" = none ∧
      (w₃.store.executions.get? "second").map
        (fun ex => (ex.jobID, ex.attempt, ex.createdAt)) = some ("job", 1, 4) := by
  let w₀ := (perform utcOnly smallConfig memory (.createJob (some echoRequest))
    (createDraws 1 "job") idleWorker).get (by decide +kernel)
  let w₁ := (operate (.handleQueuedJob echoMessage) 2 (handleDraws 2 "first") w₀).get
    (by decide +kernel)
  let w₂ := (operate failedOnce 3 (sweepDraws 8 3) w₁).get (by decide +kernel)
  let w₃ := (operate (.handleQueuedJob echoMessage) 4 (handleDraws 4 "second") w₂).get
    (by decide +kernel)
  exact ⟨w₀, w₁, w₂, w₃, performs_of_get _ _ _, step_of_get _, step_of_get _,
    by decide +kernel, step_of_get _, by decide +kernel, by decide +kernel,
    by decide +kernel⟩

theorem retried_message_harmless :
    ∃ w₀ w w' : World, w₀.store.executions = .empty ∧
      Reaches utcOnly smallConfig Timely w₀ w ∧
      (w'.store.executions.get? "second").map JobExecution.attempt = some 2 ∧
      Harmless w w' := by
  let w₀ := oneWorker (echoJob .queued) [echoMessage]
  let w₁ := (operate (.handleQueuedJob echoMessage) 2 (handleDraws 2 "first") w₀).get
    (by decide +kernel)
  let w₂ := (operate failedOnce 3 (sweepDraws 8 3) w₁).get (by decide +kernel)
  let w₃ := (operate .promoteDueJobs (2 * second) (sweepDraws 6 (2 * second)) w₂).get
    (by decide +kernel)
  let message : QueuedJob := { echoMessage with attempt := 1, enqueuedAt := 2 * second }
  let w₄ := (operate (.handleQueuedJob message) (3 * second)
    (handleDraws (3 * second) "second") w₃).get (by decide +kernel)
  have hrun : Reaches utcOnly smallConfig Timely w₀ w₃ :=
    ((ReflTransGen.single ⟨_, _, step_of_get _, by decide +kernel⟩).tail
      ⟨_, _, step_of_get _, by decide +kernel⟩).tail ⟨_, _, step_of_get _, by decide +kernel⟩
  exact ⟨w₀, w₃, w₄, rfl, hrun, by decide +kernel,
    timely_deliveries_harmless utcOnly smallConfig rfl hrun (step_of_get _)
      (by decide +kernel)⟩

end Chronos.Redelivery
