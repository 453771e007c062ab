import Chronos.InformedRuns
import Chronos.ServiceSteps

namespace Chronos.RetryBudget

open Chronos.Domain
open Chronos.InformedRuns
open Chronos.JobWrites
open Chronos.Library.CallMachine
open Chronos.Library.KeyedTable
open Chronos.MemoryStore
open Chronos.Operations
open Chronos.SchedulerService
open Chronos.ServiceSteps (WorkersChange)
open Chronos.SharedState

variable {cron : Cron} {cfg : SchedulerConfig}

def pushAccepted : Call → Draw → Bool
  | .executeJob _ _, d => (pushOutcome d.reply).isOk
  | _, _ => true

/-- The operations over a store that does not fail and workers that accept every push. -/
def accepting : Machine Call Answer World Draw where
  step := step
  Allowed := fun w c d => (steady fun _ => True).Allowed w c d ∧ pushAccepted c d

instance (w : World) (c : Call) (d : Draw) : Decidable (accepting.Allowed w c d) :=
  inferInstanceAs (Decidable (_ ∧ _))

/-- A request carries no key, and a result is reported for the current execution of its
job.  Deliveries are steps of their own. -/
def Enabled (w : World) : Task → Prop
  | .createJob body => ∀ req ∈ body, req.idempotencyKey = ""
  | .handleQueuedJob _ => False
  | .handleResult jobID executionID workerID attempt _ =>
      ∃ job ∈ w.store.jobs.get? jobID, ∃ ex ∈ w.store.executions.get? job.executionID,
        executionID = ex.id ∧ workerID = ex.workerID ∧ attempt = ex.attempt
  | _ => True

instance (w : World) (task : Task) : Decidable (Enabled w task) :=
  match task with
  | .createJob _ => inferInstanceAs (Decidable (∀ _ ∈ _, _))
  | .handleQueuedJob _ => inferInstanceAs (Decidable False)
  | .handleResult _ _ _ _ _ => inferInstanceAs (Decidable (∃ _ ∈ _, ∃ _ ∈ _, _))
  | .cancelJob _ | .promoteDueJobs | .pushPendingCancels | .watchdogTimeouts | .checkWorkers =>
      inferInstanceAs (Decidable True)

variable (cron cfg) in
/-- One complete operation after another.  A delivery takes the head of the queue and puts
it back if the handler returns an error. -/
inductive Step : World → World → Prop
  | operation {task : Task} {w w' : World} (henabled : Enabled w task)
      (hrun : Performs cron cfg accepting task w w') : Step w w'
  | delivery {message : QueuedJob} {ds : List Draw} {outcome : Outcome} {w w' : World}
      (requeue : Draw) (htake : w.queue.take.1 = some message)
      (hrun : accepting.Runs (Task.body cron cfg (.handleQueuedJob message))
        { w with queue := w.queue.take.2 } ds outcome w') :
      Step w (finishTask (.handleQueuedJob message) outcome requeue w')
  | workers {w w' : World} (hchange : WorkersChange w w') : Step w w'

/-- The execution stored under the id belongs to the job and has the given attempt. -/
def HasAttempt (s : Store) (executionID jobID : String) (attempt : Int) : Prop :=
  ∃ ex, s.executions.get? executionID = some ex ∧ ex.jobID = jobID ∧ ex.attempt = attempt

/-- The executions of the job carry the attempts from 1 to the stored one, each of them
once, and there are no more than the budget allows. -/
structure Numbered (s : Store) (id : String) (job : Job) : Prop where
  nonneg : 0 ≤ job.attempt
  budget : job.attempt ≤ max 1 job.maxAttempts
  attempts : ∀ attempt, (∃ executionID, HasAttempt s executionID id attempt) ↔
    1 ≤ attempt ∧ attempt ≤ job.attempt
  once : ∀ {executionID executionID' attempt}, HasAttempt s executionID id attempt →
    HasAttempt s executionID' id attempt → executionID = executionID'

structure Within (s : Store) (id : String) (job : Job) : Prop extends Numbered s id job where
  waiting : job.state.queueable →
    job.executionID = "" ∧ (job.attempt = 0 ∨ job.attempt < job.maxAttempts)
  current : job.executionID = "" ∨ HasAttempt s job.executionID id job.attempt

/-- Between operations a message stands for a QUEUED job at the attempt it has, or for a
CANCELLED one.  Within a hand-off the job of the message just enqueued is `pending`. -/
structure Budget (pending : Option String) (w : World) : Prop where
  jobs : ∀ {id job}, w.store.jobs.get? id = some job → Within w.store id job
  owned : ∀ {executionID id attempt}, HasAttempt w.store executionID id attempt →
    executionID ≠ "" ∧ ∃ job, w.store.jobs.get? id = some job
  messages : ∀ message ∈ w.queue.items, ∃ job, w.store.jobs.get? message.jobID = some job ∧
    (job.state = .cancelled ∨ message.attempt = job.attempt ∧
      (job.state = .queued ∨ pending = some message.jobID))
  distinct : (w.queue.items.map QueuedJob.jobID).Nodup

theorem hasAttempt_step {c : Call} (hc : ∀ ex, c ≠ .createExecution ex) (w : World) (d : Draw)
    {executionID jobID : String} {attempt : Int} :
    HasAttempt (step c w d).2.store executionID jobID attempt ↔
      HasAttempt w.store executionID jobID attempt := by
  unfold HasAttempt
  rcases step_executions c w d with hsame | ⟨ex, rfl, -⟩ |
    ⟨id, state, result, ex, ex', rfl, hex, ⟨hid, hjobID, hattempt⟩, hput⟩
  · rw [hsame]
  · exact absurd rfl (hc ex)
  · rw [hput, get?_put]
    split
    · rename_i heq
      rw [heq, hid, key_of_get? hex, hex]
      simp [hjobID, hattempt]
    · exact Iff.rfl

theorem within_congr {s s' : Store} {id : String} {job : Job}
    (hsame : ∀ {executionID attempt}, HasAttempt s' executionID id attempt ↔
      HasAttempt s executionID id attempt) (h : Within s id job) : Within s' id job where
  nonneg := h.nonneg
  budget := h.budget
  attempts := fun attempt => (exists_congr fun _ => hsame).trans (h.attempts attempt)
  once := fun hleft hright => h.once (hsame.mp hleft) (hsame.mp hright)
  waiting := h.waiting
  current := h.current.imp_right hsame.mpr

theorem within_update {s : Store} {id : String} {job : Job} {state : JobState}
    {fields : Fields} {now : Time} (h : Within s id job) (hfields : KeepsExecution fields)
    (hwaits : state.queueable → job.state.queueable ∨
      fields.executionID = some "" ∧ job.attempt < job.maxAttempts) :
    Within s id (applyUpdate job state fields now) := by
  have hattempt : (applyUpdate job state fields now).attempt = job.attempt := by
    rw [applyUpdate_attempt, hfields.attempt, Option.getD_none]
  have hexecution : (applyUpdate job state fields now).executionID = "" ∨
      (applyUpdate job state fields now).executionID = job.executionID := by
    rcases hfields.execution with ⟨-, hnone⟩ | hcleared
    · exact Or.inr (by rw [applyUpdate, hnone, Option.getD_none])
    · exact Or.inl (by rw [applyUpdate, hcleared, Option.getD_some])
  refine ⟨⟨?_, ?_, ?_, h.once⟩, fun hqueueable => ?_, ?_⟩
  · rw [hattempt]
    exact h.nonneg
  · rw [hattempt]
    exact h.budget
  · rw [hattempt]
    exact h.attempts
  · rw [hattempt]
    rcases hwaits hqueueable with hold | ⟨hcleared, hless⟩
    · obtain ⟨hnone, hbudget⟩ := h.waiting hold
      exact ⟨hexecution.elim (fun hempty => hempty) fun hsame => hsame.trans hnone, hbudget⟩
    · exact ⟨by rw [applyUpdate, hcleared, Option.getD_some], Or.inr hless⟩
  · rw [hattempt]
    rcases hexecution with hnone | hsame
    · exact Or.inl hnone
    · rw [hsame]
      exact h.current

/-- What an operation relies on beside the budget: it handles no message, carries no key,
and reports the attempt the job has. -/
def Reported (w : World) : Task → Prop
  | .createJob body => ∀ req ∈ body, req.idempotencyKey = ""
  | .handleQueuedJob _ => False
  | .handleResult jobID _ _ attempt _ => ∃ job, w.store.jobs.get? jobID = some job ∧
      job.attempt = attempt ∧ job.state ≠ .queued
  | _ => True

theorem reported_of_enabled {task : Task} {w : World} (hbudget : Budget none w)
    (henabled : Enabled w task) : Reported w task := by
  cases task with
  | handleResult jobID executionID workerID attempt result =>
      obtain ⟨job, hjob, ex, hex, -, -, rfl⟩ := henabled
      have hwithin := hbudget.jobs hjob
      have hnamed : job.executionID ≠ "" := (hbudget.owned ⟨ex, hex, rfl, rfl⟩).1
      refine ⟨job, hjob, ?_, fun hqueued => hnamed (hwithin.waiting (by rw [hqueued]; rfl)).1⟩
      obtain ⟨found, hfound, -, hattempt⟩ := hwithin.current.resolve_left hnamed
      obtain rfl := Option.some.inj (hex.symm.trans hfound)
      exact hattempt.symm
  | _ => exact henabled

/-- The invariant of a running operation, at the phase it has reached. -/
structure Running (task : Task) (phase : Told × Option String) (w : World) : Prop where
  holds : Holds phase.1 w
  budget : Budget phase.2 w
  created : ∀ id ∈ phase.1.created, ∃ job, w.store.jobs.get? id = some job ∧
    job.state = .scheduled
  reported : Reported w task

theorem settles_within {job : Job} {result : ExecutionResult} {state : JobState}
    {fields : Fields} (hsettles : Settles job job.attempt result state fields)
    (hjob : job.state ≠ .queued) :
    (state.queueable → fields.executionID = some "" ∧ job.attempt < job.maxAttempts) ∧
      (state = .cancelled ∨ job.state ≠ .queued ∧ job.state ≠ .cancelled) := by
  obtain ⟨hlive, -, hmatch⟩ := hsettles
  refine ⟨fun hqueueable => ?_, Or.inr ⟨hjob, fun hcancelled => ?_⟩⟩
  · rcases queueable_iff.mp hqueueable with rfl | rfl | rfl
    · exact hmatch.elim
    · exact hmatch.elim
    · exact ⟨hmatch.2.2, hmatch.2.1⟩
  · rw [hcancelled] at hlive
    cases hlive

/-- A write that does not hand the job over leaves it waiting only within the budget, and
leaves the message of a QUEUED job alone unless it cancels the job. -/
theorem writes_within {task : Task} {w : World} {id : String} {job : Job} {state : JobState}
    {fields : Fields} {onlyFrom : List JobState} (hreported : Reported w task)
    (hjob : w.store.jobs.get? id = some job) (hstate : state ≠ .queued)
    (hwrites : Writes task id job state fields onlyFrom) :
    (state.queueable → fields.executionID = some "" ∧ job.attempt < job.maxAttempts) ∧
      (state = .cancelled ∨ job.state ≠ .queued ∧ job.state ≠ .cancelled) := by
  cases task with
  | createJob body => exact absurd hwrites.1 hstate
  | promoteDueJobs => exact absurd hwrites.1 hstate
  | handleQueuedJob message => exact hreported.elim
  | cancelJob target =>
      obtain ⟨-, -, -, -, hmatch⟩ := hwrites
      split at hmatch
      · rename_i hrunning
        subst hmatch
        refine ⟨fun h => absurd h Bool.false_ne_true, Or.inr ?_⟩
        rcases hrunning with h | h <;> rw [h] <;> exact ⟨JobState.noConfusion, JobState.noConfusion⟩
      · subst hmatch
        exact ⟨fun h => absurd h Bool.false_ne_true, Or.inl rfl⟩
  | pushPendingCancels =>
      obtain ⟨-, rfl, -, -⟩ := hwrites
      exact ⟨fun h => absurd h Bool.false_ne_true, Or.inl rfl⟩
  | handleResult jobID executionID workerID attempt result =>
      obtain ⟨rfl, -, hsettles⟩ := hwrites
      obtain ⟨found, hfound, rfl, hqueued⟩ := hreported
      obtain rfl := Option.some.inj (hjob.symm.trans hfound)
      exact settles_within hsettles hqueued
  | watchdogTimeouts =>
      obtain ⟨hstates, -, hsettles⟩ := hwrites
      refine settles_within hsettles ?_
      rcases hstates with h | h <;> rw [h] <;> exact JobState.noConfusion
  | checkWorkers =>
      obtain ⟨hstates, -, hsettles⟩ := hwrites
      refine settles_within hsettles ?_
      rcases hstates with h | h | h <;> rw [h] <;> exact JobState.noConfusion

theorem keepsExecution_of_writes {task : Task} {w : World} {id : String} {job : Job}
    {state : JobState} {fields : Fields} {onlyFrom : List JobState}
    (hreported : Reported w task) (hwrites : Writes task id job state fields onlyFrom) :
    KeepsExecution fields := by
  cases task with
  | createJob body => exact hwrites.2.1
  | handleQueuedJob message => exact hreported.elim
  | cancelJob target => exact hwrites.2.2.1
  | promoteDueJobs => exact hwrites.2.2.1
  | pushPendingCancels => exact hwrites.2.2.1
  | _ => exact hwrites.2.2.2.1

end Chronos.RetryBudget
