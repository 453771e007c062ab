import Chronos.Library.Histories
import Chronos.RetryBudget.Delivery

namespace Chronos.JobLife

open Chronos.ApiServer (cancelRefused)
open Chronos.Domain
open Chronos.InformedRuns
open Chronos.JobWrites
open Chronos.Library.CallProgram
open Chronos.Library.CallMachine
open Chronos.Library.Histories
open Chronos.Library.KeyedTable
open Chronos.MemoryStore
open Chronos.Operations
open Chronos.QueueHandoff (handoff)
open Chronos.RetryBudget
open Chronos.SchedulerRuns
open Chronos.SchedulerService
open Chronos.SharedState

variable {cron : Cron} {cfg : SchedulerConfig}

def status (job : Job) : JobState × Int := (job.state, job.attempt)

def attemptsLeft (job : Job) : Nat := (max 1 job.maxAttempts - job.attempt).toNat

/-- The changes of state that a job still has before it.  A FAILED job and one that has timed out
can be cancelled once more. -/
def changesLeft (job : Job) : Nat :=
  match job.state with
  | .completed | .cancelled | .expired => 0
  | .failed | .timeout | .cancelRequested => 1
  | .queued => 3 * attemptsLeft job
  | .scheduled | .retrying => 3 * attemptsLeft job + 1
  | .created | .assigned | .running => 3 * attemptsLeft job + 2

/-- What operations make of the record of an id. -/
inductive Ages : Option Job → Option Job → Prop
  | absent : Ages none none
  | created {job : Job} (hleft : changesLeft job ≤ 3 * (max 1 job.maxAttempts).toNat + 1) :
      Ages none (some job)
  | same {job job' : Job} (hlimit : job'.maxAttempts = job.maxAttempts)
      (hstatus : status job' = status job) : Ages (some job) (some job')
  | older {job job' : Job} (hlimit : job'.maxAttempts = job.maxAttempts)
      (hleft : changesLeft job' < changesLeft job) : Ages (some job) (some job')

theorem ages_refl : (record : Option Job) → Ages record record
  | none => .absent
  | some _ => .same rfl rfl

theorem changesLeft_of_status {job job' : Job} (hlimit : job'.maxAttempts = job.maxAttempts)
    (hstatus : status job' = status job) : changesLeft job' = changesLeft job := by
  obtain ⟨hstate, hattempt⟩ := Prod.mk.inj hstatus
  simp only [changesLeft, attemptsLeft, hstate, hattempt, hlimit]

theorem ages_trans {a b c : Option Job} (h : Ages a b) (h' : Ages b c) : Ages a c := by
  cases h with
  | absent => exact h'
  | created hleft =>
      cases h' with
      | same hlimit hstatus =>
          refine .created ?_
          rwa [changesLeft_of_status hlimit hstatus, hlimit]
      | older hlimit hless =>
          refine .created ?_
          rw [hlimit]
          exact hless.le.trans hleft
  | same hlimit hstatus =>
      cases h' with
      | same hlimit' hstatus' => exact .same (hlimit'.trans hlimit) (hstatus'.trans hstatus)
      | older hlimit' hless =>
          refine .older (hlimit'.trans hlimit) ?_
          rwa [changesLeft_of_status hlimit hstatus] at hless
  | older hlimit hless =>
      cases h' with
      | same hlimit' hstatus' =>
          refine .older (hlimit'.trans hlimit) ?_
          rwa [changesLeft_of_status hlimit' hstatus']
      | older hlimit' hless' => exact .older (hlimit'.trans hlimit) (hless'.trans hless)

/-- A job that waits has an attempt left. -/
theorem attemptsLeft_pos {s : Store} {id : String} {job : Job} (hwithin : Within s id job)
    (hqueueable : job.state.queueable) : 0 < attemptsLeft job := by
  obtain ⟨-, hattempt⟩ := hwithin.waiting hqueueable
  unfold attemptsLeft
  omega

theorem changesLeft_live {s : Store} {id : String} {job : Job} (hwithin : Within s id job)
    (hlive : job.state.terminal = false) :
    1 ≤ changesLeft job ∧ (job.state ≠ .cancelRequested → 1 < changesLeft job) := by
  have hpos := attemptsLeft_pos hwithin
  unfold changesLeft
  cases hstate : job.state <;> rw [hstate] at hlive hpos <;>
    simp_all [JobState.terminal, JobState.queueable]
  all_goals omega

section Writes

variable {task : Task} {w : World} {id : String} {job : Job} {state : JobState}
  {fields : Fields} {onlyFrom : List JobState}

/-- Where a result comes in, the job is not a new one. -/
def Started (w : World) : Task → Prop
  | .handleResult jobID _ _ _ _ => ∀ {job}, w.store.jobs.get? jobID = some job →
      job.state ≠ .scheduled
  | _ => True

theorem ages_queued (hwaiting : job.state = .scheduled ∨ job.state = .retrying)
    (hfields : KeepsExecution fields) (now : Time) :
    Ages (some job) (some (applyUpdate job .queued fields now)) := by
  refine .older rfl ?_
  have hattempt : attemptsLeft (applyUpdate job .queued fields now) = attemptsLeft job := by
    unfold attemptsLeft
    rw [applyUpdate_attempt, hfields.attempt]
    rfl
  have hqueued : changesLeft (applyUpdate job .queued fields now) = 3 * attemptsLeft job := by
    rw [← hattempt]
    rfl
  rw [hqueued, changesLeft]
  rcases hwaiting with h | h <;> rw [h] <;> exact Nat.lt_succ_self _

theorem ages_settled {attempt : Int} {result : ExecutionResult}
    (hwithin : Within w.store id job) (hqueued : job.state ≠ .queued)
    (hscheduled : job.state ≠ .scheduled) (hsettles : Settles job attempt result state fields)
    (now : Time) : Ages (some job) (some (applyUpdate job state fields now)) := by
  obtain ⟨hlive, hfields, hmatch⟩ := hsettles
  obtain ⟨hone, htwo⟩ := changesLeft_live hwithin hlive
  cases state with
  | cancelled => exact .older rfl hone
  | completed => exact .older rfl hone
  | failed => exact .older rfl (htwo hmatch)
  | timeout => exact .older rfl (htwo hmatch)
  | retrying =>
      have hattempt : (applyUpdate job .retrying fields now).attempt = job.attempt := by
        rw [applyUpdate_attempt, hfields.attempt, Option.getD_none]
      by_cases hretrying : job.state = .retrying
      · refine .same rfl ?_
        rw [status, status, hattempt, hretrying]
        rfl
      · refine .older rfl ?_
        have hnew : changesLeft (applyUpdate job .retrying fields now) =
            3 * attemptsLeft job + 1 := by
          unfold attemptsLeft
          rw [← hattempt]
          rfl
        rw [hnew, changesLeft]
        have hcancel := hmatch.1
        cases hstate : job.state <;> simp_all [JobState.terminal]
  | _ => exact hmatch.elim

/-- Every write of every operation brings the job nearer to its end. -/
theorem ages_write (hwithin : Within w.store id job) (hreported : Reported w task)
    (hstarted : Started w task) (hjob : w.store.jobs.get? id = some job)
    (hwaiting : state = .queued → job.state = .scheduled ∨ job.state = .retrying)
    (hwrites : Writes task id job state fields onlyFrom) (now : Time) :
    Ages (some job) (some (applyUpdate job state fields now)) := by
  cases task with
  | createJob body =>
      obtain ⟨rfl, hfields, -⟩ := hwrites
      exact ages_queued (hwaiting rfl) hfields now
  | promoteDueJobs =>
      obtain ⟨rfl, -, hfields, -⟩ := hwrites
      exact ages_queued (hwaiting rfl) hfields now
  | handleQueuedJob message => exact hreported.elim
  | cancelJob target =>
      obtain ⟨-, hrefused, -, -, hmatch⟩ := hwrites
      have hpos := attemptsLeft_pos hwithin
      split at hmatch
      · rename_i hactive
        subst hmatch
        refine .older rfl ?_
        change 1 < changesLeft job
        rw [changesLeft]
        rcases hactive with h | h <;> rw [h] <;> dsimp only <;> omega
      · subst hmatch
        refine .older rfl ?_
        change 0 < changesLeft job
        rw [changesLeft]
        cases hstate : job.state <;> simp_all [cancelRefused, JobState.queueable]
  | pushPendingCancels =>
      obtain ⟨hstate, rfl, -, -⟩ := hwrites
      refine .older rfl ?_
      change 0 < changesLeft job
      rw [changesLeft, hstate]
      exact Nat.one_pos
  | handleResult jobID executionID workerID attempt result =>
      obtain ⟨rfl, -, hsettles⟩ := hwrites
      obtain ⟨found, hfound, -, hqueued⟩ := hreported
      obtain rfl := Option.some.inj (hjob.symm.trans hfound)
      exact ages_settled hwithin hqueued (hstarted hjob) hsettles now
  | watchdogTimeouts =>
      obtain ⟨hstates, -, hsettles⟩ := hwrites
      refine ages_settled hwithin ?_ ?_ hsettles now <;>
        rcases hstates with h | h <;> rw [h] <;> exact JobState.noConfusion
  | checkWorkers =>
      obtain ⟨hstates, -, hsettles⟩ := hwrites
      refine ages_settled hwithin ?_ ?_ hsettles now <;>
        rcases hstates with h | h | h <;> rw [h] <;> exact JobState.noConfusion

end Writes

section Operations

variable {task : Task} {φ : Told} {pending : Option String} {w w' : World} {id : String}

theorem changesLeft_new {job : Job} (hcreates : Creates task job) (uuid : String) (now : Time) :
    changesLeft (stampJob job uuid now) =
      3 * (max 1 (stampJob job uuid now).maxAttempts).toNat + 1 := by
  have hstate : (stampJob job uuid now).state = .scheduled := hcreates.1
  have hattempt : (stampJob job uuid now).attempt = 0 := hcreates.2.2.1
  rw [changesLeft, hstate, attemptsLeft, hattempt, Int.sub_zero]

theorem ages_call {c : Call} {d : Draw} (hrun : Running task (φ, pending) w)
    (hstarted : Started w task) (hadmits : φ.Admits task c) (hsound : Sound w c d) (id : String) :
    Ages (w.store.jobs.get? id) ((step c w d).2.store.jobs.get? id) := by
  have hinformed := informed_of_admits hrun.holds hadmits
  rcases step_jobs c w d with hsame | ⟨new, rfl, hput⟩ |
    ⟨id', state, fields, onlyFrom, old, rfl, hold, -, hput⟩
  · rw [hsame]
    exact ages_refl _
  · rw [hput, get?_put]
    split
    · rename_i hid
      rw [hid, get?_stamped hinformed hsound]
      exact .created (changesLeft_new hinformed.1 d.uuid d.now).le
    · exact ages_refl _
  · obtain ⟨known, hknown, hwrites⟩ := hinformed
    obtain rfl := Option.some.inj (hold.symm.trans hknown)
    rw [hput]
    by_cases hid : id = id'
    · subst hid
      rw [get?_put_applyUpdate hold, hold]
      refine ages_write (hrun.budget.jobs hold) hrun.reported hstarted hold ?_ hwrites d.now
      rintro rfl
      exact waiting_of_queued hrun hadmits hold hwrites
    · rw [get?_put_of_ne _ (by rwa [applyUpdate_id, key_of_get? hold])]
      exact ages_refl _

theorem started_call {c : Call} {d : Draw} (hrun : Running task (φ, pending) w)
    (hstarted : Started w task) (hadmits : φ.Admits task c) (hsound : Sound w c d) :
    Started (step c w d).2 task := by
  cases task with
  | handleResult jobID executionID workerID attempt result =>
      intro job hjob
      rcases step_jobs c w d with hsame | ⟨new, rfl, hput⟩ |
        ⟨id', state, fields, onlyFrom, old, rfl, hold, -, hput⟩
      · rw [hsame] at hjob
        exact hstarted hjob
      · obtain ⟨found, hfound, -⟩ := hrun.reported
        have habsent := get?_stamped (informed_of_admits hrun.holds hadmits) hsound
        rw [hput, get?_put_of_ne] at hjob
        · exact hstarted hjob
        · rintro rfl
          exact absurd (hfound.symm.trans habsent) (Option.some_ne_none found)
      · rw [hput, get?_put] at hjob
        split at hjob
        · obtain rfl := Option.some.inj hjob
          rintro hscheduled
          obtain rfl : state = .scheduled := hscheduled
          exact hadmits.2.1.1
        · exact hstarted hjob
  | _ => trivial

theorem started_of_enabled (hbudget : Budget none w) (henabled : Enabled w task) :
    Started w task := by
  cases task with
  | handleResult jobID executionID workerID attempt result =>
      intro job hjob hscheduled
      obtain ⟨found, hfound, ex, hex, -⟩ := henabled
      obtain rfl := Option.some.inj (hjob.symm.trans hfound)
      have hnamed : job.executionID ≠ "" := (hbudget.owned ⟨ex, hex, rfl, rfl⟩).1
      exact hnamed ((hbudget.jobs hjob).waiting (by rw [hscheduled]; rfl)).1
  | _ => trivial

/-- The invariant of a running operation over the record of one id. -/
structure Aging (before : Option Job) (id : String) (task : Task) (phase : Told × Option String)
    (w : World) : Prop where
  running : Running task phase w
  started : Started w task
  ages : Ages before (w.store.jobs.get? id)

theorem operation_ages (hbudget : Budget none w) (henabled : Enabled w task)
    (hrun : Performs cron cfg accepting task w w') (id : String) :
    Ages (w.store.jobs.get? id) (w'.store.jobs.get? id) := by
  obtain ⟨ds, outcome, hrun⟩ := hrun
  have hstart : Aging (w.store.jobs.get? id) id task ({}, none) w :=
    ⟨⟨holds_start w, hbudget, fun _ hid => absurd hid.symm (Option.some_ne_none _),
      reported_of_enabled hbudget henabled⟩, started_of_enabled hbudget henabled, ages_refl _⟩
  have hcall : ∀ {v phase c d}, Aging (w.store.jobs.get? id) id task phase v →
      ((informed task).prod (handoff (guardOf task))).Admits phase c →
      accepting.Allowed v c d →
      Aging (w.store.jobs.get? id) id task
        (((informed task).prod (handoff (guardOf task))).after phase c
          (accepting.step c v d).1) (accepting.step c v d).2 := by
    intro v phase c d hv hadmits hallowed
    refine ⟨running_step hv.running hadmits hallowed, ?_, ?_⟩
    · exact started_call hv.running hv.started hadmits.1 hallowed.1.1
    · exact ages_trans hv.ages (ages_call hv.running hv.started hadmits.1 hallowed.1.1 id)
  obtain ⟨_, hend, -⟩ := ensures_of_follows hcall
    (follows_prod (body_follows cron cfg task) (body_handoff cron cfg task)) hstart
    ds outcome w' hrun
  exact hend.ages

theorem dispatch_ages {message : QueuedJob} {job job' : Job} {ex : JobExecution}
    (hwithin : Within w.store message.jobID job) (hattempt : message.attempt = job.attempt)
    (hdispatch : Dispatch message w w' job job' ex) : Ages (some job) (some job') := by
  have hpos := attemptsLeft_pos hwithin hdispatch.queueable
  have hnext : attemptsLeft job' + 1 = attemptsLeft job := by
    unfold attemptsLeft at hpos ⊢
    rw [hdispatch.maxAttempts, hdispatch.attempt, hattempt]
    omega
  have hafter : changesLeft job' = 3 * attemptsLeft job' + 2 := by
    rw [changesLeft]
    rcases hdispatch.state with h | h <;> rw [h]
  have hbefore : 3 * attemptsLeft job ≤ changesLeft job := by
    rw [changesLeft]
    rcases queueable_iff.mp hdispatch.queueable with h | h | h <;> rw [h] <;> dsimp only <;> omega
  exact .older hdispatch.maxAttempts (by omega)

theorem delivery_ages {message : QueuedJob} {ds : List Draw} {outcome : Outcome}
    (hbudget : Budget none w) (htake : w.queue.take.1 = some message) (requeue : Draw)
    (hrun : accepting.Runs (Task.body cron cfg (.handleQueuedJob message))
      { w with queue := w.queue.take.2 } ds outcome w') (id : String) :
    Ages (w.store.jobs.get? id)
      ((finishTask (.handleQueuedJob message) outcome requeue w').store.jobs.get? id) := by
  have hfinish : (finishTask (.handleQueuedJob message) outcome requeue w').store = w'.store := by
    rw [finishTask]
    split <;> rfl
  rw [hfinish]
  obtain ⟨first, last, result, t, rfl, hhandler, hret⟩ := runs_bind_iff.mp hrun
  obtain ⟨-, rfl, rfl⟩ := runs_ret_iff.mp hret
  rcases handleQueuedJob_accepted message _ first result _ hhandler with
    ⟨hjobs, -⟩ | ⟨-, job, job', ex, hdispatch⟩
  · rw [hjobs]
    exact ages_refl _
  · have hstored : w.store.jobs.get? message.jobID = some job := hdispatch.stored
    have hkey : job'.id = message.jobID := hdispatch.id.trans (key_of_get? hdispatch.stored)
    have hattempt : message.attempt = job.attempt := by
      obtain ⟨hitems, -⟩ := MemoryQueue.items_of_take htake
      obtain ⟨found, hfound, hclause⟩ := hbudget.messages message (hitems ▸ List.mem_cons_self)
      obtain rfl := Option.some.inj (hstored.symm.trans hfound)
      refine (hclause.resolve_left fun hcancelled => ?_).1
      have hqueueable := hdispatch.queueable
      rw [hcancelled] at hqueueable
      cases hqueueable
    rw [hdispatch.jobs, get?_put]
    split
    · rename_i hid
      rw [hid, hkey, hstored]
      exact dispatch_ages (w := { w with queue := w.queue.take.2 }) (hbudget.jobs hstored)
        hattempt hdispatch
    · exact ages_refl _

theorem step_ages (hbudget : Budget none w) (hstep : RetryBudget.Step cron cfg w w')
    (id : String) : Ages (w.store.jobs.get? id) (w'.store.jobs.get? id) := by
  cases hstep with
  | operation henabled hrun => exact operation_ages hbudget henabled hrun id
  | delivery requeue htake hrun => exact delivery_ages hbudget htake requeue hrun id
  | workers hchange =>
      obtain ⟨registry, workers, news, -⟩ := hchange
      exact ages_refl _

end Operations

variable (cron cfg) in
/-- The complete operations, deliveries and registrations as the steps of a history. -/
def Operates (w : World) (_ : Unit) (w' : World) : Prop := RetryBudget.Step cron cfg w w'

def statusOf (w : World) (id : String) : Option (JobState × Int) :=
  (w.store.jobs.get? id).map status

/-- How often an operation has left the job in another state or at another attempt. -/
def changes (id : String) (history : List (Entry World Unit)) : Nat :=
  history.countP fun entry => statusOf entry.before id ≠ statusOf entry.after id

theorem changes_cons (id : String) (entry : Entry World Unit)
    (history : List (Entry World Unit)) :
    changes id (entry :: history) = changes id history +
      if statusOf entry.before id ≠ statusOf entry.after id then 1 else 0 := by
  simp [changes, List.countP_cons]

theorem budget_start {w : World} (hstore : w.store = .new) (hqueue : w.queue.items = []) :
    Budget none w := by
  have hnojob : ∀ id, w.store.jobs.get? id = none := fun id => by rw [hstore]; exact get?_empty id
  refine ⟨fun {id job} hjob => ?_, ?_, fun message hmessage => ?_, ?_⟩
  · rw [hnojob] at hjob
    cases hjob
  · rintro executionID id attempt ⟨ex, hex, -⟩
    rw [hstore] at hex
    exact absurd (hex.symm.trans (get?_empty executionID)) (Option.some_ne_none ex)
  · rw [hqueue] at hmessage
    exact absurd hmessage List.not_mem_nil
  · rw [hqueue]
    exact List.nodup_nil

/-- The changes of a job so far and those that it has before it. -/
def Accounted (history : List (Entry World Unit)) (w : World) (id : String) : Prop :=
  match w.store.jobs.get? id with
  | none => changes id history = 0
  | some job => changes id history + changesLeft job ≤ 3 * (max 1 job.maxAttempts).toNat + 2

theorem accounted_step {history : List (Entry World Unit)} {w w' : World} {id : String}
    (hages : Ages (w.store.jobs.get? id) (w'.store.jobs.get? id))
    (h : Accounted history w id) : Accounted (⟨w, (), w'⟩ :: history) w' id := by
  unfold Accounted at h ⊢
  rw [changes_cons]
  unfold statusOf
  generalize w.store.jobs.get? id = before at hages h ⊢
  generalize w'.store.jobs.get? id = after at hages h ⊢
  cases hages with
  | absent => simpa using h
  | created hleft =>
      dsimp only at h ⊢
      rw [if_pos (by simp)]
      omega
  | same hlimit hstatus =>
      dsimp only at h ⊢
      rw [if_neg (by simp [hstatus]), changesLeft_of_status hlimit hstatus, hlimit]
      exact h
  | older hlimit hleft =>
      dsimp only at h ⊢
      rw [hlimit]
      split <;> omega

/-- In every run from an empty store and queue, a job changes its state at most three times for
each attempt that it may have, and twice more. -/
theorem job_life_bounded {w w' : World} {history : List (Entry World Unit)}
    (hstore : w.store = .new) (hqueue : w.queue.items = [])
    (hrun : Run (Operates cron cfg) w history w') {id : String} {job : Job}
    (hjob : w'.store.jobs.get? id = some job) :
    changes id history + changesLeft job ≤ 3 * (max 1 job.maxAttempts).toNat + 2 := by
  have hend : Budget none w' ∧ ∀ id, Accounted history w' id := by
    refine run_invariant (P := fun _ => True)
      (I := fun history w => Budget none w ∧ ∀ id, Accounted history w id) ?_ ?_ hrun
      fun _ _ => trivial
    · refine ⟨budget_start hstore hqueue, fun id => ?_⟩
      rw [Accounted, hstore, show Store.new.jobs.get? id = none from get?_empty id]
      rfl
    · rintro history v _ v' ⟨hbudget, haccounted⟩ hstep -
      exact ⟨budget_step hbudget hstep,
        fun id => accounted_step (step_ages hbudget hstep id) (haccounted id)⟩
  have haccounted := hend.2 id
  rw [Accounted, hjob] at haccounted
  exact haccounted

def onceRequest : CreateJobRequest where
  name := "once"
  schedule := { type := .delayed, delay := second }
  retryPolicy := some { fixedRetry with maxAttempts := 1 }

/-- A job with one attempt that waits, is queued, runs, fails and is then cancelled takes every
change that the bound allows. -/
theorem failed_job_cancelled_last :
    ∃ (w' : World) (history : List (Entry World Unit)) (job : Job),
      Run (Operates utcOnly smallConfig) idleWorker history w' ∧
      w'.store.jobs.get? "job" = some job ∧ job.maxAttempts = 1 ∧ job.state = .cancelled ∧
      changes "job" history = 5 ∧
      changes "job" history + changesLeft job ≤ 3 * (max 1 job.maxAttempts).toNat + 2 := by
  let failed : ExecutionResult := { success := false, retryable := true, reason := .failed }
  let created := (perform utcOnly smallConfig accepting (.createJob (some onceRequest))
    ((createDraws 1 "job").take 6) idleWorker).get (by decide +kernel)
  let promoted := (perform utcOnly smallConfig accepting .promoteDueJobs
    (sweepDraws 6 (2 * second)) created).get (by decide +kernel)
  let message := promoted.queue.take.1.get (by decide +kernel)
  let handled := (accepting.exec (Task.body utcOnly smallConfig (.handleQueuedJob message))
    { promoted with queue := promoted.queue.take.2 }
    (handleDraws (2 * second) "execution")).get (by decide +kernel)
  let assigned := finishTask (.handleQueuedJob message) handled.1 {} handled.2
  let reported := (perform utcOnly smallConfig accepting
    (.handleResult "job" "execution" "worker" 1 failed) (sweepDraws 7 (3 * second))
    assigned).get (by decide +kernel)
  let cancelled := (perform utcOnly smallConfig accepting (.cancelJob "job")
    (sweepDraws 4 (4 * second)) reported).get (by decide +kernel)
  have hcreated : Operates utcOnly smallConfig idleWorker () created :=
    .operation (by decide +kernel : Enabled idleWorker (.createJob (some onceRequest)))
      (performs_of_get _ _ _)
  have hpromoted : Operates utcOnly smallConfig created () promoted :=
    .operation (by decide +kernel : Enabled created .promoteDueJobs) (performs_of_get _ _ _)
  have hassigned : Operates utcOnly smallConfig promoted () assigned :=
    .delivery {} (by decide +kernel) (runs_of_get _)
  have hreported : Operates utcOnly smallConfig assigned () reported :=
    .operation
      (by decide +kernel : Enabled assigned (.handleResult "job" "execution" "worker" 1 failed))
      (performs_of_get _ _ _)
  have hcancelled : Operates utcOnly smallConfig reported () cancelled :=
    .operation (by decide +kernel : Enabled reported (.cancelJob "job")) (performs_of_get _ _ _)
  have hrun := ((((Run.start.next hcreated).next hpromoted).next hassigned).next hreported).next
    hcancelled
  have hstored : ∃ job ∈ cancelled.store.jobs.get? "job",
      job.maxAttempts = 1 ∧ job.state = .cancelled := by
    decide +kernel
  obtain ⟨job, hjob, hlimit, hstate⟩ := hstored
  exact ⟨cancelled, _, job, hrun, hjob, hlimit, hstate, by decide +kernel,
    job_life_bounded rfl rfl hrun hjob⟩

end Chronos.JobLife
