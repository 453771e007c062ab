import Chronos.QueueHandoff
import Chronos.RetryBudget

namespace Chronos.RetryBudget

open Chronos.Domain
open Chronos.InformedRuns
open Chronos.JobWrites
open Chronos.Library.CallProgram
open Chronos.Library.CallMachine
open Chronos.Library.KeyedTable
open Chronos.MemoryQueue
open Chronos.MemoryStore
open Chronos.Operations
open Chronos.QueueHandoff (handoff released NoEnqueue handleQueuedJob_noEnqueue)
open Chronos.SchedulerService
open Chronos.SharedState

variable {cron : Cron} {cfg : SchedulerConfig}

section Calls

variable {task : Task} {φ : Told} {pending : Option String} {guard : List JobState} {w : World}
  {id : String} {job : Job} {state : JobState} {fields : Fields} {onlyFrom : List JobState}
  {d : Draw}

theorem pending_update
    (hhand : (handoff guard).Admits pending (.updateJobStateIf id state fields onlyFrom))
    {other : String} (hother : pending = some other) : other = id ∧ state = .queued := by
  subst hother
  exact ⟨hhand.1.symm, hhand.2.1⟩

theorem waiting_of_queued (hrun : Running task (φ, pending) w)
    (hadmits : φ.Admits task (.updateJobStateIf id .queued fields onlyFrom))
    (hjob : w.store.jobs.get? id = some job)
    (hwrites : Writes task id job .queued fields onlyFrom) :
    job.state = .scheduled ∨ job.state = .retrying := by
  rcases guard_of_writes hwrites with hguard | ⟨-, hstate, -⟩
  · obtain ⟨created, hcreated, hstate⟩ := hrun.created id ((hadmits.2.2.1 rfl).2 hguard)
    obtain rfl := Option.some.inj (hjob.symm.trans hcreated)
    exact Or.inl hstate
  · exact hstate

/-- An update that goes through: the store it leaves and what the budget says of it. -/
theorem budget_update (hrun : Running task (φ, pending) w)
    (hadmits : φ.Admits task (.updateJobStateIf id state fields onlyFrom))
    (hhand : (handoff guard).Admits pending (.updateJobStateIf id state fields onlyFrom))
    (hjob : w.store.jobs.get? id = some job)
    (hwrites : Writes task id job state fields onlyFrom) {w' : World}
    (hjobs : w'.store.jobs = w.store.jobs.put (applyUpdate job state fields d.now))
    (hqueue : w'.queue = w.queue)
    (hattempts : ∀ {executionID id attempt}, HasAttempt w'.store executionID id attempt ↔
      HasAttempt w.store executionID id attempt) : Budget none w' := by
  have hfields := keepsExecution_of_writes hrun.reported hwrites
  have hget : w'.store.jobs.get? id = some (applyUpdate job state fields d.now) := by
    rw [hjobs]
    exact get?_put_applyUpdate hjob _ _ _
  have hother : ∀ {id'}, id' ≠ id → w'.store.jobs.get? id' = w.store.jobs.get? id' := by
    intro id' hne
    rw [hjobs, get?_put_of_ne]
    rwa [applyUpdate_id, key_of_get? hjob]
  refine ⟨fun {id' job'} hjob' => ?_, fun hattempt => ?_, fun message hmessage => ?_, ?_⟩
  · refine within_congr hattempts ?_
    by_cases hid : id' = id
    · subst hid
      obtain rfl := Option.some.inj (hget.symm.trans hjob')
      refine within_update (hrun.budget.jobs hjob) hfields fun hqueueable => ?_
      by_cases hstate : state = .queued
      · subst hstate
        refine Or.inl (queueable_iff.mpr (Or.inr ?_))
        exact waiting_of_queued hrun hadmits hjob hwrites
      · exact Or.inr ((writes_within hrun.reported hjob hstate hwrites).1 hqueueable)
    · exact hrun.budget.jobs (hother hid ▸ hjob')
  · obtain ⟨hnamed, owner, howner⟩ := hrun.budget.owned (hattempts.mp hattempt)
    refine ⟨hnamed, ?_⟩
    rw [hjobs, get?_put]
    split
    · exact ⟨_, rfl⟩
    · exact ⟨owner, howner⟩
  · rw [hqueue] at hmessage
    obtain ⟨old, hold, hclause⟩ := hrun.budget.messages message hmessage
    by_cases hid : message.jobID = id
    · subst hid
      obtain rfl := Option.some.inj (hjob.symm.trans hold)
      refine ⟨_, hget, ?_⟩
      by_cases hstate : state = .queued
      · subst hstate
        have hwaiting := waiting_of_queued hrun hadmits hjob hwrites
        rcases hclause with hcancelled | ⟨hattempt, -⟩
        · rw [hcancelled] at hwaiting
          rcases hwaiting with h | h <;> cases h
        · refine Or.inr ⟨?_, Or.inl rfl⟩
          rw [applyUpdate_attempt, hfields.attempt]
          exact hattempt
      · rcases (writes_within hrun.reported hjob hstate hwrites).2 with
          hcancelled | ⟨hqueued, hcancelled⟩
        · exact Or.inl hcancelled
        · rcases hclause with h | ⟨-, h | h⟩
          · exact absurd h hcancelled
          · exact absurd h hqueued
          · exact absurd (pending_update hhand h).2 hstate
    · refine ⟨old, (hother hid).trans hold, hclause.imp_right fun h => ⟨h.1, Or.inl ?_⟩⟩
      exact h.2.resolve_right fun hpending => hid (pending_update hhand hpending).1
  · rw [hqueue]
    exact hrun.budget.distinct

theorem reported_update (hreported : Reported w task)
    (hjob : w.store.jobs.get? id = some job)
    (hwrites : Writes task id job state fields onlyFrom) {w' : World}
    (hjobs : w'.store.jobs = w.store.jobs.put (applyUpdate job state fields d.now)) :
    Reported w' task := by
  have hfields := keepsExecution_of_writes hreported hwrites
  cases task with
  | handleResult jobID executionID workerID attempt result =>
      obtain ⟨rfl, -, hsettles⟩ := hwrites
      obtain ⟨found, hfound, rfl, -⟩ := hreported
      obtain rfl := Option.some.inj (hjob.symm.trans hfound)
      refine ⟨applyUpdate job state fields d.now, ?_, ?_, ?_⟩
      · rw [hjobs]
        exact get?_put_applyUpdate hjob _ _ _
      · rw [applyUpdate_attempt, hfields.attempt]
        rfl
      · rintro rfl
        exact hsettles.2.2
  | _ => exact hreported

theorem running_update (hrun : Running task (φ, pending) w)
    (hadmits : φ.Admits task (.updateJobStateIf id state fields onlyFrom))
    (hhand : (handoff guard).Admits pending (.updateJobStateIf id state fields onlyFrom))
    (hfault : d.fault = none) :
    Running task
      (φ.wrote id state (step (.updateJobStateIf id state fields onlyFrom) w d).1, none)
      (step (.updateJobStateIf id state fields onlyFrom) w d).2 := by
  obtain ⟨job, hjob, hwrites⟩ := holds_knows hrun.holds hadmits.2.2.2
  have hguard : onlyFrom = [] ∨ job.state ∈ onlyFrom := by
    rcases guard_of_writes hwrites with hnone | ⟨-, hstate, rfl⟩
    · exact Or.inl hnone
    · rcases hstate with h | h <;> rw [h] <;> exact Or.inr (by decide)
  have hstep : (step (.updateJobStateIf id state fields onlyFrom) w d).2 =
      { w with store := w.store.putJob (applyUpdate job state fields d.now) } := by
    simp only [step, guarded_of_none hfault]
    rw [updateJobStateIf_of_some hjob state fields hguard]
  refine ⟨holds_wrote hrun.holds hadmits.2.2.2, ?_, ?_, ?_⟩
  · refine budget_update (d := d) hrun hadmits hhand hjob hwrites ?_ ?_ ?_
    · rw [hstep, putJob_jobs]
    · rw [hstep]
    · exact hasAttempt_step (fun _ => Call.noConfusion) w d
  · exact fun _ hcreated => absurd hcreated.symm (Option.some_ne_none _)
  · refine reported_update (d := d) hrun.reported hjob hwrites ?_
    rw [hstep, putJob_jobs]

theorem keyless_of_creates (hreported : Reported w task) (hcreates : Creates task job) :
    job.idempotencyKey = "" := by
  cases task with
  | createJob body =>
      cases body with
      | none => exact hcreates.2.2.2.2.elim
      | some req => exact hcreates.2.2.2.2.trans (hreported req rfl)
  | handleResult jobID executionID workerID attempt result => exact hcreates.2.2.2.2.2.2
  | _ => exact hcreates.2.2.2.2.elim

/-- A new job has no execution, since every execution has its job. -/
theorem within_new (hbudget : Budget pending w) (hcreates : Creates task job)
    (habsent : w.store.jobs.get? id = none) (uuid : String) (now : Time) :
    Within w.store id (stampJob job uuid now) := by
  have hattempt : (stampJob job uuid now).attempt = 0 := hcreates.2.2.1
  have hnone : ∀ {executionID attempt}, ¬ HasAttempt w.store executionID id attempt := by
    intro executionID attempt hhas
    obtain ⟨-, owner, howner⟩ := hbudget.owned hhas
    exact absurd (howner.symm.trans habsent) (Option.some_ne_none owner)
  refine ⟨⟨hattempt.ge, ?_, fun attempt => ?_, fun hhas => absurd hhas hnone⟩, ?_, ?_⟩
  · rw [hattempt]
    exact le_max_of_le_left zero_le_one
  · rw [hattempt]
    constructor
    · rintro ⟨executionID, hhas⟩
      exact absurd hhas hnone
    · rintro ⟨hone, hzero⟩
      omega
  · exact fun _ => ⟨hcreates.2.2.2.1, Or.inl hattempt⟩
  · exact Or.inl hcreates.2.2.2.1

theorem running_create (hrun : Running task (φ, pending) w)
    (hadmits : φ.Admits task (.createJob job))
    (hhand : (handoff guard).Admits pending (.createJob job)) (hsound : Sound w (.createJob job) d)
    (hfault : d.fault = none) :
    Running task (φ.after (.createJob job) (step (.createJob job) w d).1, pending)
      (step (.createJob job) w d).2 := by
  have hinformed := informed_of_admits hrun.holds hadmits
  have hkey := keyless_of_creates hrun.reported hinformed.1
  have habsent := get?_stamped hinformed hsound
  have hholds := holds_step hrun.holds hadmits hsound
  obtain rfl : pending = none := by
    cases pending with
    | none => rfl
    | some id => exact hhand.elim
  have hstep : step (.createJob job) w d = (.ok (stampJob job d.uuid d.now),
      { w with store := w.store.putJob (stampJob job d.uuid d.now) }) := by
    simp only [step, guarded_of_none hfault, Store.createJob]
    rw [if_pos (show (stampJob job d.uuid d.now).idempotencyKey = "" from hkey)]
  have hold : ∀ {id job'}, w.store.jobs.get? id = some job' →
      (w.store.jobs.put (stampJob job d.uuid d.now)).get? id = some job' := by
    intro id job' hjob'
    rw [get?_put_of_ne, hjob']
    rintro rfl
    exact absurd (hjob'.symm.trans habsent) (Option.some_ne_none job')
  rw [hstep] at hholds ⊢
  refine ⟨hholds, ⟨fun {id job'} hjob' => ?_, fun hhas => ?_, fun message hmessage => ?_, ?_⟩,
    ?_, ?_⟩
  · rw [putJob_jobs, get?_put] at hjob'
    split at hjob'
    · rename_i hid
      obtain rfl := Option.some.inj hjob'
      have hnew := within_new hrun.budget hinformed.1 (hid ▸ habsent) d.uuid d.now
      exact within_congr (s := w.store) Iff.rfl hnew
    · exact within_congr (s := w.store) Iff.rfl (hrun.budget.jobs hjob')
  · obtain ⟨hnamed, owner, howner⟩ := hrun.budget.owned hhas
    exact ⟨hnamed, owner, hold howner⟩
  · obtain ⟨found, hfound, hclause⟩ := hrun.budget.messages message hmessage
    exact ⟨found, hold hfound, hclause⟩
  · exact hrun.budget.distinct
  · rintro id hid
    obtain rfl := Option.some.inj hid
    exact ⟨_, get?_put_self _ _, hinformed.1.1⟩
  · have hreported := hrun.reported
    cases task with
    | handleResult jobID executionID workerID attempt result =>
        obtain ⟨found, hfound, hfacts⟩ := hreported
        exact ⟨found, hold hfound, hfacts⟩
    | _ => exact hreported

theorem running_enqueue {message : QueuedJob} (hrun : Running task (φ, pending) w)
    (hadmits : φ.Admits task (.enqueue message))
    (hhand : (handoff guard).Admits pending (.enqueue message)) :
    Running task (φ.after (.enqueue message) (step (.enqueue message) w d).1,
      (handoff guard).after pending (.enqueue message) (step (.enqueue message) w d).1)
      (step (.enqueue message) w d).2 := by
  obtain rfl : pending = none := by
    cases pending with
    | none => rfl
    | some id => exact hhand.elim
  obtain ⟨job, hjob, ⟨now, rfl⟩, hwaiting⟩ := holds_knows hrun.holds hadmits.2.2
  simp only [step, guarded, Queue.enqueue]
  split
  · exact hrun
  split
  · exact hrun
  have hstate : job.state ≠ .cancelled ∧ job.state ≠ .queued := by
    have hwaits : job.state = .scheduled ∨ job.state = .retrying := by
      rcases hwaiting with h | h | hcreated
      · exact Or.inl h
      · exact Or.inr h
      · obtain ⟨found, hfound, hscheduled⟩ := hrun.created _ hcreated
        obtain rfl := Option.some.inj (hjob.symm.trans hfound)
        exact Or.inl hscheduled
    rcases hwaits with h | h <;> rw [h] <;> exact ⟨JobState.noConfusion, JobState.noConfusion⟩
  -- no message of this job is in the queue
  have hnew : job.id ∉ w.queue.items.map QueuedJob.jobID := by
    intro hmem
    obtain ⟨message, hmessage, hid⟩ := List.mem_map.mp hmem
    obtain ⟨found, hfound, hclause⟩ := hrun.budget.messages message hmessage
    rw [hid] at hfound
    obtain rfl := Option.some.inj (hjob.symm.trans hfound)
    rcases hclause with h | ⟨-, h | h⟩
    · exact hstate.1 h
    · exact hstate.2 h
    · exact absurd h.symm (Option.some_ne_none _)
  refine ⟨⟨hrun.holds.fresh, hrun.holds.known, hrun.holds.issued⟩,
    ⟨hrun.budget.jobs, hrun.budget.owned, fun message hmessage => ?_, ?_⟩, hrun.created,
    hrun.reported⟩
  · rcases mem_insertLocked.mp hmessage with rfl | hold
    · refine ⟨job, ?_, Or.inr ⟨?_, Or.inr ?_⟩⟩ <;> split <;> first | exact hjob | rfl
    · obtain ⟨found, hfound, hclause⟩ := hrun.budget.messages message hold
      refine ⟨found, hfound, hclause.imp_right fun h => ⟨h.1, Or.inl ?_⟩⟩
      exact h.2.resolve_right fun hpending => absurd hpending.symm (Option.some_ne_none _)
  · refine (((perm_insertLocked _ _).map QueuedJob.jobID).nodup_iff).mpr ?_
    rw [List.map_cons, List.nodup_cons]
    refine ⟨?_, hrun.budget.distinct⟩
    split <;> exact hnew

/-- A call that touches neither the jobs nor the queue and creates no execution. -/
theorem running_frame {c : Call} {answer : Answer c} (hrun : Running task (φ, pending) w)
    {w' : World} (hholds : Holds (φ.after c answer) w')
    (hjobs : w'.store.jobs = w.store.jobs) (hqueue : w'.queue = w.queue)
    (hattempts : ∀ {executionID id attempt}, HasAttempt w'.store executionID id attempt ↔
      HasAttempt w.store executionID id attempt)
    (hc : ∀ job, c ≠ .createJob job) : Running task (φ.after c answer, pending) w' where
  holds := hholds
  budget :=
    { jobs := fun hjob => within_congr hattempts (hrun.budget.jobs (hjobs ▸ hjob))
      owned := fun hhas => hjobs ▸ hrun.budget.owned (hattempts.mp hhas)
      messages := by
        rw [hjobs, hqueue]
        exact hrun.budget.messages
      distinct := by
        rw [hqueue]
        exact hrun.budget.distinct }
  created := fun id hid => hjobs ▸ hrun.created id (created_after hid hc)
  reported := by
    have hreported := hrun.reported
    cases task with
    | handleResult jobID executionID workerID attempt result =>
        unfold Reported at hreported ⊢
        rwa [hjobs]
    | _ => exact hreported

theorem running_step {c : Call} (hrun : Running task (φ, pending) w)
    (hadmits : ((informed task).prod (handoff guard)).Admits (φ, pending) c)
    (hallowed : accepting.Allowed w c d) :
    Running task (((informed task).prod (handoff guard)).after (φ, pending) c (step c w d).1)
      (step c w d).2 := by
  obtain ⟨hinformed, hhand⟩ := hadmits
  have hadmits : φ.Admits task c := hinformed
  obtain ⟨⟨hsound, hfault, -⟩, -⟩ := hallowed
  have hqueue : (∀ message, c ≠ .enqueue message) → (step c w d).2.queue = w.queue := by
    intro hc
    exact (queue_step c w d).resolve_right fun ⟨message, hmessage, _⟩ => hc message hmessage
  cases c with
  | updateJobStateIf id state fields onlyFrom =>
      exact running_update hrun hadmits hhand (hfault rfl)
  | createJob job => exact running_create hrun hadmits hhand hsound (hfault rfl)
  | enqueue message => exact running_enqueue hrun hadmits hhand
  | createExecution ex =>
      obtain ⟨-, message, rfl⟩ := hadmits
      exact hrun.reported.elim
  | _ =>
      exact running_frame hrun (holds_step hrun.holds hadmits hsound) (jobs_step rfl w d)
        (hqueue fun _ => Call.noConfusion) (hasAttempt_step (fun _ => Call.noConfusion) w d)
        fun _ => Call.noConfusion

end Calls

def guardOf : Task → List JobState
  | .promoteDueJobs => [.scheduled, .retrying]
  | _ => []

/-- An operation that enqueues nothing also writes QUEUED nowhere. -/
theorem handoff_of_informed {task : Task} {α : Type} {p : Prog α} {final : Told → α → Prop}
    {φ : Told} (guard : List JobState) (hp : p.Follows (informed task) final φ)
    (htask : ¬ Enqueues task) (hφ : φ.enqueued = none) :
    p.Follows (handoff guard) released none := by
  induction p generalizing φ with
  | ret value => exact rfl
  | call c next ih =>
      have hadmits : φ.Admits task c := hp.1
      have hafter : ∀ answer, handsOver c = false → (φ.after c answer).enqueued = none := by
        intro answer hc
        rw [Option.eq_none_iff_forall_not_mem]
        intro id hid
        exact absurd ((enqueued_after hid hc).symm.trans hφ) (Option.some_ne_none id)
      cases c with
      | enqueue message => exact absurd hadmits.2.1 htask
      | updateJobStateIf id state fields onlyFrom =>
          refine ⟨⟨?_, ?_⟩, fun answer => ih answer (hp.2 answer) rfl⟩
          · rintro rfl
            exact absurd ((hadmits.2.2.1 rfl).1.symm.trans hφ) (Option.some_ne_none id)
          · rintro rfl
            exact hadmits.2.1.1
      | createJob job =>
          refine ⟨?_, fun answer => ih answer (hp.2 answer) (hafter answer rfl)⟩
          have hstate : job.state = .scheduled := hadmits.2.1.1
          exact fun hqueued => JobState.noConfusion (hstate.symm.trans hqueued)
      | _ => exact ⟨trivial, fun answer => ih answer (hp.2 answer) (hafter answer rfl)⟩

theorem body_handoff (cron : Cron) (cfg : SchedulerConfig) (task : Task) :
    (task.body cron cfg).Follows (handoff (guardOf task)) released none := by
  have hinformed := body_follows cron cfg task
  cases task with
  | createJob body =>
      exact follows_bind (QueueHandoff.createJob_follows cron body) fun _ _ h => h
  | promoteDueJobs =>
      exact follows_bind (QueueHandoff.promoteDueJobs_follows cfg) fun _ _ h => h
  | _ => exact handoff_of_informed _ hinformed not_false rfl

theorem budget_operation {task : Task} {w w' : World} (hbudget : Budget none w)
    (henabled : Enabled w task) (hrun : Performs cron cfg accepting task w w') :
    Budget none w' := by
  obtain ⟨ds, outcome, hrun⟩ := hrun
  have hstart : Running task ({}, none) w :=
    ⟨holds_start w, hbudget, fun _ hid => absurd hid.symm (Option.some_ne_none _),
      reported_of_enabled hbudget henabled⟩
  have hcall : ∀ {w phase c d}, Running task phase w →
      ((informed task).prod (handoff (guardOf task))).Admits phase c →
      accepting.Allowed w c d →
      Running task (((informed task).prod (handoff (guardOf task))).after phase c
        (accepting.step c w d).1) (accepting.step c w d).2 := running_step
  obtain ⟨phase, hphase, -, hreleased⟩ := ensures_of_follows hcall
    (follows_prod (body_follows cron cfg task) (body_handoff cron cfg task)) hstart
    ds outcome w' hrun
  have hnone : phase.2 = none := hreleased
  exact hnone ▸ hphase.budget

end Chronos.RetryBudget
