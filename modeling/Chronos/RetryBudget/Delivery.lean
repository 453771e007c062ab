import Chronos.RetryBudget.Operations
import Chronos.SchedulerRuns

namespace Chronos.RetryBudget

open Chronos.Domain
open Chronos.Library.CallMachine
open Chronos.Library.KeyedTable
open Chronos.MemoryQueue
open Chronos.MemoryStore
open Chronos.Operations
open Chronos.QueueHandoff (handoff released NoEnqueue handleQueuedJob_noEnqueue)
open Chronos.SchedulerRuns
open Chronos.SchedulerService
open Chronos.SharedState
open Relation

variable {cron : Cron} {cfg : SchedulerConfig}

theorem accepting_step : accepting.step = step := rfl

theorem pushJob_accepted {message : QueuedJob} (wc : WorkerConn) (executionID : String)
    (now : Time) {w : World} (hjob : ∃ job, w.store.jobs.get? message.jobID = some job) :
    accepting.Ensures (pushJob message wc executionID now) w fun result w' =>
      result.isOk ∧ w'.jobState message.jobID = some .running := by
  obtain ⟨job, hjob⟩ := hjob
  refine ensures_perform fun d hd => ?_
  have haccepted : (pushOutcome d.reply).isOk := hd.2
  simp only [accepting_step, step]
  split
  · rename_i hrejected
    rw [hrejected] at haccepted
    cases haccepted
  · refine ensures_perform fun d' hd' => ?_
    have hstored : (acceptedPush w wc.info.id (executeJobRequest message executionID)
        d.reply).store.jobs.get? message.jobID = some job := by simpa using hjob
    simp only [accepting_step, step, guarded_of_none (hd'.1.2.1 rfl),
      updateJobStateIf_of_some hstored .running { startedAt := some now } (Or.inl rfl)]
    refine ensures_perform fun _ _ => ensures_perform fun _ _ => ensures_ret ⟨rfl, ?_⟩
    rw [World.jobState, accepting_step, (quiet_step rfl _ _).1, (quiet_step rfl _ _).1,
      putJob_jobs, get?_put_applyUpdate hstored]
    rfl

theorem assignJob_accepted {message : QueuedJob} (wc : WorkerConn) {w : World} {job : Job}
    (hjob : w.store.jobs.get? message.jobID = some job) :
    accepting.Ensures (assignJob message wc) w fun result w' =>
      result.isOk ∧ w'.jobState message.jobID = some .running := by
  refine ensures_perform fun d _ => ensures_perform fun d₁ hd₁ => ?_
  simp only [accepting_step, step, guarded_of_none (hd₁.1.2.1 rfl)]
  refine ensures_perform fun d₂ _ => ensures_perform fun d₃ hd₃ => ?_
  simp only [accepting_step, step, guarded_of_none (hd₃.1.2.1 rfl)]
  rw [updateJobStateIf_of_some (s := Store.createExecution ..) hjob .assigned _ (Or.inl rfl)]
  refine ensures_perform fun d₄ _ => ?_
  refine pushJob_accepted wc d.uuid d₂.now ?_
  rw [accepting_step, (quiet_step rfl _ _).1]
  exact ⟨_, get?_put_applyUpdate hjob _ _ _⟩

/-- Where every push is accepted, a handler that returns an error has changed no job and
no execution. -/
theorem handleQueuedJob_accepted (message : QueuedJob) (w : World) :
    accepting.Ensures (handleQueuedJob message) w fun result w' =>
      (w'.store.jobs = w.store.jobs ∧ w'.store.executions = w.store.executions) ∨
        result.isOk ∧ ∃ job job' ex, Dispatch message w w' job job' ex := by
  have hstore : ∀ {w c d}, accepting.Allowed w c d → c.ofStore → d.fault = none :=
    fun hd => hd.1.2.1
  refine handleQueuedJob_rule rfl hstore (fun _ => Or.inl ⟨rfl, rfl⟩) ?_
  intro wc job hjob hstate ds result w' hrun
  have hsteady := runs_mono (N := steady fun _ => True) hrun rfl fun _ _ _ hd => hd.1
  obtain ⟨job', ex, hdispatch, -⟩ := assignJob_ensures wc hjob hstate ds result w' hsteady
  exact Or.inr ⟨(assignJob_accepted wc hjob ds result w' hrun).1, job, job', ex, hdispatch⟩

section Delivery

variable {message : QueuedJob} {rest : List QueuedJob} {w w' : World} {job job' : Job}
  {ex : JobExecution}

theorem hasAttempt_dispatch (hdispatch : Dispatch message w w' job job' ex)
    {executionID id : String} {attempt : Int} :
    HasAttempt w'.store executionID id attempt ↔ HasAttempt w.store executionID id attempt ∨
      executionID = ex.id ∧ id = message.jobID ∧ attempt = message.attempt + 1 := by
  unfold HasAttempt
  rw [hdispatch.executions, get?_put]
  split
  · rename_i heq
    subst heq
    rw [notMem_keys.mp hdispatch.fresh.2.2.2]
    simp [hdispatch.exJobID, hdispatch.exAttempt, eq_comm]
  · rename_i hne
    simp [hne]

/-- The dispatched job gets the one attempt that its executions did not have. -/
theorem within_dispatch (hwithin : Within w.store message.jobID job)
    (hattempt : message.attempt = job.attempt) (hdispatch : Dispatch message w w' job job' ex) :
    Within w'.store message.jobID job' := by
  have hattempt' : job'.attempt = job.attempt + 1 := by rw [hdispatch.attempt, hattempt]
  have hold : ∀ {executionID attempt}, HasAttempt w.store executionID message.jobID attempt →
      attempt ≤ job.attempt := fun hhas => ((hwithin.attempts _).mp ⟨_, hhas⟩).2
  refine ⟨⟨?_, ?_, fun attempt => ?_, fun hleft hright => ?_⟩, fun hqueueable => ?_, ?_⟩
  · have := hwithin.nonneg
    omega
  · obtain ⟨-, hzero | hless⟩ := hwithin.waiting hdispatch.queueable
    · rw [hattempt', hzero]
      exact le_max_left _ _
    · rw [hattempt', hdispatch.maxAttempts]
      exact le_max_of_le_right hless
  · constructor
    · rintro ⟨executionID, hhas⟩
      rcases hasAttempt_dispatch hdispatch |>.mp hhas with hhas | ⟨-, -, rfl⟩
      · have := (hwithin.attempts attempt).mp ⟨executionID, hhas⟩
        omega
      · have := hwithin.nonneg
        omega
    · rintro ⟨hone, hle⟩
      by_cases hlast : attempt = message.attempt + 1
      · exact ⟨ex.id, hasAttempt_dispatch hdispatch |>.mpr (Or.inr ⟨rfl, rfl, hlast⟩)⟩
      · obtain ⟨executionID, hhas⟩ := (hwithin.attempts attempt).mpr ⟨hone, by omega⟩
        exact ⟨executionID, hasAttempt_dispatch hdispatch |>.mpr (Or.inl hhas)⟩
  · rcases hasAttempt_dispatch hdispatch |>.mp hleft with hleft | ⟨rfl, -, rfl⟩
    · rcases hasAttempt_dispatch hdispatch |>.mp hright with hright | ⟨rfl, -, rfl⟩
      · exact hwithin.once hleft hright
      · have := hold hleft
        omega
    · rcases hasAttempt_dispatch hdispatch |>.mp hright with hright | ⟨rfl, -, -⟩
      · have := hold hright
        omega
      · rfl
  · rcases hdispatch.state with h | h <;> rw [h] at hqueueable <;> cases hqueueable
  · refine Or.inr (hasAttempt_dispatch hdispatch |>.mpr (Or.inr ⟨?_, rfl, ?_⟩))
    · exact hdispatch.executionID
    · exact hdispatch.attempt

theorem budget_dispatch (hbudget : Budget none w) (hitems : w.queue.items = message :: rest)
    (hdispatch : Dispatch message { w with queue := w.queue.take.2 } w' job job' ex)
    (hqueue : w'.queue.items = rest) : Budget none w' := by
  have hkey : job'.id = message.jobID := hdispatch.id.trans (key_of_get? hdispatch.stored)
  have hother : ∀ {id}, id ≠ message.jobID →
      w'.store.jobs.get? id = w.store.jobs.get? id := by
    intro id hne
    rw [hdispatch.jobs, get?_put_of_ne]
    rwa [hkey]
  have hattempt : message.attempt = job.attempt := by
    obtain ⟨found, hfound, hclause⟩ := hbudget.messages message (hitems ▸ List.mem_cons_self)
    obtain rfl := Option.some.inj (hdispatch.stored.symm.trans hfound)
    rcases hclause with hcancelled | ⟨hattempt, -⟩
    · have hqueueable := hdispatch.queueable
      rw [hcancelled] at hqueueable
      cases hqueueable
    · exact hattempt
  have hdistinct := hbudget.distinct
  rw [hitems, List.map_cons, List.nodup_cons] at hdistinct
  refine ⟨fun {id found} hfound => ?_, fun hhas => ?_, fun item hitem => ?_, ?_⟩
  · by_cases hid : id = message.jobID
    · subst hid
      rw [hdispatch.jobs, get?_put, if_pos hkey.symm] at hfound
      obtain rfl := Option.some.inj hfound
      have hwithin : Within w.store message.jobID job := hbudget.jobs hdispatch.stored
      exact within_dispatch (w := { w with queue := w.queue.take.2 }) hwithin hattempt hdispatch
    · refine within_congr ?_ (hbudget.jobs (hother hid ▸ hfound))
      intro executionID attempt
      refine (hasAttempt_dispatch hdispatch).trans (or_iff_left ?_)
      exact fun hnew => hid hnew.2.1
  · rcases hasAttempt_dispatch hdispatch |>.mp hhas with hhas | ⟨rfl, rfl, -⟩
    · obtain ⟨hnamed, owner, howner⟩ := hbudget.owned hhas
      refine ⟨hnamed, ?_⟩
      rw [hdispatch.jobs, get?_put]
      split
      · exact ⟨_, rfl⟩
      · exact ⟨owner, howner⟩
    · refine ⟨hdispatch.fresh.1, job', ?_⟩
      rw [hdispatch.jobs, get?_put, if_pos hkey.symm]
  · rw [hqueue] at hitem
    have hne : item.jobID ≠ message.jobID := by
      intro heq
      exact hdistinct.1 (heq ▸ List.mem_map_of_mem hitem)
    obtain ⟨found, hfound, hclause⟩ :=
      hbudget.messages item (hitems ▸ List.mem_cons_of_mem _ hitem)
    exact ⟨found, (hother hne).trans hfound, hclause⟩
  · rw [hqueue]
    exact hdistinct.2

/-- Jobs and executions are as before, and so are the messages but for their stamps. -/
theorem budget_queue (hbudget : Budget none w) (hjobs : w'.store.jobs = w.store.jobs)
    (hexecutions : w'.store.executions = w.store.executions)
    (hitems : ∀ item ∈ w'.queue.items, ∃ old ∈ w.queue.items,
      item.jobID = old.jobID ∧ item.attempt = old.attempt)
    (hdistinct : (w'.queue.items.map QueuedJob.jobID).Nodup) : Budget none w' := by
  have hsame : ∀ {executionID id attempt}, HasAttempt w'.store executionID id attempt ↔
      HasAttempt w.store executionID id attempt := by
    intro executionID id attempt
    rw [HasAttempt, HasAttempt, hexecutions]
  refine ⟨fun hjob => ?_, fun hhas => ?_, fun item hitem => ?_, hdistinct⟩
  · exact within_congr hsame (hbudget.jobs (hjobs ▸ hjob))
  · rw [hjobs]
    exact hbudget.owned (hsame.mp hhas)
  · obtain ⟨old, hold, hid, hattempt⟩ := hitems item hitem
    rw [hjobs, hid, hattempt]
    exact hbudget.messages old hold

theorem budget_delivery {ds : List Draw} {outcome : Outcome} (hbudget : Budget none w)
    (htake : w.queue.take.1 = some message) (requeue : Draw)
    (hrun : accepting.Runs (Task.body cron cfg (.handleQueuedJob message))
      { w with queue := w.queue.take.2 } ds outcome w') :
    Budget none (finishTask (.handleQueuedJob message) outcome requeue w') := by
  obtain ⟨hitems, -⟩ := items_of_take htake
  have hqueue : w'.queue = w.queue.take.2 := by
    refine ensures_of_calls (M := accepting) (I := fun w' : World => w'.queue = w.queue.take.2)
      (fun c w' d hc _ hw' => ?_) (handleQueuedJob_noEnqueue message) rfl ds outcome w' hrun
    rcases queue_step c w' d with hsame | ⟨item, hitem, -⟩
    · exact hsame.trans hw'
    · exact absurd hitem (hc item)
  have hdistinct := hbudget.distinct
  rw [hitems, List.map_cons, List.nodup_cons] at hdistinct
  obtain ⟨first, last, result, t, rfl, hhandler, hret⟩ := runs_bind_iff.mp hrun
  obtain ⟨-, rfl, rfl⟩ := runs_ret_iff.mp hret
  rcases handleQueuedJob_accepted message _ first result _ hhandler with
    ⟨hjobs, hexecutions⟩ | ⟨hok, job, job', ex, hdispatch⟩
  · simp only [finishTask]
    split
    · refine budget_queue hbudget hjobs hexecutions ?_ ?_
      · intro item hitem
        simp only [Queue.enqueue, hqueue] at hitem
        split at hitem
        · exact ⟨item, hitems ▸ List.mem_cons_of_mem _ hitem, rfl, rfl⟩
        · rcases mem_insertLocked.mp hitem with rfl | hold
          · refine ⟨message, hitems ▸ List.mem_cons_self, ?_⟩
            split <;> exact ⟨rfl, rfl⟩
          · exact ⟨item, hitems ▸ List.mem_cons_of_mem _ hold, rfl, rfl⟩
      · simp only [Queue.enqueue, hqueue]
        split
        · exact hdistinct.2
        · refine (((perm_insertLocked _ _).map QueuedJob.jobID).nodup_iff).mpr ?_
          rw [List.map_cons, List.nodup_cons]
          refine ⟨?_, hdistinct.2⟩
          split <;> exact hdistinct.1
    · refine budget_queue hbudget hjobs hexecutions ?_ ?_
      · rw [hqueue]
        exact fun item hitem => ⟨item, hitems ▸ List.mem_cons_of_mem _ hitem, rfl, rfl⟩
      · rw [hqueue]
        exact hdistinct.2
  · have hfinish : finishTask (.handleQueuedJob message) (.returned result) requeue w' = w' := by
      cases result with
      | error e => cases hok
      | ok _ => rfl
    rw [hfinish]
    exact budget_dispatch hbudget hitems hdispatch (by rw [hqueue])

end Delivery

theorem budget_step {w w' : World} (hbudget : Budget none w) (hstep : Step cron cfg w w') :
    Budget none w' := by
  cases hstep with
  | operation henabled hrun => exact budget_operation hbudget henabled hrun
  | delivery requeue htake hrun => exact budget_delivery hbudget htake requeue hrun
  | workers hchange =>
      obtain ⟨registry, workers, news, -⟩ := hchange
      exact budget_queue hbudget rfl rfl (fun item hitem => ⟨item, hitem, rfl, rfl⟩)
        hbudget.distinct

/-- In every run from an empty store and queue, the executions of each job are numbered
from 1 to its stored attempt, and their number stays within the budget. -/
theorem executions_within_budget {w w' : World} (hstore : w.store = .new)
    (hqueue : w.queue.items = []) (hrun : ReflTransGen (Step cron cfg) w w') {id : String}
    {job : Job} (hjob : w'.store.jobs.get? id = some job) : Numbered w'.store id job := by
  have hstart : Budget none w := by
    refine ⟨fun {id job} hjob => ?_, ?_, fun message hmessage => ?_, ?_⟩
    · have hnone : w.store.jobs.get? id = none := by rw [hstore]; exact get?_empty id
      exact absurd (hjob.symm.trans hnone) (Option.some_ne_none job)
    · rintro executionID id attempt ⟨ex, hex, -⟩
      have hnone : w.store.executions.get? executionID = none := by
        rw [hstore]
        exact get?_empty executionID
      exact absurd (hex.symm.trans hnone) (Option.some_ne_none ex)
    · rw [hqueue] at hmessage
      exact absurd hmessage List.not_mem_nil
    · rw [hqueue]
      exact List.nodup_nil
  have hend : Budget none w' := by
    clear hjob
    induction hrun with
    | refl => exact hstart
    | tail _ hlast ih => exact budget_step ih hlast
  exact (hend.jobs hjob).toNumbered

/-- A job whose first execution has failed and whose second is running. -/
theorem retried_job_numbered :
    ∃ (w' : World) (job : Job), ReflTransGen (Step utcOnly smallConfig) idleWorker w' ∧
      w'.store.jobs.get? "job" = some job ∧ job.attempt = 2 ∧
      (∃ executionID, HasAttempt w'.store executionID "job" 2) ∧
      Numbered w'.store "job" job := by
  let failed : ExecutionResult := { success := false, retryable := true, reason := .failed }
  let retried : QueuedJob := { echoMessage with attempt := 1, enqueuedAt := 2 * second }
  let handle := fun (message : QueuedJob) (draws : List Draw) (w : World) =>
    accepting.exec (Task.body utcOnly smallConfig (.handleQueuedJob message))
      { w with queue := w.queue.take.2 } draws
  let created := (perform utcOnly smallConfig accepting (.createJob (some echoRequest))
    (createDraws 1 "job") idleWorker).get (by decide +kernel)
  let first := (handle echoMessage (handleDraws 2 "first") created).get (by decide +kernel)
  let assigned := finishTask (.handleQueuedJob echoMessage) first.1 {} first.2
  let reported := (perform utcOnly smallConfig accepting
    (.handleResult "job" "first" "worker" 1 failed) (sweepDraws 8 3) assigned).get
    (by decide +kernel)
  let promoted := (perform utcOnly smallConfig accepting .promoteDueJobs
    (sweepDraws 6 (2 * second)) reported).get (by decide +kernel)
  let last := (handle retried (handleDraws (2 * second) "second") promoted).get
    (by decide +kernel)
  let reassigned := finishTask (.handleQueuedJob retried) last.1 {} last.2
  have hcreated : Step utcOnly smallConfig idleWorker created :=
    .operation (by decide +kernel : Enabled idleWorker (.createJob (some echoRequest)))
      (performs_of_get _ _ _)
  have hassigned : Step utcOnly smallConfig created assigned :=
    .delivery {} (by decide +kernel) (runs_of_get _)
  have hreported : Step utcOnly smallConfig assigned reported :=
    .operation
      (by decide +kernel : Enabled assigned (.handleResult "job" "first" "worker" 1 failed))
      (performs_of_get _ _ _)
  have hpromoted : Step utcOnly smallConfig reported promoted :=
    .operation (by decide +kernel : Enabled reported .promoteDueJobs) (performs_of_get _ _ _)
  have hreassigned : Step utcOnly smallConfig promoted reassigned :=
    .delivery {} (by decide +kernel) (runs_of_get _)
  have hrun : ReflTransGen (Step utcOnly smallConfig) idleWorker reassigned :=
    ((((ReflTransGen.single hcreated).tail hassigned).tail hreported).tail hpromoted).tail
      hreassigned
  have hstored : ∃ job ∈ reassigned.store.jobs.get? "job", job.attempt = 2 := by
    decide +kernel
  obtain ⟨job, hjob, hattempt⟩ := hstored
  have hnumbered : Numbered reassigned.store "job" job :=
    executions_within_budget rfl rfl hrun hjob
  exact ⟨reassigned, job, hrun, hjob, hattempt,
    (hnumbered.attempts 2).mpr ⟨by decide, hattempt.ge⟩, hnumbered⟩

end Chronos.RetryBudget
