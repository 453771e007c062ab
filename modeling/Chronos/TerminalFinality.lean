import Chronos.LifecycleGraph
import Chronos.ServiceSteps

namespace Chronos.TerminalFinality

open Chronos.ApiServer
open Chronos.Domain
open Chronos.Library.CallProgram
open Chronos.Library.CallMachine
open Chronos.Library.KeyedTable
open Chronos.LifecycleGraph
open Chronos.MemoryStore
open Chronos.Operations
open Chronos.SchedulerRuns
open Chronos.SchedulerService (SchedulerConfig)
open Chronos.ServiceSteps
open Chronos.SharedState
open Chronos.WorkerRegistry (heartbeat)
open Relation

variable {clock : Time → Prop}

def writesOnly (jobID : String) : Call → Prop
  | .updateJobStateIf id _ _ _ => id = jobID
  | .createJob _ => False
  | _ => True

theorem ensures_others {α : Type} {p : Prog α} {jobID id : String}
    (hp : p.CallsOnly (writesOnly jobID)) (hne : id ≠ jobID) (w : World) :
    (steady clock).Ensures p w fun _ w' =>
      w'.store.jobs.get? id = w.store.jobs.get? id := by
  refine ensures_of_calls ?_ hp rfl
  intro c w₁ d hc _ hsame
  rcases step_jobs c w₁ d with hjobs | ⟨job, rfl, -⟩ |
    ⟨id', state, fields, onlyFrom, job, rfl, hjob, -, hput⟩
  · rwa [steady_step, hjobs]
  · exact hc.elim
  · obtain rfl : id' = jobID := hc
    rw [steady_step, hput, get?_put_of_ne _ (by rwa [applyUpdate_id, key_of_get? hjob])]
    exact hsame

theorem cancelJob_calls (id : String) : (cancelJob id).CallsOnly (writesOnly id) := by
  refine (callsOnly_perform ..).mpr ⟨trivial, fun answer => ?_⟩
  cases answer with
  | error e => cases e <;> trivial
  | ok job =>
      dsimp only
      split
      · trivial
      split
      · refine (callsOnly_perform ..).mpr ⟨rfl, fun _ => ?_⟩
        exact (callsOnly_perform ..).mpr ⟨trivial, fun _ => trivial⟩
      · refine (callsOnly_perform ..).mpr ⟨trivial, fun now => ?_⟩
        refine (callsOnly_perform ..).mpr ⟨rfl, fun _ => ?_⟩
        exact (callsOnly_perform ..).mpr ⟨trivial, fun _ => trivial⟩

/-- The two tables of terminal states differ in FAILED and TIMEOUT. -/
theorem cancelRefused_of_terminal {state : JobState} (hterminal : state.terminal)
    (hfailed : state ≠ .failed) (htimeout : state ≠ .timeout) : cancelRefused state := by
  cases state <;> simp_all [JobState.terminal, cancelRefused]

theorem cancelJob_keeps {id : String} {w : World} {job : Job}
    (hjob : w.store.jobs.get? id = some job) (hrefused : cancelRefused job.state) :
    (steady clock).Ensures (cancelJob id) w fun _ w' => w'.store.jobs = w.store.jobs := by
  refine ensures_perform fun d hd => ?_
  simp only [steady_step, step, guarded_of_none (hd.2.1 rfl), getJob_of_some hjob,
    if_pos hrefused]
  exact ensures_ret rfl

theorem announceJob_writes (job : Job) (now : Time) :
    (announceJob job now).CallsOnly (writesOnly job.id) := by
  refine callsOnly_mono (announceJob_calls job now) fun c hc => ?_
  cases c with
  | updateJobStateIf => exact hc.1
  | createJob => exact hc
  | _ => trivial

theorem announceJob_quiet {job : Job} {now : Time} (hdue : jobDue job now = false) :
    (announceJob job now).CallsOnly fun c => c.quiet := by
  refine (callsOnly_perform ..).mpr ⟨rfl, fun _ => ?_⟩
  refine (callsOnly_perform ..).mpr ⟨rfl, fun _ => ?_⟩
  rw [hdue]
  trivial

theorem announceJob_keeps {id : String} {job : Job} {now : Time}
    (hjob : jobDue job now → id ≠ job.id) (w : World) :
    (steady clock).Ensures (announceJob job now) w fun _ w' =>
      w'.store.jobs.get? id = w.store.jobs.get? id := by
  cases hdue : jobDue job now with
  | true => exact ensures_others (announceJob_writes job now) (hjob hdue) w
  | false =>
      refine ensures_mono (ensures_quiet (announceJob_quiet hdue) w) fun _ _ h => ?_
      rw [h.1]

/-- A request touches no other stored job than the one its key is bound to, and
that one only if it is due. -/
theorem submitJob_keeps {w : World} {id : String} (job : Job) {old : Job} {now : Time}
    (hid : job.id ≠ "") (hold : w.store.jobs.get? id = some old) (hne : id ≠ job.id)
    (hbound : job.idempotencyKey ≠ "" →
      w.store.byIdem.lookup job.idempotencyKey = some id → jobDue old now = false) :
    (steady clock).Ensures (submitJob job now) w fun _ w' =>
      w'.store.jobs.get? id = some old := by
  refine ensures_perform fun d hd => ?_
  simp only [steady_step, step, guarded_of_none (hd.2.1 rfl)]
  have hkey : (stampJob job d.uuid d.now).id = job.id := if_neg hid
  have hnew : ∀ jobs : JobTable, jobs = w.store.jobs.put (stampJob job d.uuid d.now) →
      jobs.get? id = some old := by
    rintro _ rfl
    rw [get?_put_of_ne _ (by rwa [hkey]), hold]
  unfold Store.createJob
  dsimp only
  split
  · refine ensures_mono (announceJob_keeps (fun _ => by rwa [hkey]) _) fun _ _ h => ?_
    exact h.trans (hnew _ rfl)
  · rename_i hnonempty
    split
    · rename_i boundID hlookup
      obtain ⟨J, hJ⟩ := w.store.bound hlookup
      rw [hJ]
      refine ensures_mono (announceJob_keeps (fun hdue hsame => ?_) _) fun _ _ h => h.trans hold
      obtain rfl : id = boundID := hsame.trans (key_of_get? hJ)
      obtain rfl := Option.some.inj (hJ.symm.trans hold)
      simp [hbound hnonempty hlookup] at hdue
    · refine ensures_mono (announceJob_keeps (fun _ => by rwa [hkey]) _) fun _ _ h => ?_
      exact h.trans (hnew _ rfl)

theorem createJob_keeps {cron : Cron} {w w' : World} {id : String} {old : Job}
    {req : CreateJobRequest} {ds : List Draw} {response : Response}
    (hold : w.store.jobs.get? id = some old)
    (hbound : req.idempotencyKey ≠ "" → w.store.byIdem.lookup req.idempotencyKey = some id →
      ∀ d ∈ ds[1]?, jobDue old d.now = false)
    (hrun : (steady clock).Runs (createJob cron (some req)) w ds response w') :
    w'.store.jobs.get? id = some old := by
  obtain ⟨d₀, ds, rfl, -, hrun⟩ := runs_perform_iff.mp hrun
  simp only [steady_step, step] at hrun
  split at hrun
  · obtain ⟨-, -, rfl⟩ := runs_ret_iff.mp hrun
    exact hold
  · rename_i checked hvalid
    obtain ⟨d₁, ds, rfl, -, hrun⟩ := runs_perform_iff.mp hrun
    obtain ⟨d₂, ds, rfl, hfresh, hrun⟩ := runs_perform_iff.mp hrun
    simp only [steady_step, step] at hrun
    split at hrun
    · obtain ⟨-, -, rfl⟩ := runs_ret_iff.mp hrun
      exact hold
    · rename_i runAt _
      have huuid : Fresh w d₂.uuid := hfresh.1
      refine submitJob_keeps (w := { w with issued := d₂.uuid :: w.issued })
        (newJob checked d₂.uuid runAt) huuid.1 hold ?_ ?_ ds response w' hrun
      · rintro rfl
        exact huuid.2.2.1 (mem_keys.mpr ⟨old, hold⟩)
      · have hkey : (newJob checked d₂.uuid runAt).idempotencyKey = req.idempotencyKey :=
          checkRequest_key hvalid
        rw [hkey]
        exact fun hnonempty hlookup => hbound hnonempty hlookup d₁ rfl

/-- The operation does not cancel a FAILED or TIMEOUT job, and does not repeat a
create request whose key is bound to a terminal job that is due by now. -/
def Respectful (task : Task) (ds : List Draw) (w : World) : Prop :=
  match task with
  | .cancelJob id => w.jobState id ≠ some .failed ∧ w.jobState id ≠ some .timeout
  | .createJob (some req) => req.idempotencyKey ≠ "" →
      ∀ id ∈ w.store.byIdem.lookup req.idempotencyKey, ∀ job ∈ w.store.jobs.get? id,
        job.state.terminal → ∀ d ∈ ds[1]?, jobDue job d.now = false
  | _ => True

theorem respectful_step {cron : Cron} {cfg : SchedulerConfig} {task : Task} {ds : List Draw}
    {outcome : Outcome} {w w' : World} {id : String} {job : Job}
    (hjob : w.store.jobs.get? id = some job) (hterminal : job.state.terminal)
    (hrun : (steady clock).Runs (task.body cron cfg) w ds outcome w')
    (hrespectful : Respectful task ds w) : w'.store.jobs.get? id = some job := by
  cases task with
  | createJob body =>
      obtain ⟨first, rest, response, t, rfl, hrun, hret⟩ := runs_bind_iff.mp hrun
      obtain ⟨rfl, -, rfl⟩ := runs_ret_iff.mp hret
      rw [List.append_nil] at hrespectful
      cases body with
      | none =>
          obtain ⟨-, -, rfl⟩ := runs_ret_iff.mp hrun
          exact hjob
      | some req =>
          refine createJob_keeps hjob ?_ hrun
          exact fun hnonempty hlookup => hrespectful hnonempty id hlookup job hjob hterminal
  | cancelJob cancelled =>
      refine ensures_return (Q := fun w' => w'.store.jobs.get? id = some job) ?_ ds outcome w'
        hrun
      by_cases hid : id = cancelled
      · subst hid
        have hstate : w.jobState id = some job.state := by rw [World.jobState, hjob]; rfl
        have hrefused := cancelRefused_of_terminal hterminal
          (fun h => hrespectful.1 (by rw [hstate, h]))
          (fun h => hrespectful.2 (by rw [hstate, h]))
        refine ensures_mono (cancelJob_keeps hjob hrefused) fun _ _ h => ?_
        rw [h, hjob]
      · exact ensures_mono (ensures_others (cancelJob_calls cancelled) hid w)
          fun _ _ h => h.trans hjob
  | _ =>
      exact terminal_of_advances (scheduler_advances cron cfg rfl w ds outcome w' hrun) hjob
        hterminal

/-- In every run of respectful operations a terminal state is final. -/
theorem terminal_states_final (cron : Cron) (cfg : SchedulerConfig) {w w' : World}
    {id : String} {state : JobState} (hstate : w.jobState id = some state)
    (hterminal : state.terminal)
    (hrun : Reaches (Completes cron cfg (steady fun _ => True)) Respectful w w') :
    w'.jobState id = some state := by
  obtain ⟨job, hjob, rfl⟩ := Option.map_eq_some_iff.mp hstate
  have hkept : w'.store.jobs.get? id = some job := by
    induction hrun with
    | refl => exact hjob
    | tail _ hlast ih =>
        obtain ⟨operation, hstep, hrespectful⟩ := hlast
        cases hstep with
        | task hserves =>
            obtain ⟨outcome, hserved⟩ := hserves
            exact respectful_step ih hterminal hserved hrespectful
        | workers hchange =>
            obtain ⟨registry, workers, news, -⟩ := hchange
            exact ih
  rw [World.jobState, hkept]
  rfl

def failedForGood : Task :=
  .handleResult "job" "first" "worker" 1 { success := false, error := "boom" }

/-- A job that has FAILED is cancelled, and a repeated create request then puts it
back on the queue. -/
theorem failed_job_cancelled_and_requeued :
    ∃ w₀ w₁ w₂ w₃ w₄ : World,
      Performs utcOnly smallConfig memory (.createJob (some keyedRequest)) idleWorker w₀ ∧
      echoMessage ∈ w₀.queue.items ∧
      Performs utcOnly smallConfig memory (.handleQueuedJob echoMessage) w₀ w₁ ∧
      Performs utcOnly smallConfig memory failedForGood w₁ w₂ ∧
      w₂.jobState "job" = some .failed ∧
      Performs utcOnly smallConfig memory (.cancelJob "job") w₂ w₃ ∧
      w₃.jobState "job" = some .cancelled ∧
      Performs utcOnly smallConfig memory (.createJob (some keyedRequest)) w₃ w₄ ∧
      w₄.jobState "job" = some .queued := by
  let w₀ := (perform utcOnly smallConfig memory (.createJob (some keyedRequest))
    (createDraws 1 "job") idleWorker).get (by decide +kernel)
  let w₁ := (perform utcOnly smallConfig memory (.handleQueuedJob echoMessage)
    (handleDraws 2 "first") w₀).get (by decide +kernel)
  let w₂ := (perform utcOnly smallConfig memory failedForGood (sweepDraws 7 3) w₁).get
    (by decide +kernel)
  let w₃ := (perform utcOnly smallConfig memory (.cancelJob "job") (sweepDraws 4 4) w₂).get
    (by decide +kernel)
  let w₄ := (perform utcOnly smallConfig memory (.createJob (some keyedRequest))
    (createDraws 5 "other") w₃).get (by decide +kernel)
  exact ⟨w₀, w₁, w₂, w₃, w₄, performs_of_get _ _ _, by decide +kernel,
    performs_of_get _ _ _, performs_of_get _ _ _, by decide +kernel, performs_of_get _ _ _,
    by decide +kernel, performs_of_get _ _ _, by decide +kernel⟩

/-- A late report of success and a heartbeat after it. -/
theorem failed_job_stays_failed :
    ∃ w', Reaches (Completes utcOnly smallConfig (steady fun _ => True)) Respectful
        (oneWorker (echoJob .failed) []) w' ∧ w'.jobState "job" = some .failed := by
  let late : Task := .handleResult "job" "first" "worker" 1 succeeded
  let w := (perform utcOnly smallConfig (steady fun _ => True) late (sweepDraws 3 5)
    (oneWorker (echoJob .failed) [])).get (by decide +kernel)
  let w' := (heartbeat w "worker" 0 1 {}).2
  have hreaches : Reaches (Completes utcOnly smallConfig (steady fun _ => True)) Respectful
      (oneWorker (echoJob .failed) []) w' :=
    (ReflTransGen.single ⟨_, completes_of_get utcOnly smallConfig _, trivial⟩).tail
      ⟨_, .workers (heartbeat_change w "worker" 0 1 {}), trivial⟩
  exact ⟨w', hreaches,
    terminal_states_final utcOnly smallConfig (by decide +kernel) rfl hreaches⟩

end Chronos.TerminalFinality
