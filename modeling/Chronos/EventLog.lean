import Chronos.LifecycleGraph
import Chronos.InformedRuns
import Chronos.ServiceSteps

namespace Chronos.EventLog

open Chronos.ApiServer (announceJob enqueueJob newJob submitJob)
open Chronos.Domain
open Chronos.InformedRuns (snapshot_collectDue)
open Chronos.Library.CallProgram
open Chronos.Library.CallMachine
open Chronos.Library.KeyedTable
open Chronos.LifecycleGraph (Snapshot snapshot_append snapshot_collect)
open Chronos.MemoryStore
open Chronos.Operations
open Chronos.SchedulerService
open Chronos.ServiceSteps (AboutWorker WorkersChange registerWorker_change)
open Chronos.SharedState
open Chronos.WorkerRegistry (registerWorker)

/-- What the events of a job tell about it. -/
structure Status where
  state : JobState
  attempt : Int
  workerID : String
  executionID : String
  deriving DecidableEq, Repr

def status (job : Job) : Status :=
  ⟨job.state, job.attempt, job.workerID, job.executionID⟩

/-- How one event moves a job on.  JOB_CREATED says nothing that JOB_SCHEDULED does not say
after it, and both are sent again for a request that repeats the key of a known job. -/
def applyEvent (known : Option Status) (event : Event) : Option Status :=
  match event.eventType with
  | .jobScheduled => known.or (some ⟨.scheduled, 0, "", ""⟩)
  | .jobQueued => known.map fun s => { s with state := .queued }
  | .jobAssigned =>
      known.map fun _ => ⟨.assigned, event.attempt, event.workerID, event.executionID⟩
  | .jobStarted => known.map fun s => { s with state := .running }
  | .jobCompleted => known.map fun s => { s with state := .completed }
  | .jobFailed => known.map fun s => { s with state := .failed }
  | .jobTimeout => known.map fun s => { s with state := .timeout }
  | .jobRetryScheduled => known.map fun s => ⟨.retrying, s.attempt, "", ""⟩
  | .jobCancelRequested => known.map fun s => { s with state := .cancelRequested }
  | .jobCancelled => known.map fun s => { s with state := .cancelled }
  | _ => known

/-- The job as its own events tell it, from the first to the last. -/
def replay (events : List Event) (id : String) : Option Status :=
  (events.filter fun event => event.jobID = id).foldl applyEvent none

theorem replay_append (events : List Event) (event : Event) :
    replay (events ++ [event]) =
      Function.update (replay events) event.jobID
        (applyEvent (replay events event.jobID) event) := by
  funext id
  rw [replay, List.filter_append, List.foldl_append]
  by_cases hid : id = event.jobID
  · subst hid
    simp [replay]
  · rw [Function.update_of_ne hid]
    simp [replay, Ne.symm hid]

def statuses (w : World) (id : String) : Option Status :=
  (w.store.jobs.get? id).map status

/-- The log tells of every job what the store holds. -/
def Recorded (w : World) : Prop :=
  replay w.events = statuses w

def isEmit : Call → Bool
  | .emit _ => true
  | _ => false

/-- A store that takes every write and an outbox that takes every event, while the queue and
the network may fail. -/
def recording : Machine Call Answer World Draw where
  step := step
  Allowed := fun w c d => Sound w c d ∧ (c.ofStore ∨ isEmit c → d.fault = none)

instance (w : World) (c : Call) (d : Draw) : Decidable (recording.Allowed w c d) :=
  inferInstanceAs (Decidable (_ ∧ (_ → _)))

/-- In the middle of an operation on one job, when the log and the store may tell different
things about it.  What is known of the other jobs does not change. -/
structure Tracks (known : String → Option Status) (id : String) (logged stored : Option Status)
    (w : World) : Prop where
  events : replay w.events = Function.update known id logged
  jobs : statuses w = Function.update known id stored

variable {known : String → Option Status} {id : String} {logged stored : Option Status}
  {s t : Status} {w w' : World} {α : Type} {Q : α → World → Prop}

theorem tracks_of_recorded (h : Recorded w) (id : String) :
    Tracks (statuses w) id (statuses w id) (statuses w id) w where
  events := by rw [Function.update_eq_self, h]
  jobs := by rw [Function.update_eq_self]

theorem recorded_of_tracks (h : Tracks known id stored stored w) : Recorded w :=
  h.events.trans h.jobs.symm

theorem statuses_of_tracks (h : Tracks known id logged stored w) (other : String) :
    statuses w other = if other = id then stored else known other := by
  rw [h.jobs, Function.update_apply]

theorem tracks_frame (h : Tracks known id logged stored w) (hevents : w'.events = w.events)
    (hjobs : w'.store.jobs = w.store.jobs) : Tracks known id logged stored w' where
  events := by rw [hevents, h.events]
  jobs := by
    rw [← h.jobs]
    funext other
    rw [statuses, hjobs, statuses]

section Rules

theorem ensures_emit {event : Event} {f : Except Err Unit → Prog α}
    (h : Tracks known id logged stored w) (hid : event.jobID = id)
    (hnext : ∀ w', Tracks known id (applyEvent logged event) stored w' →
      recording.Ensures (f (.ok ())) w' Q) :
    recording.Ensures (ask (.emit event) >>= f) w Q := by
  refine ensures_perform fun d hd => ?_
  have hfault := hd.2 (Or.inr rfl)
  simp only [recording, step, guarded_of_none hfault]
  refine hnext _ ⟨?_, h.jobs⟩
  subst hid
  rw [replay_append, h.events, Function.update_self, Function.update_idem]

/-- An event that is about no job. -/
theorem ensures_emitOther {event : Event} {f : Except Err Unit → Prog α} (hw : Recorded w)
    (hother : ∀ known, applyEvent known event = known)
    (hnext : ∀ w', Recorded w' → recording.Ensures (f (.ok ())) w' Q) :
    recording.Ensures (ask (.emit event) >>= f) w Q := by
  refine ensures_emit (tracks_of_recorded hw event.jobID) rfl fun w' h => ?_
  rw [hother] at h
  exact hnext w' (recorded_of_tracks h)

def Status.write (s : Status) (state : JobState) (fields : Fields) : Status :=
  ⟨state, fields.attempt.getD s.attempt, fields.workerID.getD s.workerID,
    fields.executionID.getD s.executionID⟩

theorem ensures_write {state : JobState} {fields : Fields} {onlyFrom : List JobState}
    {f : Except Err Unit → Prog α} (h : Tracks known id logged (some s) w)
    (hguard : onlyFrom = [] ∨ s.state ∈ onlyFrom)
    (hnext : ∀ w', Tracks known id logged (some (s.write state fields)) w' →
      recording.Ensures (f (.ok ())) w' Q) :
    recording.Ensures (ask (.updateJobStateIf id state fields onlyFrom) >>= f) w Q := by
  refine ensures_perform fun d hd => ?_
  have hfault := hd.2 (Or.inl rfl)
  have hstatus : statuses w id = some s := by rw [h.jobs, Function.update_self]
  obtain ⟨job, hjob, rfl⟩ := Option.map_eq_some_iff.mp hstatus
  simp only [recording, step, guarded_of_none hfault,
    updateJobStateIf_of_some hjob state fields hguard]
  refine hnext _ ⟨h.events, ?_⟩
  funext other
  rw [statuses, putJob_jobs, get?_put, applyUpdate_id, key_of_get? hjob, Function.update_apply]
  split
  · rfl
  · rename_i hother
    have hkept := statuses_of_tracks h other
    rwa [if_neg hother] at hkept

/-- A call that writes neither the job table nor the outbox. -/
theorem ensures_quiet {c : Call} {f : Answer c → Prog α} (h : Tracks known id logged stored w)
    (hc : c.writesJobs = false) (hemit : isEmit c = false)
    (hnext : ∀ answer w', Tracks known id logged stored w' →
      recording.Ensures (f answer) w' Q) : recording.Ensures (ask c >>= f) w Q := by
  refine ensures_perform fun d _ => hnext _ _ ?_
  refine tracks_frame h ?_ (jobs_step hc w d)
  rcases events_step c w d with hsame | ⟨event, rfl, -⟩
  · exact hsame
  · cases hemit

theorem ensures_idle {c : Call} {f : Answer c → Prog α} (hw : Recorded w)
    (hc : c.writesJobs = false) (hemit : isEmit c = false)
    (hnext : ∀ answer w', Recorded w' → recording.Ensures (f answer) w' Q) :
    recording.Ensures (ask c >>= f) w Q :=
  ensures_quiet (tracks_of_recorded hw "") hc hemit fun answer w' h =>
    hnext answer w' (recorded_of_tracks h)

theorem ensures_getJob {f : Except Err Job → Prog α} (hw : Recorded w)
    (hmissing : recording.Ensures (f (.error .notFound)) w Q)
    (hfound : ∀ job, Tracks (statuses w) id (some (status job)) (some (status job)) w →
      recording.Ensures (f (.ok job)) w Q) :
    recording.Ensures (ask (.getJob id) >>= f) w Q := by
  refine ensures_perform fun d hd => ?_
  have hfault := hd.2 (Or.inl rfl)
  simp only [recording, step, guarded_of_none hfault]
  have htracks := tracks_of_recorded hw id
  cases hjob : w.store.jobs.get? id with
  | none =>
      rw [getJob_of_none hjob]
      exact hmissing
  | some job =>
      rw [getJob_of_some hjob]
      rw [show statuses w id = some (status job) by rw [statuses, hjob, Option.map_some]] at htracks
      exact hfound job htracks

end Rules

section Results

theorem closeExecution_tracks (executionID : String) (state : ExecutionState)
    (result : ExecutionResult) (h : Tracks known id logged stored w) :
    recording.Ensures (closeExecution executionID state result) w fun _ w' =>
      Tracks known id logged stored w' := by
  unfold closeExecution
  split
  · exact ensures_ret h
  · exact ensures_quiet h rfl rfl fun _ _ h => ensures_ret h

theorem scheduleRetry_records (job : Job) (executionID workerID : String) (attempt : Int)
    (now : Time) (lastError : String) {state : JobState}
    (h : Tracks known id (some { s with state := state }) (some s) w) :
    recording.Ensures (scheduleRetry job id executionID workerID attempt now lastError) w
      fun _ w' => Recorded w' := by
  have hdelay : recording.Ensures (backoffDelay job.retryPolicy attempt) w fun _ w' =>
      Tracks known id (some { s with state := state }) (some s) w' := by
    unfold backoffDelay
    split
    · exact ensures_quiet h rfl rfl fun _ _ h => ensures_ret h
    · exact ensures_ret h
  refine ensures_bind (ensures_mono hdelay fun delay w h => ?_)
  refine ensures_write h (Or.inl rfl) fun w h => ?_
  exact ensures_emit h rfl fun w h => ensures_ret (recorded_of_tracks h)

/-- A new job is in the store and not in the log; a known one is in both. -/
def Opens (logged : Option Status) (s : Status) : Prop :=
  logged = some s ∨ logged = none ∧ s = ⟨.scheduled, 0, "", ""⟩

theorem applyEvent_scheduled (hopens : Opens logged s) {event : Event}
    (hevent : event.eventType = .jobScheduled) : applyEvent logged event = some s := by
  rw [applyEvent, hevent]
  rcases hopens with rfl | ⟨rfl, rfl⟩ <;> rfl

theorem ensures_create {job : Job} {f : Except Err Job → Prog α} (hw : Recorded w)
    (habsent : job.id = "" ∨ w.store.jobs.get? job.id = none)
    (hnew : status job = ⟨.scheduled, 0, "", ""⟩)
    (hnext : ∀ J logged t w', Opens logged t → Tracks (statuses w) J.id logged (some t) w' →
      recording.Ensures (f (.ok J)) w' Q) :
    recording.Ensures (ask (.createJob job) >>= f) w Q := by
  refine ensures_perform fun d hd => ?_
  have hfault := hd.2 (Or.inl rfl)
  have hnone : w.store.jobs.get? (stampJob job d.uuid d.now).id = none := by
    by_cases hid : job.id = ""
    · have hfresh : Fresh w d.uuid := hd.1 hid
      rw [stampJob, if_pos hid]
      exact notMem_keys.mp hfresh.2.2.1
    · rw [stampJob, if_neg hid]
      exact habsent.resolve_left hid
  have hput : ∀ w' : World, w'.events = w.events →
      w'.store.jobs = w.store.jobs.put (stampJob job d.uuid d.now) →
      recording.Ensures (f (.ok (stampJob job d.uuid d.now))) w' Q := by
    intro w' hevents hjobs
    refine hnext _ none ⟨.scheduled, 0, "", ""⟩ w' (Or.inr ⟨rfl, rfl⟩) ⟨?_, ?_⟩
    · rw [hevents, hw]
      refine (Function.update_eq_self_iff.mpr ?_).symm
      rw [statuses, hnone, Option.map_none]
    · funext other
      rw [statuses, hjobs, get?_put, Function.update_apply]
      split
      · exact congrArg some hnew
      · rfl
  simp only [recording, step, guarded_of_none hfault, Store.createJob]
  split
  · exact hput _ rfl rfl
  · split
    · rename_i id hlookup
      obtain ⟨J, hJ⟩ := w.store.bound hlookup
      have hstatus : statuses w J.id = some (status J) := by
        rw [statuses, key_of_get? hJ, hJ, Option.map_some]
      rw [hJ, Option.getD_some]
      refine hnext J (some (status J)) (status J) _ (Or.inl rfl) ?_
      have htracks := tracks_of_recorded hw J.id
      rwa [hstatus] at htracks
    · exact hput _ rfl rfl

theorem maybeRescheduleRecurring_records (cron : Cron) (job : Job) (start : Time)
    (hw : Recorded w) :
    recording.Ensures (maybeRescheduleRecurring cron job start) w fun _ w' => Recorded w' := by
  unfold maybeRescheduleRecurring
  split
  · exact ensures_ret hw
  split
  · exact ensures_ret hw
  · refine ensures_create hw (Or.inl rfl) rfl fun child logged t w' hopens h => ?_
    refine ensures_emit h rfl fun w' h => ensures_ret ?_
    rw [applyEvent_scheduled hopens rfl] at h
    exact recorded_of_tracks h

theorem settleResult_records (cron : Cron) (job : Job) (executionID workerID : String)
    (attempt : Int) (result : ExecutionResult) (now : Time)
    (h : Tracks known id (some s) (some s) w) :
    recording.Ensures (settleResult cron job id executionID workerID attempt result now) w
      fun _ w' => Recorded w' := by
  have hclose (state : ExecutionState) :=
    closeExecution_tracks executionID state result h
  unfold settleResult
  split
  · refine ensures_bind (ensures_mono (hclose _) fun _ w h => ?_)
    refine ensures_write h (Or.inl rfl) fun w h => ?_
    exact ensures_emit h rfl fun w h => ensures_ret (recorded_of_tracks h)
  split
  · refine ensures_bind (ensures_mono (hclose _) fun _ w h => ?_)
    refine ensures_write h (Or.inl rfl) fun w h => ?_
    refine ensures_emit h rfl fun w h => ?_
    exact maybeRescheduleRecurring_records cron job now (recorded_of_tracks h)
  split
  · refine ensures_bind (ensures_mono (hclose _) fun _ w h => ?_)
    refine ensures_emit h rfl fun w h => ?_
    split
    · exact scheduleRetry_records job executionID workerID attempt now "timeout" h
    · exact ensures_write h (Or.inl rfl) fun w h => ensures_ret (recorded_of_tracks h)
  · refine ensures_bind (ensures_mono (hclose _) fun _ w h => ?_)
    refine ensures_emit h rfl fun w h => ?_
    split
    · exact scheduleRetry_records job executionID workerID attempt now result.error h
    · exact ensures_write h (Or.inl rfl) fun w h => ensures_ret (recorded_of_tracks h)

theorem handleResult_records (cron : Cron) (jobID executionID workerID : String)
    (attempt : Int) (result : ExecutionResult) (hw : Recorded w) :
    recording.Ensures (handleResult cron jobID executionID workerID attempt result) w
      fun _ w' => Recorded w' := by
  refine ensures_idle hw rfl rfl fun _ w hw => ?_
  refine ensures_idle hw rfl rfl fun _ w hw => ?_
  refine ensures_getJob hw (ensures_ret hw) fun job h => ?_
  dsimp only
  split
  · exact ensures_ret hw
  · refine ensures_quiet h rfl rfl fun now w h => ensures_bind ?_
    refine ensures_mono (settleResult_records cron job executionID workerID attempt
      (withReason result) now h) fun _ w hw => ?_
    exact ensures_ret hw

end Results

section Dispatches

theorem pushJob_records (message : QueuedJob) (wc : WorkerConn) (executionID : String)
    (now : Time) (h : Tracks known message.jobID (some s) (some s) w) :
    recording.Ensures (pushJob message wc executionID now) w fun _ w' => Recorded w' := by
  refine ensures_quiet h rfl rfl fun reply w h => ?_
  split
  · exact ensures_ret (recorded_of_tracks h)
  · refine ensures_write h (Or.inl rfl) fun w h => ?_
    refine ensures_emit h rfl fun w h => ?_
    exact ensures_quiet h rfl rfl fun _ w h =>
      ensures_ret (recorded_of_tracks h)

theorem assignJob_records (message : QueuedJob) (wc : WorkerConn)
    (h : Tracks known message.jobID (some s) (some s) w) :
    recording.Ensures (assignJob message wc) w fun _ w' => Recorded w' := by
  refine ensures_quiet h rfl rfl fun executionID w h => ?_
  refine ensures_quiet h rfl rfl fun created w h => ?_
  cases created with
  | error e => exact ensures_ret (recorded_of_tracks h)
  | ok _ =>
      refine ensures_quiet h rfl rfl fun now w h => ?_
      refine ensures_write h (Or.inl rfl) fun w h => ?_
      refine ensures_emit h rfl fun w h => ?_
      exact pushJob_records _ wc executionID now h

theorem handleQueuedJob_records (message : QueuedJob) (hw : Recorded w) :
    recording.Ensures (handleQueuedJob message) w fun _ w' => Recorded w' := by
  refine ensures_getJob hw (ensures_ret hw) fun job h => ?_
  dsimp only
  split
  · refine ensures_quiet h rfl rfl fun picked w h => ?_
    cases picked with
    | none => exact ensures_ret (recorded_of_tracks h)
    | some wc => exact assignJob_records message wc h
  · exact ensures_ret hw

end Dispatches

section Requests

theorem enqueueJob_records (job : Job) (h : Tracks known job.id (some s) (some s) w) :
    recording.Ensures (enqueueJob job) w fun _ w' => Recorded w' := by
  refine ensures_quiet h rfl rfl fun now w h => ?_
  refine ensures_quiet h rfl rfl fun enqueued w h => ?_
  cases enqueued with
  | error e => exact ensures_ret (recorded_of_tracks h)
  | ok _ =>
      refine ensures_emit h rfl fun w h => ?_
      exact ensures_write h (Or.inl rfl) fun w h => ensures_ret (recorded_of_tracks h)

theorem submitJob_records (job : Job) (now : Time) (hw : Recorded w)
    (habsent : w.store.jobs.get? job.id = none)
    (hnew : status job = ⟨.scheduled, 0, "", ""⟩) :
    recording.Ensures (submitJob job now) w fun _ w' => Recorded w' := by
  refine ensures_create hw (Or.inr habsent) hnew fun J logged t w hopens h => ?_
  refine ensures_emit h rfl fun w h => ensures_emit h rfl fun w h => ?_
  rw [applyEvent_scheduled (by exact hopens) rfl] at h
  split
  · refine ensures_bind (ensures_mono (enqueueJob_records J h) fun answer w hw => ?_)
    cases answer <;> exact ensures_ret hw
  · exact ensures_ret (recorded_of_tracks h)

theorem createJob_records (cron : Cron) (body : Option CreateJobRequest) (hw : Recorded w) :
    recording.Ensures (ApiServer.createJob cron body) w fun _ w' => Recorded w' := by
  cases body with
  | none => exact ensures_ret hw
  | some req =>
      refine ensures_idle hw rfl rfl fun checkedAt w hw => ?_
      split
      · exact ensures_ret hw
      · refine ensures_idle hw rfl rfl fun now w hw => ?_
        refine ensures_perform fun d hd => ?_
        have hfresh : Fresh w d.uuid := hd.1
        split
        · exact ensures_ret hw
        · exact submitJob_records _ now hw (notMem_keys.mp hfresh.2.2.1) rfl

theorem cancelJob_records (id : String) (hw : Recorded w) :
    recording.Ensures (ApiServer.cancelJob id) w fun _ w' => Recorded w' := by
  refine ensures_getJob hw (ensures_ret hw) fun job h => ?_
  dsimp only
  split
  · exact ensures_ret hw
  split
  · refine ensures_write h (Or.inl rfl) fun w h => ?_
    exact ensures_emit h rfl fun w h => ensures_ret (recorded_of_tracks h)
  · refine ensures_quiet h rfl rfl fun now w h => ?_
    refine ensures_write h (Or.inl rfl) fun w h => ?_
    exact ensures_emit h rfl fun w h => ensures_ret (recorded_of_tracks h)

end Requests

section Sweeps

/-- A loop over listed jobs, each of which it takes from one recorded status to another. -/
theorem ensures_eachJob {jobs : List Job} {P : JobState → Prop} {body : Job → Prog Unit}
    (hbody : ∀ job known s w, P s.state → Tracks known job.id (some s) (some s) w →
      recording.Ensures (body job) w fun _ w' => ∃ t, Tracks known job.id (some t) (some t) w')
    (hw : Recorded w) (hlisted : Snapshot w.store.jobs P jobs) :
    recording.Ensures (forEach jobs body) w fun _ w' => Recorded w' := by
  refine ensures_mono (ensures_forEach (I := fun rest w => Recorded w ∧
    (rest.map Job.id).Nodup ∧ ∀ job ∈ rest, ∃ s, statuses w job.id = some s ∧ P s.state) ?_
    ⟨hw, hlisted.nodup, fun job hjob => ?_⟩) fun _ _ h => h.1
  · rintro job rest w ⟨hw, hnodup, hstored⟩
    obtain ⟨hfirst, hrest⟩ := List.nodup_cons.mp hnodup
    obtain ⟨s, hs, hP⟩ := hstored job List.mem_cons_self
    have htracks := tracks_of_recorded hw job.id
    rw [hs] at htracks
    refine ensures_mono (hbody job _ s w hP htracks) ?_
    rintro _ w' ⟨t, htracks'⟩
    refine ⟨recorded_of_tracks htracks', hrest, fun other hother => ?_⟩
    have hne : other.id ≠ job.id := by
      intro hid
      exact hfirst (List.mem_map.mpr ⟨other, hother, hid⟩)
    rw [statuses_of_tracks htracks', if_neg hne]
    exact hstored other (List.mem_cons_of_mem job hother)
  · refine ⟨status job, ?_, hlisted.states job hjob⟩
    rw [statuses, hlisted.stored job hjob, Option.map_some]

theorem promoteJob_tracks (job : Job) (hs : s.state = .scheduled ∨ s.state = .retrying)
    (h : Tracks known job.id (some s) (some s) w) :
    recording.Ensures (promoteJob job) w fun _ w' =>
      ∃ t, Tracks known job.id (some t) (some t) w' := by
  refine ensures_quiet h rfl rfl fun enqueuedAt w h => ?_
  refine ensures_quiet h rfl rfl fun enqueued w h => ?_
  cases enqueued with
  | error e => exact ensures_ret ⟨s, h⟩
  | ok _ =>
      refine ensures_quiet h rfl rfl fun now w h => ?_
      refine ensures_write h (Or.inr ?_) fun w h => ?_
      · rcases hs with hs | hs <;> simp [hs]
      · exact ensures_emit h rfl fun w h => ensures_ret ⟨_, h⟩

theorem promoteDueJobs_records (cfg : SchedulerConfig) (hw : Recorded w) :
    recording.Ensures (promoteDueJobs cfg) w fun _ w' => Recorded w' := by
  refine ensures_perform fun d hd => ?_
  simp only [recording, step, guarded_of_none (hd.2 (Or.inl rfl))]
  refine ensures_bind (ensures_mono (ensures_eachJob ?_ hw
    (snapshot_collectDue hd.1 d.now cfg.assignBatchSize)) fun _ _ hw => ensures_ret hw)
  intro job known s w hs h
  exact promoteJob_tracks job hs h

theorem pushCancel_tracks (job : Job) (h : Tracks known job.id (some s) (some s) w) :
    recording.Ensures (pushCancel job) w fun _ w' =>
      ∃ t, Tracks known job.id (some t) (some t) w' := by
  unfold pushCancel
  split
  · refine ensures_quiet h rfl rfl fun now w h => ?_
    refine ensures_write h (Or.inl rfl) fun w h => ?_
    exact ensures_emit h rfl fun w h => ensures_ret ⟨_, h⟩
  · refine ensures_quiet h rfl rfl fun found w h => ?_
    cases found with
    | none => exact ensures_ret ⟨s, h⟩
    | some wc =>
        exact ensures_quiet h rfl rfl fun _ w h => ensures_ret ⟨s, h⟩

theorem pushPendingCancels_records (cfg : SchedulerConfig) (hw : Recorded w) :
    recording.Ensures (pushPendingCancels cfg) w fun _ w' => Recorded w' := by
  refine ensures_perform fun d hd => ?_
  simp only [recording, step, guarded_of_none (hd.2 (Or.inl rfl))]
  have hlisted : Snapshot w.store.jobs (· = .cancelRequested)
      (w.store.listCancelRequested d.order cfg.assignBatchSize) :=
    snapshot_collect hd.1 (fun job hjob => by simpa using hjob) _
  refine ensures_bind (ensures_mono (ensures_eachJob ?_ hw hlisted) fun _ _ hw => ensures_ret hw)
  intro job known s w _ h
  exact pushCancel_tracks job h

theorem watchdogTimeout_records (cron : Cron) (job : Job) (hw : Recorded w) :
    recording.Ensures (watchdogTimeout cron job) w fun _ w' => Recorded w' := by
  have hstop : recording.Ensures (stopExecution job) w fun _ w' => Recorded w' := by
    unfold stopExecution
    split
    · exact ensures_ret hw
    · refine ensures_idle hw rfl rfl fun found w hw => ?_
      cases found with
      | none => exact ensures_ret hw
      | some wc =>
          exact ensures_idle hw rfl rfl fun _ w hw => ensures_ret hw
  refine ensures_bind (ensures_mono hstop fun _ w hw => ?_)
  exact ensures_return (handleResult_records cron _ _ _ _ _ hw)

theorem watchdogTimeouts_records (cron : Cron) (cfg : SchedulerConfig) (hw : Recorded w) :
    recording.Ensures (watchdogTimeouts cron cfg) w fun _ w' => Recorded w' := by
  refine ensures_idle hw rfl rfl fun now w hw => ?_
  refine ensures_idle hw rfl rfl fun listed w hw => ?_
  cases listed with
  | error e => exact ensures_ret hw
  | ok jobs =>
      refine ensures_bind (ensures_mono (ensures_forEach (I := fun _ w => Recorded w) ?_ hw)
        fun _ _ hw => ensures_ret hw)
      intro job _ w hw
      exact watchdogTimeout_records cron job hw

theorem recoverJob_tracks (workerID : String) (now : Time) (job : Job)
    (h : Tracks known job.id (some s) (some s) w) :
    recording.Ensures (recoverJob workerID now job) w fun _ w' =>
      ∃ t, Tracks known job.id (some t) (some t) w' := by
  refine ensures_bind (ensures_mono (closeExecution_tracks _ _ _ h) fun _ w h => ?_)
  split
  · refine ensures_write h (Or.inl rfl) fun w h => ?_
    exact ensures_emit h rfl fun w h => ensures_ret ⟨_, h⟩
  split
  · refine ensures_write h (Or.inl rfl) fun w h => ?_
    exact ensures_emit h rfl fun w h => ensures_ret ⟨_, h⟩
  · refine ensures_write h (Or.inl rfl) fun w h => ?_
    exact ensures_emit h rfl fun w h => ensures_ret ⟨_, h⟩

theorem recoverJobs_records (workerID : String) {jobs : List Job} {P : JobState → Prop}
    (hw : Recorded w) (hlisted : Snapshot w.store.jobs P jobs) :
    recording.Ensures (recoverJobs workerID jobs) w fun _ w' => Recorded w' := by
  refine ensures_perform fun d _ => ?_
  refine ensures_bind (ensures_mono (ensures_eachJob ?_ hw hlisted) fun _ w hw => ?_)
  · intro job known s w _ h
    split
    · exact ensures_ret ⟨s, h⟩
    · exact recoverJob_tracks workerID _ job h
  · exact ensures_idle hw rfl rfl fun _ w hw => ensures_ret hw

theorem recoverWorkerJobs_records (workerID : String) (hw : Recorded w) :
    recording.Ensures (recoverWorkerJobs workerID) w fun _ w' => Recorded w' := by
  have hlisted {order : List String} (horder : w.store.jobs.Enumerates order)
      (state : JobState) :
      Snapshot w.store.jobs (· = state) (w.store.listJobs order (some state) 1000) :=
    snapshot_collect horder (fun job hjob => by simpa using hjob) _
  refine ensures_perform fun d hd => ?_
  simp only [recording, step, guarded_of_none (hd.2 (Or.inl rfl))]
  refine ensures_perform fun d₁ hd₁ => ?_
  simp only [step, guarded_of_none (hd₁.2 (Or.inl rfl))]
  refine ensures_perform fun d₂ hd₂ => ?_
  simp only [step, guarded_of_none (hd₂.2 (Or.inl rfl))]
  refine recoverJobs_records workerID hw (snapshot_append (snapshot_append (hlisted hd.1 .running)
    (hlisted hd₁.1 .assigned) ?_) (hlisted hd₂.1 .cancelRequested) ?_)
  · rintro state rfl
    exact JobState.noConfusion
  · rintro state (rfl | rfl)
    · exact JobState.noConfusion
    · exact JobState.noConfusion

theorem dropWorker_records (workerID : String) (hw : Recorded w) :
    recording.Ensures (dropWorker workerID) w fun _ w' => Recorded w' := by
  refine ensures_idle hw rfl rfl fun _ w hw => ?_
  refine ensures_emitOther hw (fun _ => rfl) fun w hw => ?_
  exact ensures_return (recoverWorkerJobs_records workerID hw)

theorem checkWorkers_records (cfg : SchedulerConfig) (hw : Recorded w) :
    recording.Ensures (checkWorkers cfg) w fun _ w' => Recorded w' := by
  refine ensures_idle hw rfl rfl fun marked w hw => ?_
  cases marked with
  | error e => exact ensures_ret hw
  | ok lists =>
      refine ensures_bind (ensures_mono (ensures_forEach (I := fun _ w => Recorded w) ?_ hw)
        fun _ _ hw => ensures_ret hw)
      intro workerID _ w hw
      exact dropWorker_records workerID hw

end Sweeps

section Runs

variable (cron : Cron) (cfg : SchedulerConfig)

theorem task_records (task : Task) (hw : Recorded w) :
    recording.Ensures (task.body cron cfg) w fun _ w' => Recorded w' := by
  cases task with
  | createJob body => exact ensures_return (createJob_records cron body hw)
  | cancelJob id => exact ensures_return (cancelJob_records id hw)
  | promoteDueJobs => exact ensures_return (promoteDueJobs_records cfg hw)
  | handleQueuedJob message => exact ensures_return (handleQueuedJob_records message hw)
  | handleResult jobID executionID workerID attempt result =>
      exact ensures_return (handleResult_records cron _ _ _ _ _ hw)
  | pushPendingCancels => exact ensures_return (pushPendingCancels_records cfg hw)
  | watchdogTimeouts => exact ensures_return (watchdogTimeouts_records cron cfg hw)
  | checkWorkers => exact ensures_return (checkWorkers_records cfg hw)

/-- The complete operations of the API, of the scheduler and of its registry, in any order and
with any messages and reports. -/
inductive Step : World → World → Prop
  | task {task : Task} {w w' : World} (hrun : Performs cron cfg recording task w w') : Step w w'
  | workers {w w' : World} (hchange : WorkersChange w w') : Step w w'
  | queue (w : World) (queue : MemoryQueue.Queue) : Step w { w with queue := queue }

variable {cron cfg}

theorem applyEvent_aboutWorker {event : Event} (hevent : AboutWorker event)
    (known : Option Status) : applyEvent known event = known := by
  cases hevent <;> rfl

theorem replay_aboutWorkers {news : List Event} (hnews : ∀ event ∈ news, AboutWorker event)
    (events : List Event) : replay (events ++ news) = replay events := by
  induction news using List.reverseRecOn with
  | nil => rw [List.append_nil]
  | append_singleton news event ih =>
      rw [List.forall_mem_append, List.forall_mem_singleton] at hnews
      rw [← List.append_assoc, replay_append, applyEvent_aboutWorker hnews.2,
        Function.update_eq_self, ih hnews.1]

theorem step_records (hw : Recorded w) (hstep : Step cron cfg w w') : Recorded w' := by
  cases hstep with
  | task hrun =>
      obtain ⟨ds, outcome, hrun⟩ := hrun
      exact task_records cron cfg _ hw ds outcome w' hrun
  | workers hchange =>
      obtain ⟨registry, workers, news, hnews⟩ := hchange
      exact (replay_aboutWorkers hnews w.events).trans hw
  | queue _ queue => exact hw

/-- Whatever operations have run, the events of the outbox tell of every job its state, its
attempt, its worker and its execution, and of no job that is not stored. -/
theorem events_determine_jobs (hrun : Relation.ReflTransGen (Step cron cfg) .empty w)
    (id : String) : replay w.events id = (w.store.jobs.get? id).map status := by
  have hw : Recorded w := by
    induction hrun with
    | refl => rfl
    | tail _ hstep ih => exact step_records ih hstep
  exact congrFun hw id

theorem task_of_get {task : Task} {ds : List Draw}
    (hperform : (perform cron cfg recording task ds w).isSome) :
    Step cron cfg w ((perform cron cfg recording task ds w).get hperform) :=
  .task (performs_of_get cron cfg hperform)

end Runs

section Scenarios

def joined : World := (registerWorker .empty { id := "worker", capacity := 1 } {}).2

def submitted : World :=
  (perform utcOnly smallConfig recording (.createJob (some echoRequest))
    (createDraws 1 "job") joined).get (by decide +kernel)

def dispatched : World :=
  (perform utcOnly smallConfig recording (.handleQueuedJob echoMessage)
    (handleDraws 2 "first") submitted).get (by decide +kernel)

def timedOut : ExecutionResult := { success := false, reason := .timeout, retryable := true }

def retried : World :=
  (perform utcOnly smallConfig recording (.handleResult "job" "first" "worker" 1 timedOut)
    (sweepDraws 8 3) dispatched).get (by decide +kernel)

/-- The job times out on its first attempt and is due again. -/
theorem retried_job_replayed :
    replay dispatched.events "job" = some ⟨.running, 1, "worker", "first"⟩ ∧
      replay retried.events "job" = some ⟨.retrying, 1, "", ""⟩ ∧
      replay retried.events "job" = (retried.store.jobs.get? "job").map status := by
  have hrun : Relation.ReflTransGen (Step utcOnly smallConfig) .empty retried :=
    .tail (.tail (.tail (.tail .refl (.workers (registerWorker_change ..)))
      (task_of_get _)) (task_of_get _)) (task_of_get _)
  exact ⟨by decide +kernel, by decide +kernel, events_determine_jobs hrun "job"⟩

end Scenarios

end Chronos.EventLog
