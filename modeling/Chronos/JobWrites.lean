import Chronos.Operations
import Chronos.SchedulerCalls

namespace Chronos.JobWrites

open Chronos.ApiServer (newJob enqueueJob announceJob submitJob cancelRefused)
open Chronos.Domain
open Chronos.Library.CallProgram
open Chronos.MemoryStore
open Chronos.Operations
open Chronos.SchedulerCalls (handleResult_calls promoteJob_calls pushCancel_calls
  stopExecution_calls withReason_success)
open Chronos.SchedulerService
open Chronos.SharedState

/-- The field map gives the job no schedule, no attempt and no execution; a retry clears
the execution. -/
structure KeepsExecution (fields : Fields) : Prop where
  scheduledAt : fields.scheduledAt = none
  attempt : fields.attempt = none
  execution : fields.workerID = none ∧ fields.executionID = none ∨ fields.executionID = some ""

/-- What `HandleResult` may write over the record it has read. -/
def Settles (job : Job) (attempt : Int) (result : ExecutionResult) (state : JobState)
    (fields : Fields) : Prop :=
  job.state.terminal = false ∧ KeepsExecution fields ∧
    match state with
    | .cancelled => result.reason = .cancelled ∨ job.state = .cancelRequested
    | .completed => job.state ≠ .cancelRequested ∧ result.success
    | .timeout | .failed => job.state ≠ .cancelRequested
    | .retrying => job.state ≠ .cancelRequested ∧ attempt < job.maxAttempts ∧
        fields.executionID = some ""
    | _ => False

def lostResult : ExecutionResult where
  success := false
  error := "worker lost"
  reason := .failed

/-- Every state update of every operation, with what the operation knows of the record
that it writes over. -/
def Writes (task : Task) (id : String) (job : Job) (state : JobState) (fields : Fields)
    (onlyFrom : List JobState) : Prop :=
  match task with
  | .createJob _ => state = .queued ∧ KeepsExecution fields ∧ onlyFrom = []
  | .cancelJob target =>
      id = target ∧ cancelRefused job.state = false ∧ KeepsExecution fields ∧ onlyFrom = [] ∧
        if job.state = .running ∨ job.state = .assigned then state = .cancelRequested
        else state = .cancelled
  | .promoteDueJobs =>
      state = .queued ∧ (job.state = .scheduled ∨ job.state = .retrying) ∧
        KeepsExecution fields ∧ onlyFrom = [.scheduled, .retrying]
  | .handleQueuedJob message =>
      id = message.jobID ∧ onlyFrom = [] ∧
        (state = .assigned ∧ job.state.queueable ∨ state = .running ∧ job.state = .assigned)
  | .handleResult jobID _ _ attempt result =>
      id = jobID ∧ onlyFrom = [] ∧ Settles job attempt (withReason result) state fields
  | .pushPendingCancels =>
      job.state = .cancelRequested ∧ state = .cancelled ∧ KeepsExecution fields ∧ onlyFrom = []
  | .watchdogTimeouts =>
      (job.state = .running ∨ job.state = .assigned) ∧ onlyFrom = [] ∧
        Settles job job.attempt (watchdogResult job) state fields
  | .checkWorkers =>
      (job.state = .running ∨ job.state = .assigned ∨ job.state = .cancelRequested) ∧
        onlyFrom = [] ∧ Settles job job.attempt lostResult state fields

/-- The jobs an operation creates: the one of the request, or the next occurrence of a
recurring job that has succeeded. -/
def Creates (task : Task) (job : Job) : Prop :=
  job.state = .scheduled ∧ job.scheduledAt.isSome ∧ job.attempt = 0 ∧ job.executionID = "" ∧
    match task with
    | .createJob (some req) => job.idempotencyKey = req.idempotencyKey
    | .handleResult _ _ _ _ result =>
        result.success ∧ job.id = "" ∧ job.idempotencyKey = ""
    | _ => False

def Enqueues : Task → Prop
  | .createJob _ | .promoteDueJobs => True
  | _ => False

def Dispatches : Task → Prop
  | .handleQueuedJob _ => True
  | _ => False

/-- The jobs whose executions an operation asks a worker to stop. -/
def Stops (task : Task) (job : Job) : Prop :=
  match task with
  | .pushPendingCancels => job.state = .cancelRequested
  | .watchdogTimeouts => job.state = .running ∨ job.state = .assigned
  | _ => False

/-- What the running operation has been told.  A fact about a stored record is kept until
the operation writes that record; `stale` means that the facts contradict each other,
which an operation that runs alone never sees. -/
structure Told where
  known : List (String × (Job → Prop)) := []
  stale : Prop := False
  issued : List String := []
  picked : List WorkerConn := []
  created : Option String := none
  enqueued : Option String := none
  completing : Option String := none

def Told.learn (φ : Told) (id : String) (job : Job) : Told :=
  { φ with
    known := (id, (· = job)) :: φ.known
    stale := φ.stale ∨ ∃ entry ∈ φ.known, entry.1 = id ∧ ¬ entry.2 job }

def Told.learnAll (φ : Told) (selects : JobState → Prop) (jobs : List Job) : Told :=
  { φ with
    known := jobs.map (fun job => (job.id, (· = job))) ++ φ.known
    stale := φ.stale ∨ ¬ (jobs.map Job.id).Nodup ∨ ∃ job ∈ jobs, ¬ selects job.state ∨
      ∃ entry ∈ φ.known, entry.1 = job.id ∧ ¬ entry.2 job }

def Told.wrote (φ : Told) (id : String) (state : JobState) (answer : Except Err Unit) : Told :=
  { φ with
    known := (if state = .assigned ∧ answer.isOk then [(id, fun job => job.state = .assigned)]
      else []) ++ φ.known.filter fun entry => entry.1 ≠ id
    created := none
    enqueued := none
    completing := if state = .completed then some id else none }

def Told.after (φ : Told) : (c : Call) → Answer c → Told
  | .newUUID, id => { φ with issued := id :: φ.issued }
  | .pickWorker, some wc => { φ with picked := wc :: φ.picked }
  | .createJob _, .ok job =>
      { φ with known := (job.id, (· = job)) :: φ.known, issued := [], created := some job.id }
  | .createJob _, .error _ => { φ with issued := [] }
  | .getJob id, .ok job => φ.learn id job
  | .listJobs (some state) _, .ok jobs => φ.learnAll (· = state) jobs
  | .listDueScheduled _, .ok jobs =>
      φ.learnAll (fun state => state = .scheduled ∨ state = .retrying) jobs
  | .listCancelRequested _, .ok jobs => φ.learnAll (· = .cancelRequested) jobs
  | .listTimedOutRunning _ _, .ok jobs =>
      φ.learnAll (fun state => state = .running ∨ state = .assigned) jobs
  | .enqueue message, .ok _ => { φ with enqueued := some message.jobID }
  | .updateJobStateIf id state _ _, answer => φ.wrote id state answer
  | .emit _, _ => { φ with completing := none }
  | _, _ => φ

def handsOver : Call → Bool
  | .enqueue _ | .updateJobStateIf _ _ _ _ => true
  | _ => false

theorem enqueued_after {φ : Told} {c : Call} {answer : Answer c} {id : String}
    (hid : id ∈ (φ.after c answer).enqueued) (hc : handsOver c = false) : id ∈ φ.enqueued := by
  cases c with
  | enqueue message => exact absurd hc.symm Bool.false_ne_true
  | updateJobStateIf id state fields onlyFrom => exact absurd hc.symm Bool.false_ne_true
  | listJobs state limit => cases state <;> cases answer <;> exact hid
  | _ => first | exact hid | (cases answer <;> exact hid)

theorem created_after {φ : Told} {c : Call} {answer : Answer c} {id : String}
    (hid : id ∈ (φ.after c answer).created) (hc : ∀ job, c ≠ .createJob job) :
    id ∈ φ.created := by
  cases c with
  | createJob job => exact absurd rfl (hc job)
  | updateJobStateIf id state fields onlyFrom => exact absurd hid.symm (Option.some_ne_none _)
  | listJobs state limit => cases state <;> cases answer <;> exact hid
  | _ => first | exact hid | (cases answer <;> exact hid)

/-- The operation knows that the record under the id satisfies `P`. -/
def Told.Knows (φ : Told) (id : String) (P : Job → Prop) : Prop :=
  ¬ φ.stale → ∃ Q, (id, Q) ∈ φ.known ∧ ∀ job, Q job → P job

/-- The field map sets what the state needs. -/
def Told.Sets (φ : Told) (fields : Fields) : JobState → Prop
  | .queued => fields.queuedAt.isSome
  | .assigned => (∃ wc ∈ φ.picked, fields.workerID = some wc.info.id) ∧
      ∃ id ∈ φ.issued, fields.executionID = some id
  | .running => fields.startedAt.isSome
  | .retrying => fields.nextRetryAt.isSome
  | .completed | .failed | .timeout | .cancelled => fields.completedAt.isSome
  | .cancelRequested => True
  | _ => False

def Told.Admits (task : Task) (φ : Told) : Call → Prop
  | .updateJobStateIf id state fields onlyFrom =>
      φ.completing = none ∧ (φ.Sets fields state ∧ (Dispatches task ∨ KeepsExecution fields)) ∧
        (state = .queued → φ.enqueued = some id ∧ (onlyFrom = [] → φ.created = some id)) ∧
        φ.Knows id fun job => Writes task id job state fields onlyFrom
  | .createJob job =>
      φ.completing = none ∧ Creates task job ∧ (job.id = "" ∨ job.id ∈ φ.issued ∧ φ.known = [])
  | .emit event =>
      match φ.completing with
      | some id => event.eventType = .jobCompleted ∧ event.jobID = id
      | none => event.eventType ≠ .jobCompleted
  | .enqueue message =>
      φ.completing = none ∧ Enqueues task ∧ φ.Knows message.jobID fun job =>
        (∃ now, message = queuedJob job now) ∧
          (job.state = .scheduled ∨ job.state = .retrying ∨ φ.created = some job.id)
  | .createExecution _ => φ.completing = none ∧ ∃ message, task = .handleQueuedJob message
  | .cancelJob _ jobID _ => φ.completing = none ∧ φ.Knows jobID (Stops task)
  | .addPendingCancel _ jobID =>
      φ.completing = none ∧ task = .pushPendingCancels ∧ φ.Knows jobID (Stops task)
  | _ => φ.completing = none

/-- The discipline that all operations follow: read a record, then write it knowingly. -/
def informed (task : Task) : Protocol Call Answer Told where
  Admits := Told.Admits task
  after := Told.after

def Calm {α : Type} (φ : Told) (_ : α) : Prop := φ.completing = none

section Walks

variable {task : Task} {φ : Told}

theorem update_follows {α : Type} {id : String} {state : JobState} {fields : Fields}
    {onlyFrom : List JobState} {final : Told → α → Prop} {f : Except Err Unit → Prog α}
    (hcalm : φ.completing = none) (hsets : φ.Sets fields state)
    (hkeeps : Dispatches task ∨ KeepsExecution fields) (hstate : state ≠ .queued)
    (hknows : φ.Knows id fun job => Writes task id job state fields onlyFrom)
    (hf : ∀ answer, (f answer).Follows (informed task) final (φ.wrote id state answer)) :
    (ask (.updateJobStateIf id state fields onlyFrom) >>= f).Follows (informed task) final φ :=
  (follows_perform ..).mpr ⟨⟨hcalm, ⟨hsets, hkeeps⟩, fun h => absurd h hstate, hknows⟩, hf⟩

theorem emit_follows {α : Type} {eventType : EventType} {id executionID workerID : String}
    {attempt : Int} {final : Told → α → Prop} {f : Except Err Unit → Prog α}
    (hcalm : φ.completing = none) (hevent : eventType ≠ .jobCompleted)
    (hf : ∀ answer, (f answer).Follows (informed task) final { φ with completing := none }) :
    (emit eventType id executionID workerID attempt >>= f).Follows (informed task) final φ := by
  refine (follows_perform ..).mpr ⟨?_, hf⟩
  change Told.Admits task φ (.emit _)
  rw [Told.Admits, hcalm]
  exact hevent

theorem knows_learn {id : String} {job : Job} {P : Job → Prop}
    (hP : ¬ φ.stale → (∀ entry ∈ φ.known, entry.1 = id → entry.2 job) → P job) :
    (φ.learn id job).Knows id P := by
  intro hfresh
  refine ⟨_, List.mem_cons_self, ?_⟩
  rintro _ rfl
  refine hP (fun hstale => hfresh (Or.inl hstale)) fun entry hentry hid => ?_
  by_contra hnot
  exact hfresh (Or.inr ⟨entry, hentry, hid, hnot⟩)

theorem knows_imp {id : String} {P Q : Job → Prop} (hknows : φ.Knows id P)
    (himplies : ∀ job, P job → Q job) : φ.Knows id Q := by
  intro hfresh
  obtain ⟨R, hR, hRP⟩ := hknows hfresh
  exact ⟨R, hR, fun job hjob => himplies job (hRP job hjob)⟩

def touches (id : String) : Call → Prop
  | .updateJobStateIf id' _ _ _ => id' = id
  | _ => True

/-- Only facts about the one record are lost on the way from `φ` to `ψ`. -/
structure Forgets (id : String) (φ ψ : Told) : Prop where
  stale : φ.stale → ψ.stale
  known : ∀ entry ∈ φ.known, entry.1 ≠ id → entry ∈ ψ.known

theorem forgets_after {id : String} {c : Call} (hc : touches id c) (answer : Answer c) :
    Forgets id φ (φ.after c answer) := by
  have hsame : Forgets id φ φ := ⟨fun h => h, fun _ hentry _ => hentry⟩
  cases c with
  | updateJobStateIf id' state fields onlyFrom =>
      obtain rfl : id' = id := hc
      refine ⟨fun h => h, fun entry hentry hid => List.mem_append_right _ ?_⟩
      exact List.mem_filter.mpr ⟨hentry, by simpa using hid⟩
  | listJobs state limit =>
      cases state with
      | none => exact hsame
      | some state =>
          cases answer with
          | error e => exact hsame
          | ok jobs => exact ⟨Or.inl, fun _ hentry _ => List.mem_append_right _ hentry⟩
  | getJob id' =>
      cases answer with
      | error e => exact hsame
      | ok job => exact ⟨Or.inl, fun _ hentry _ => List.mem_cons_of_mem _ hentry⟩
  | createJob job =>
      cases answer with
      | error e => exact ⟨fun h => h, fun _ hentry _ => hentry⟩
      | ok job => exact ⟨fun h => h, fun _ hentry _ => List.mem_cons_of_mem _ hentry⟩
  | listDueScheduled limit =>
      cases answer with
      | error e => exact hsame
      | ok jobs => exact ⟨Or.inl, fun _ hentry _ => List.mem_append_right _ hentry⟩
  | listCancelRequested limit =>
      cases answer with
      | error e => exact hsame
      | ok jobs => exact ⟨Or.inl, fun _ hentry _ => List.mem_append_right _ hentry⟩
  | listTimedOutRunning now limit =>
      cases answer with
      | error e => exact hsame
      | ok jobs => exact ⟨Or.inl, fun _ hentry _ => List.mem_append_right _ hentry⟩
  | pickWorker => cases answer <;> exact ⟨fun h => h, fun _ hentry _ => hentry⟩
  | enqueue message => cases answer <;> exact ⟨fun h => h, fun _ hentry _ => hentry⟩
  | _ => exact ⟨fun h => h, fun _ hentry _ => hentry⟩

theorem follows_forgets {α : Type} {id : String} {p : Prog α} {final : Told → α → Prop}
    (hp : p.Follows (informed task) final φ) (hcalls : p.CallsOnly (touches id)) :
    p.Follows (informed task) (fun ψ value => final ψ value ∧ Forgets id φ ψ) φ := by
  have hstrong : ∀ ψ : Told, p.Follows (informed task) final ψ → Forgets id φ ψ →
      p.Follows (informed task) (fun ψ value => final ψ value ∧ Forgets id φ ψ) ψ := by
    clear hp
    induction p with
    | ret value => exact fun ψ hfinal hforgets => ⟨hfinal, hforgets⟩
    | call c next ih =>
        intro ψ hp hforgets
        refine ⟨hp.1, fun answer => ih answer (hcalls.2 answer) _ (hp.2 answer) ?_⟩
        have hafter : Forgets id ψ (ψ.after c answer) := forgets_after hcalls.1 answer
        exact ⟨fun h => hafter.stale (hforgets.stale h),
          fun entry hentry hid => hafter.known entry (hforgets.known entry hentry hid) hid⟩
  exact hstrong φ hp ⟨fun h => h, fun _ hentry _ => hentry⟩

/-- Every job of the list is known as it is listed, in one of the states `P`. -/
structure Ready (P : JobState → Prop) (jobs : List Job) (φ : Told) : Prop where
  calm : φ.completing = none
  nodup : ¬ φ.stale → (jobs.map Job.id).Nodup
  known : ∀ job ∈ jobs, φ.Knows job.id fun found => found = job ∧ P job.state

theorem ready_learnAll {P : JobState → Prop} (hcalm : φ.completing = none) (jobs : List Job) :
    Ready P jobs (φ.learnAll P jobs) where
  calm := hcalm
  nodup := by
    intro hfresh
    by_contra hnot
    exact hfresh (Or.inr (Or.inl hnot))
  known := by
    intro job hjob hfresh
    refine ⟨(· = job), List.mem_append_left _ (List.mem_map_of_mem hjob), ?_⟩
    rintro _ rfl
    refine ⟨rfl, ?_⟩
    by_contra hnot
    exact hfresh (Or.inr (Or.inr ⟨_, hjob, Or.inl hnot⟩))

theorem ready_tail {P : JobState → Prop} {job : Job} {rest : List Job} {ψ : Told}
    (hready : Ready P (job :: rest) φ) (hforgets : Forgets job.id φ ψ)
    (hcalm : ψ.completing = none) : Ready P rest ψ where
  calm := hcalm
  nodup := fun hfresh => (List.nodup_cons.mp (hready.nodup fun h => hfresh (hforgets.stale h))).2
  known := by
    intro other hother hfresh
    have hfresh' : ¬ φ.stale := fun h => hfresh (hforgets.stale h)
    obtain ⟨Q, hQ, himplies⟩ := hready.known other (List.mem_cons_of_mem _ hother) hfresh'
    refine ⟨Q, hforgets.known _ hQ fun hid => ?_, himplies⟩
    refine (List.nodup_cons.mp (hready.nodup hfresh')).1 ?_
    rw [← hid]
    exact List.mem_map_of_mem hother

/-- A loop over listed jobs that writes each of them by itself. -/
theorem forEach_follows {P : JobState → Prop} {jobs : List Job} {body : Job → Prog Unit}
    (hbody : ∀ job ψ, ψ.completing = none →
      (ψ.Knows job.id fun found => found = job ∧ P job.state) →
      (body job).Follows (informed task) Calm ψ)
    (hcalls : ∀ job, (body job).CallsOnly (touches job.id)) (hready : Ready P jobs φ) :
    (forEach jobs body).Follows (informed task) (fun ψ _ => Ready P [] ψ) φ := by
  refine follows_forEach (fun job rest ψ hψ => ?_) hready
  have hown := hbody job ψ hψ.calm (hψ.known job List.mem_cons_self)
  refine follows_mono (follows_forgets hown (hcalls job)) ?_
  rintro χ _ ⟨hcalm, hforgets⟩
  exact ready_tail hψ hforgets hcalm

theorem ready_append {P Q : JobState → Prop} {jobs : List Job} (hready : Ready P jobs φ)
    (hdisjoint : ∀ state, P state → ¬ Q state) (more : List Job) :
    Ready (fun state => P state ∨ Q state) (jobs ++ more) (φ.learnAll Q more) := by
  have hmore : Ready Q more (φ.learnAll Q more) := ready_learnAll hready.calm more
  refine ⟨hready.calm, fun hfresh => ?_, fun job hjob => ?_⟩
  · have hfresh' : ¬ φ.stale := fun h => hfresh (Or.inl h)
    rw [List.map_append, List.nodup_append]
    refine ⟨hready.nodup hfresh', hmore.nodup hfresh, ?_⟩
    rintro _ hleft _ hright rfl
    obtain ⟨job, hjob, hid⟩ := List.mem_map.mp hleft
    obtain ⟨other, hother, hid'⟩ := List.mem_map.mp hright
    obtain ⟨R, hR, himplies⟩ := hready.known job hjob hfresh'
    -- two listings that show one id in two states contradict each other
    have hagrees : R other := by
      by_contra hnot
      exact hfresh (Or.inr (Or.inr ⟨other, hother, Or.inr ⟨_, hR, hid.trans hid'.symm, hnot⟩⟩))
    obtain ⟨rfl, hP⟩ := himplies other hagrees
    refine hdisjoint _ hP ?_
    by_contra hnot
    exact hfresh (Or.inr (Or.inr ⟨other, hother, Or.inl hnot⟩))
  · rcases List.mem_append.mp hjob with hold | hnew
    · intro hfresh
      obtain ⟨R, hR, himplies⟩ := hready.known job hold fun h => hfresh (Or.inl h)
      exact ⟨R, List.mem_append_right _ hR, fun found hfound =>
        ⟨(himplies found hfound).1, Or.inl (himplies found hfound).2⟩⟩
    · exact knows_imp (hmore.known job hnew) fun _ hfound => ⟨hfound.1, Or.inr hfound.2⟩

end Walks

end Chronos.JobWrites
