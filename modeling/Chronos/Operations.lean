import Chronos.ApiServer
import Chronos.Library.Interleaving
import Chronos.SchedulerService

namespace Chronos.Operations

open Chronos.Domain
open Chronos.ApiServer (Response)
open Chronos.Library.CallProgram
open Chronos.Library.CallMachine
open Chronos.Library.Interleaving
open Chronos.MemoryQueue
open Chronos.MemoryStore (Store)
open Chronos.SchedulerService (SchedulerConfig)
open Chronos.SharedState

inductive Task
  | createJob (body : Option CreateJobRequest)
  | cancelJob (id : String)
  | promoteDueJobs
  | handleQueuedJob (job : QueuedJob)
  | handleResult (jobID executionID workerID : String) (attempt : Int)
      (result : ExecutionResult)
  | pushPendingCancels
  | watchdogTimeouts
  | checkWorkers

inductive Outcome
  | answered (response : Response)
  | returned (result : Except Err Unit)

def Outcome.failed : Outcome → Bool
  | .returned (.error _) => true
  | _ => false

def Task.ofScheduler : Task → Bool
  | .createJob _ | .cancelJob _ => false
  | _ => true

section

variable (cron : Cron) (cfg : SchedulerConfig)

def Task.body : Task → Prog Outcome
  | .createJob body => do return .answered (← ApiServer.createJob cron body)
  | .cancelJob id => do return .answered (← ApiServer.cancelJob id)
  | .promoteDueJobs => do return .returned (← SchedulerService.promoteDueJobs cfg)
  | .handleQueuedJob job => do return .returned (← SchedulerService.handleQueuedJob job)
  | .handleResult jobID executionID workerID attempt result => do
      return .returned
        (← SchedulerService.handleResult cron jobID executionID workerID attempt result)
  | .pushPendingCancels => do return .returned (← SchedulerService.pushPendingCancels cfg)
  | .watchdogTimeouts => do return .returned (← SchedulerService.watchdogTimeouts cron cfg)
  | .checkWorkers => do return .returned (← SchedulerService.checkWorkers cfg)

/-- The operation can run from start to end between the two worlds, with nothing
in between. -/
def Performs (M : Machine Call Answer World Draw) (task : Task) (w w' : World) : Prop :=
  ∃ ds outcome, M.Runs (task.body cron cfg) w ds outcome w'

def perform (M : Machine Call Answer World Draw) [∀ w c d, Decidable (M.Allowed w c d)]
    (task : Task) (ds : List Draw) (w : World) : Option World :=
  (M.exec (task.body cron cfg) w ds).map Prod.snd

theorem runs_of_perform {M : Machine Call Answer World Draw}
    [∀ w c d, Decidable (M.Allowed w c d)] {task : Task} {ds : List Draw} {w : World}
    (hperform : (perform cron cfg M task ds w).isSome) :
    ∃ outcome, M.Runs (task.body cron cfg) w ds outcome
      ((perform cron cfg M task ds w).get hperform) := by
  obtain ⟨⟨outcome, w'⟩, hexec, hw'⟩ := Option.map_eq_some_iff.mp (Option.some_get hperform).symm
  rw [← hw']
  exact ⟨outcome, runs_of_exec hexec⟩

theorem performs_of_get {M : Machine Call Answer World Draw}
    [∀ w c d, Decidable (M.Allowed w c d)] {task : Task} {ds : List Draw} {w : World}
    (hperform : (perform cron cfg M task ds w).isSome) :
    Performs cron cfg M task w ((perform cron cfg M task ds w).get hperform) :=
  ⟨ds, runs_of_perform cron cfg hperform⟩

abbrev TaskThread := Thread Call Answer Task Outcome

abbrev TaskPool := Pool Call Answer World Task Outcome

abbrev TaskLabel := Label Call Task Outcome

def Task.delivery? : Task → Option QueuedJob
  | .handleQueuedJob job => some job
  | _ => none

/-- The consumer takes the head of the queue when it is idle.  A result is
reported for a push that its worker has accepted.  Everything else can start at
any time. -/
def startTask (p : TaskPool) : Task → Option World
  | .handleQueuedJob job =>
      if p.threads.any fun thread => thread.task.delivery?.isSome then none
      else if p.state.queue.take.1 = some job then
        some { p.state with queue := p.state.queue.take.2 }
      else none
  | .handleResult jobID executionID workerID attempt _ =>
      if p.state.accepted.any fun push =>
          push.workerID = workerID ∧ push.request.jobID = jobID ∧
            push.request.executionID = executionID ∧ push.request.attempt = attempt then
        some p.state
      else none
  | _ => some p.state

def finishTask (task : Task) (outcome : Outcome) (d : Draw) (w : World) : World :=
  match task with
  | .handleQueuedJob job =>
      -- the consumer requeues the message of a failed handler
      if outcome.failed then { w with queue := (w.queue.enqueue job d.now).2 } else w
  | _ => w

theorem startTask_frame {p : TaskPool} {task : Task} {w : World}
    (hstart : startTask p task = some w) :
    w.store = p.state.store ∧ w.queue.closed = p.state.queue.closed := by
  cases task with
  | handleQueuedJob job =>
      simp only [startTask, Option.ite_none_left_eq_some, Option.ite_none_right_eq_some,
        Option.some.injEq] at hstart
      obtain ⟨-, htake, rfl⟩ := hstart
      exact ⟨rfl, (items_of_take htake).2⟩
  | handleResult jobID executionID workerID attempt result =>
      simp only [startTask, Option.ite_none_right_eq_some, Option.some.injEq] at hstart
      rw [hstart.2]
      exact ⟨rfl, rfl⟩
  | _ =>
      obtain rfl := Option.some.inj hstart
      exact ⟨rfl, rfl⟩

theorem finishTask_frame (task : Task) (outcome : Outcome) (d : Draw) (w : World) :
    (finishTask task outcome d w).store = w.store ∧
      (finishTask task outcome d w).queue.closed = w.queue.closed := by
  cases task with
  | handleQueuedJob job =>
      simp only [finishTask]
      split
      · exact ⟨rfl, enqueue_closed _ _ _⟩
      · exact ⟨rfl, rfl⟩
  | _ => exact ⟨rfl, rfl⟩

/-- The operations interleaved call by call over the memory store and queue. -/
def service : System Call Answer World Draw Task Outcome where
  machine := memory
  body := Task.body cron cfg
  start := startTask
  finish := finishTask

instance (w : World) (c : Call) (d : Draw) :
    Decidable ((service cron cfg).machine.Allowed w c d) :=
  inferInstanceAs (Decidable (memory.Allowed w c d))

end

theorem jobState_start {cron : Cron} {cfg : SchedulerConfig} {p : TaskPool} {task : Task}
    {w : World} (hstart : (service cron cfg).start p task = some w) (id : String) :
    w.jobState id = p.state.jobState id := by
  rw [World.jobState, World.jobState, (startTask_frame hstart).1]

theorem jobState_finish {cron : Cron} {cfg : SchedulerConfig} (task : Task)
    (outcome : Outcome) (d : Draw) (w : World) (id : String) :
    ((service cron cfg).finish task outcome d w).jobState id = w.jobState id :=
  congrArg (fun store => (store.jobs.get? id).map Job.state)
    (finishTask_frame task outcome d w).1

/-- What a handler does with the state it reads in its first call. -/
theorem handleQueuedJob_read {message : QueuedJob} {c : Call} {next : Answer c → Prog Outcome}
    (hrest : Program.call c next =
      do return .returned (← SchedulerService.handleQueuedJob message))
    {w : World} {d : Draw} (hd : d.fault = none) :
    c = .getJob message.jobID ∧ (step c w d).2 = w ∧
      next (step c w d).1 = match w.jobState message.jobID with
        | none => .ret (.returned (.error .notFound))
        | some state =>
            if state.queueable then do
              return .returned (← SchedulerService.dispatchJob message)
            else .ret (.returned (.ok ())) := by
  obtain ⟨rfl, hnext⟩ := Program.call.inj hrest
  obtain rfl := eq_of_heq hnext
  simp only [step, guarded_of_none hd, Store.getJob, World.jobState]
  refine ⟨trivial, trivial, ?_⟩
  cases w.store.jobs.get? message.jobID with
  | none => rfl
  | some job =>
      change (ite _ _ _ : Prog (Except Err Unit)) >>= _ = ite _ _ _
      split <;> rfl

section Scenarios

def utcOnly : Cron where
  Location := Unit
  utc := ()
  loadLocation := fun name => .error ("unknown time zone " ++ name)
  parse := fun _ => .error "no cron expressions"

def smallConfig : SchedulerConfig where
  assignBatchSize := 10
  heartbeatTimeout := 15 * second
  suspectGracePeriod := 30 * second

def fixedRetry : RetryPolicy where
  maxAttempts := 3
  backoffStrategy := "fixed"
  initialDelay := second
  maxDelay := 0
  multiplier := 1
  jitter := false

def echoRequest : CreateJobRequest := { name := "echo", retryPolicy := some fixedRetry }

def keyedRequest : CreateJobRequest := { echoRequest with idempotencyKey := "key" }

def echoJob (state : JobState) : Job where
  id := "job"
  name := "echo"
  type := .builtin
  payload := some [0x7b, 0x7d]
  priority := 5
  state := state
  schedule := { type := .immediate }
  retryPolicy := fixedRetry
  timeout := 30 * second
  maxAttempts := 3
  scheduledAt := some 0

def echoMessage : QueuedJob := queuedJob (echoJob .queued) 1

def idleWorker : World :=
  let registry : Registry :=
    { workers := .put .empty ⟨{ id := "worker", capacity := 4 }, 0⟩, pendingCancels := ∅ }
  { World.empty with registry := registry }

def oneWorker (job : Job) (items : List QueuedJob) : World :=
  { idleWorker with store := .putJob .new job, queue := { items := items } }

abbrev smallService := service utcOnly smallConfig

/-- The calls of `handleQueuedJob` by thread `index`, up to its accepted push. -/
def movesToPush (index : Nat) (executionID : String) : List (Move Task Draw) :=
  [.advance index {}, .advance index { order := ["worker"] },
    .advance index { uuid := executionID }, .advance index {}, .advance index { now := 2 },
    .advance index { now := 2 }, .advance index {}, .advance index {}]

def createDraws (now : Time) (uuid : String) : List Draw :=
  { now := now } :: { now := now } :: { now := now, uuid := uuid } ::
    List.replicate 7 { now := now }

def handleDraws (now : Time) (executionID : String) : List Draw :=
  { now := now } :: { now := now, order := ["worker"] } ::
    { now := now, uuid := executionID } :: List.replicate 8 { now := now }

def sweepDraws (calls : Nat) (now : Time) : List Draw :=
  List.replicate calls { now := now, order := ["job"] }

def succeeded : ExecutionResult := { success := true, reason := .success }

end Scenarios

end Chronos.Operations
