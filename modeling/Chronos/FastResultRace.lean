import Chronos.Operations
import Chronos.SchedulerCalls
import Chronos.SharedState.Steps

namespace Chronos.FastResultRace

open Chronos.Domain
open Chronos.Library.CallProgram
open Chronos.Library.CallMachine
open Chronos.Library.Interleaving
open Chronos.Library.KeyedTable
open Chronos.MemoryStore
open Chronos.Operations
open Chronos.SchedulerCalls
open Chronos.SchedulerService
open Chronos.SharedState

def writesState (id : String) : Call → Bool
  | .updateJobStateIf id' _ _ _ => id' == id
  | _ => false

def marksRunning (id : String) : Call → Bool
  | .updateJobStateIf id' .running _ _ => id' == id
  | _ => false

def aboutToMarkRunning (id : String) (p : TaskPool) : Bool :=
  p.threads.any fun thread => thread.rest.next?.any (marksRunning id)

/-- Where a handler has pushed its job and not yet made its RUNNING write, no
result is written to the job. -/
def reportsOutsideWindow (id : String) (p : TaskPool) : TaskLabel → Bool
  | .made (.handleResult _ _ _ _ _) c => !(writesState id c && aboutToMarkRunning id p)
  | _ => true

def startsResultsOnly : TaskLabel → Bool
  | .started (.handleResult _ _ _ _ _) => true
  | .started _ => false
  | _ => true

def inRace (id : String) (p : TaskPool) (label : TaskLabel) : Bool :=
  startsResultsOnly label && reportsOutsideWindow id p label

inductive Push
  | ahead
  | accepted
  | settled
  deriving DecidableEq

def afterPush (id : String) : Call → Prop
  | .executeJob _ _ => False
  | .createJob job => job.state ≠ .running
  | .updateJobStateIf id' state _ onlyFrom => id' = id → state ≠ .running ∧ onlyFrom = []
  | _ => True

theorem afterPush_of_resultCall {id jobID : String} {c : Call} (hc : resultCall jobID c) :
    afterPush id c := by
  cases c with
  | createJob job => simp [afterPush, hc.2.2]
  | updateJobStateIf id' state fields onlyFrom =>
      obtain ⟨-, hstate, -, hguard⟩ := hc
      refine fun _ => ⟨?_, hguard⟩
      rintro rfl
      exact absurd hstate Bool.false_ne_true
  | executeJob workerID request => exact hc
  | _ => trivial

/-- The order of the handler's calls around its push: the RUNNING write comes
directly after an accepted push and nowhere else. -/
def pushProtocol (id : String) : Protocol Call Answer Push where
  Admits
    | .ahead, c => marksRunning id c = false
    | .accepted, c => marksRunning id c = true
    | .settled, c => afterPush id c
  after
    | .ahead, .executeJob _ _, reply => if (pushOutcome reply).isOk then .accepted else .settled
    | .ahead, _, _ => .ahead
    | _, _, _ => .settled

def returnsSettled {α : Type} (phase : Push) (_ : α) : Prop := phase ≠ .accepted

theorem markRunning_follows (job : QueuedJob) (wc : WorkerConn) (executionID : String)
    (now : Time) :
    (markRunning job wc executionID now).Follows (pushProtocol job.jobID) returnsSettled
      .accepted := by
  simp only [markRunning, perform_bind, follows_call]
  refine ⟨by simp [pushProtocol, marksRunning], fun answer => ?_⟩
  cases answer with
  | error e => exact Push.noConfusion
  | ok _ => exact ⟨trivial, fun _ => ⟨trivial, fun _ => Push.noConfusion⟩⟩

theorem pushJob_follows (job : QueuedJob) (wc : WorkerConn) (executionID : String)
    (now : Time) :
    (pushJob job wc executionID now).Follows (pushProtocol job.jobID) returnsSettled
      .ahead := by
  simp only [pushJob, perform_bind, follows_call]
  refine ⟨rfl, fun reply => ?_⟩
  simp only [pushProtocol]
  cases hreply : pushOutcome reply with
  | error e => exact Push.noConfusion
  | ok _ => exact markRunning_follows job wc executionID now

theorem handleQueuedJob_follows (job : QueuedJob) :
    (handleQueuedJob job).Follows (pushProtocol job.jobID) returnsSettled .ahead := by
  simp only [handleQueuedJob, perform_bind, follows_call]
  refine ⟨rfl, fun answer => ?_⟩
  rcases answer with e | existing
  · exact Push.noConfusion
  dsimp only
  split
  · simp only [dispatchJob, perform_bind, follows_call]
    refine ⟨rfl, fun wc => ?_⟩
    rcases wc with _ | wc
    · exact Push.noConfusion
    simp only [assignJob, perform_bind, follows_call]
    refine ⟨rfl, fun executionID => ⟨rfl, fun created => ?_⟩⟩
    rcases created with e | _
    · exact Push.noConfusion
    refine ⟨rfl, fun now => ⟨rfl, fun assigned => ?_⟩⟩
    rcases assigned with e | _
    · exact Push.noConfusion
    exact ⟨rfl, fun _ => pushJob_follows
      { job with attempt := job.attempt + 1, executionID := executionID }
      wc executionID now⟩
  · exact Push.noConfusion

variable (cron : Cron) (cfg : SchedulerConfig)

theorem handleResult_follows (id jobID executionID workerID : String) (attempt : Int)
    (result : ExecutionResult) :
    (Task.body cron cfg (.handleResult jobID executionID workerID attempt result)).Follows
      (pushProtocol id) returnsSettled .settled := by
  have hcalls := callsOnly_bind
    (handleResult_calls cron jobID executionID workerID attempt result)
    fun r => callsOnly_ret _ (Outcome.returned r)
  refine follows_of_callsOnly hcalls (fun c hc => ?_) fun _ => Push.noConfusion
  exact ⟨afterPush_of_resultCall hc, fun _ => rfl⟩

def handling (job : QueuedJob) (w : World) : TaskPool where
  state := w
  threads := [⟨.handleQueuedJob job, Task.body cron cfg (.handleQueuedJob job)⟩]

def ThreadAt (id : String) (phase : Push) (thread : TaskThread) : Prop :=
  thread.rest.Follows (pushProtocol id) returnsSettled phase

/-- Before a push is accepted the handler is alone; afterwards every thread is
at its RUNNING write or has it behind it. -/
def RaceProgress (id : String) (p : TaskPool) : Prop :=
  (p.state.accepted = [] ∧ ∃ job rest, p.threads = [⟨.handleQueuedJob job, rest⟩] ∧
      ThreadAt id .ahead ⟨.handleQueuedJob job, rest⟩) ∨
    ∀ thread ∈ p.threads, ThreadAt id .settled thread ∨ ThreadAt id .accepted thread

theorem handling_progress {job : QueuedJob} {w : World} (hw : w.accepted = []) :
    RaceProgress job.jobID (handling cron cfg job w) := by
  refine Or.inl ⟨hw, job, _, rfl, ?_⟩
  exact follows_bind (handleQueuedJob_follows job) fun _ _ hphase => hphase

theorem threadAt_next {id : String} {task : Task} {c : Call} {next : Answer c → Prog Outcome}
    (hthread : ThreadAt id .settled ⟨task, .call c next⟩ ∨
      ThreadAt id .accepted ⟨task, .call c next⟩) (answer : Answer c) :
    ThreadAt id .settled ⟨task, next answer⟩ := by
  rcases hthread with hsettled | haccepted
  · exact hsettled.2 answer
  · exact haccepted.2 answer

theorem ahead_next {id : String} {task : Task} {c : Call} {next : Answer c → Prog Outcome}
    {w : World} {d : Draw} (hw : w.accepted = [])
    (hthread : ThreadAt id .ahead ⟨task, .call c next⟩) :
    ((step c w d).2.accepted = [] ∧ ThreadAt id .ahead ⟨task, next (step c w d).1⟩) ∨
      ThreadAt id .settled ⟨task, next (step c w d).1⟩ ∨
      ThreadAt id .accepted ⟨task, next (step c w d).1⟩ := by
  have hnext := hthread.2 (step c w d).1
  cases c with
  | executeJob workerID request =>
      simp only [pushProtocol] at hnext
      split at hnext
      · exact Or.inr (Or.inr hnext)
      · exact Or.inr (Or.inl hnext)
  | _ => exact Or.inl ⟨by rw [accepted_step (by simp), hw], hnext⟩

theorem progress_step {id : String} {p q : TaskPool} {label : TaskLabel}
    (hp : RaceProgress id p) (hlabel : startsResultsOnly label)
    (hstep : (service cron cfg).Step p label q) : RaceProgress id q := by
  rcases hp with ⟨hw, job, rest, hthreads, hahead⟩ | hpast
  · cases hstep with
    | @start _ task _ hstart =>
        cases task with
        | handleResult jobID executionID workerID attempt result =>
            -- a result needs an accepted push, and there is none yet
            simp [service, startTask, hw] at hstart
        | _ => exact absurd hlabel Bool.false_ne_true
    | @advance w left right task c next d hallowed =>
        rcases List.append_eq_singleton_iff.mp hthreads with ⟨rfl, hright⟩ | ⟨-, hright⟩
        · simp only [List.cons.injEq, Thread.mk.injEq] at hright
          obtain ⟨⟨rfl, rfl⟩, rfl⟩ := hright
          rcases ahead_next hw hahead with ⟨hw', hahead'⟩ | hpast
          · exact Or.inl ⟨hw', job, _, rfl, hahead'⟩
          · refine Or.inr fun thread hthread => ?_
            rw [List.mem_singleton.mp hthread]
            exact hpast
        · simp at hright
    | finish d =>
        rcases List.append_eq_singleton_iff.mp hthreads with ⟨rfl, hright⟩ | ⟨-, hright⟩
        · simp only [List.cons.injEq] at hright
          obtain ⟨-, rfl⟩ := hright
          exact Or.inr fun thread hthread => absurd hthread List.not_mem_nil
        · simp at hright
  · refine Or.inr (forall_threads_step ?_ hstep ?_ hpast)
    · intro task c next answer hthread
      exact Or.inl (threadAt_next hthread answer)
    · rintro task rfl
      cases task with
      | handleResult jobID executionID workerID attempt result =>
          exact Or.inl (handleResult_follows cron cfg id jobID executionID workerID
            attempt result)
      | _ => exact absurd hlabel Bool.false_ne_true

theorem not_running_step {id : String} {c : Call} (hc : afterPush id c) {w : World}
    {d : Draw} (hd : d.fault = none)
    (hw : writesState id c ∨ w.jobState id ≠ some .running) :
    (step c w d).2.jobState id ≠ some .running := by
  rcases jobState_step c w d id with hsame | ⟨job, rfl, -, hafter⟩ |
    ⟨state, fields, onlyFrom, before, rfl, -, -, hafter⟩
  · rcases hw with hwrite | hw
    · cases c with
      | updateJobStateIf id' state fields onlyFrom =>
          obtain rfl : id' = id := by simpa [writesState] using hwrite
          obtain ⟨hstate, rfl⟩ := hc rfl
          rw [jobState_update hd]
          cases w.jobState id' <;> simp [hstate]
      | _ => exact absurd hwrite Bool.false_ne_true
    · rwa [hsame]
  · rw [hafter]
    intro hrunning
    exact hc (Option.some.inj hrunning)
  · rw [hafter]
    intro hrunning
    exact (hc rfl).1 (Option.some.inj hrunning)

theorem settled_of_outside {id : String} {p : TaskPool}
    (hpast : ∀ thread ∈ p.threads, ThreadAt id .settled thread ∨ ThreadAt id .accepted thread)
    (houtside : aboutToMarkRunning id p = false) :
    ∀ thread ∈ p.threads, ThreadAt id .settled thread := by
  rintro ⟨task, rest⟩ hthread
  rcases hpast _ hthread with hsettled | haccepted
  · exact hsettled
  · cases rest with
    | ret value => exact absurd rfl haccepted
    | call c next =>
        have hany := List.any_eq_false.mp houtside _ hthread
        exact absurd haccepted.1 (by simpa [pushProtocol, Program.next?] using hany)

def Finished (id : String) (p : TaskPool) : Prop :=
  (∀ thread ∈ p.threads, ThreadAt id .settled thread) ∧
    p.state.jobState id ≠ some .running

theorem finished_step {id : String} {p q : TaskPool} {label : TaskLabel}
    (hp : Finished id p) (hlabel : startsResultsOnly label)
    (hstep : (service cron cfg).Step p label q) : Finished id q := by
  refine ⟨forall_threads_step ?_ hstep ?_ hp.1, ?_⟩
  · intro task c next answer hthread
    exact threadAt_next (Or.inl hthread) answer
  · rintro task rfl
    cases task with
    | handleResult jobID executionID workerID attempt result =>
        exact handleResult_follows cron cfg id jobID executionID workerID attempt result
    | _ => exact absurd hlabel Bool.false_ne_true
  · cases hstep with
    | start hstart =>
        rw [jobState_start hstart]
        exact hp.2
    | advance hallowed =>
        have hthread := hp.1 _ (List.mem_append_cons_self)
        exact not_running_step hthread.1 hallowed.2 (Or.inr hp.2)
    | @finish _ _ _ task value d =>
        rw [jobState_finish]
        exact hp.2

/-- Fast results are safe outside the window.  A handler is started on its own
and the results of its push join in.  As long as no result is written between
the accepted push and the RUNNING write, a job whose result has been written is
never RUNNING again. -/
theorem not_running_after_result {job : QueuedJob} {w : World} {p q r : TaskPool}
    {jobID executionID workerID : String} {attempt : Int} {result : ExecutionResult}
    {c : Call} (hw : w.accepted = [])
    (hbefore : (service cron cfg).Reaches (fun p label => inRace job.jobID p label)
      (handling cron cfg job w) p)
    (hwrite : writesState job.jobID c)
    (hinside : inRace job.jobID p
      (.made (.handleResult jobID executionID workerID attempt result) c))
    (hresult : (service cron cfg).Step p
      (.made (.handleResult jobID executionID workerID attempt result) c) q)
    (hafter : (service cron cfg).Reaches (fun p label => inRace job.jobID p label) q r) :
    r.state.jobState job.jobID ≠ some .running := by
  have hsplit : ∀ p label, inRace job.jobID p label → startsResultsOnly label := by
    intro p label hlabel
    exact (Bool.and_eq_true_iff.mp hlabel).1
  have hp : RaceProgress job.jobID p :=
    reaches_invariant (fun p label q hp hlabel hstep =>
      progress_step cron cfg hp (hsplit p label hlabel) hstep) hbefore
      (handling_progress cron cfg hw)
  have hq : Finished job.jobID q := by
    rcases hp with ⟨-, handled, rest, hthreads, -⟩ | hpast
    · cases hresult
      rcases List.append_eq_singleton_iff.mp hthreads with ⟨-, h⟩ | ⟨-, h⟩ <;> simp at h
    · have houtside : aboutToMarkRunning job.jobID p = false := by
        simpa [inRace, startsResultsOnly, reportsOutsideWindow, hwrite] using hinside
      have hsettled := settled_of_outside hpast houtside
      refine ⟨forall_threads_step ?_ hresult (by simp) hsettled, ?_⟩
      · intro task c next answer hthread
        exact threadAt_next (Or.inl hthread) answer
      · cases hresult with
        | advance hallowed =>
            have hthread := hsettled _ (List.mem_append_cons_self)
            exact not_running_step hthread.1 hallowed.2 (Or.inl hwrite)
  exact (reaches_invariant (fun p label q hp hlabel hstep =>
    finished_step cron cfg hp (hsplit p label hlabel) hstep) hafter hq).2

def echoReport : Task :=
  .handleResult "job" "execution" "worker" 1 { success := true }

def echoStart : TaskPool :=
  handling utcOnly smallConfig echoMessage (oneWorker (echoJob .queued) [])

def reportFirst : List (Move Task Draw) :=
  movesToPush 0 "execution" ++ .start echoReport :: List.replicate 5 (.advance 1 { now := 3 })

def runningFirst : List (Move Task Draw) :=
  movesToPush 0 "execution" ++ .advance 0 { now := 3 } :: .start echoReport ::
    List.replicate 5 (.advance 1 { now := 4 })

/-- A job whose result arrived before the handler's RUNNING write is COMPLETED
and then RUNNING again. -/
theorem completed_then_running :
    ∃ p q r : TaskPool, ∃ c : Call,
      smallService.Reaches (fun _ label => startsResultsOnly label) echoStart p ∧
      writesState "job" c ∧ smallService.Step p (.made echoReport c) q ∧
      q.state.jobState "job" = some .completed ∧
      smallService.Reaches (fun _ label => startsResultsOnly label) q r ∧
      r.state.jobState "job" = some .running := by
  let p := (smallService.follow (fun _ => startsResultsOnly) echoStart reportFirst).get
    (by decide +kernel)
  let m := (smallService.move p (.advance 1 { now := 3 })).get (by decide +kernel)
  let r := (smallService.follow (fun _ => startsResultsOnly) m.2 [.advance 0 { now := 4 }]).get
    (by decide +kernel)
  have hstep : smallService.Step p m.1 m.2 := step_of_get _
  have hlabel : m.1 = .made echoReport
      (.updateJobStateIf "job" .completed { completedAt := some 3 } []) := by rfl
  rw [hlabel] at hstep
  refine ⟨p, m.2, r, _, ?_, rfl, hstep, by decide +kernel, ?_, by decide +kernel⟩
  · exact reaches_of_get _
  · exact reaches_of_get _

theorem not_running_after_late_report :
    ∃ p q r : TaskPool, ∃ c : Call, smallService.Step p (.made echoReport c) q ∧
      r.state.jobState "job" = some .completed ∧ r.threads.isEmpty ∧
      r.state.jobState echoMessage.jobID ≠ some .running := by
  let p := (smallService.follow (inRace echoMessage.jobID) echoStart runningFirst).get
    (by decide +kernel)
  let m := (smallService.move p (.advance 1 { now := 4 })).get (by decide +kernel)
  let r := (smallService.follow (inRace echoMessage.jobID) m.2
    [.advance 1 {}, .finish 1 {}, .advance 0 {}, .advance 0 {}, .finish 0 {}]).get
    (by decide +kernel)
  have hbefore : smallService.Reaches (fun p label => inRace echoMessage.jobID p label)
      echoStart p := reaches_of_get _
  have hafter : smallService.Reaches (fun p label => inRace echoMessage.jobID p label)
      m.2 r := reaches_of_get _
  have hstep : smallService.Step p m.1 m.2 := step_of_get _
  have hlabel : m.1 = .made echoReport
      (.updateJobStateIf "job" .completed { completedAt := some 4 } []) := by rfl
  have hinside : inRace echoMessage.jobID p m.1 := by decide +kernel
  rw [hlabel] at hstep hinside
  refine ⟨p, m.2, r, _, hstep, by decide +kernel, by decide +kernel, ?_⟩
  exact not_running_after_result utcOnly smallConfig rfl hbefore rfl hinside hstep hafter

end Chronos.FastResultRace
