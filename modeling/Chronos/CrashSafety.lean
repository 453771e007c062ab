import Chronos.QueueHandoff
import Chronos.RecordFields
import Chronos.ServiceSteps

namespace Chronos.CrashSafety

open Chronos.Domain
open Chronos.JobWrites
open Chronos.Library.CallProgram
open Chronos.Library.CallMachine
open Chronos.Library.KeyedTable
open Chronos.MemoryQueue
open Chronos.MemoryStore
open Chronos.Operations
open Chronos.QueueHandoff (runningWritten dispatchJob_owes)
open Chronos.RecordFields (hasDueTime ListedWhenDue listedWhenDue_of_dueTime)
open Chronos.SchedulerCalls
open Chronos.SchedulerService
open Chronos.ServiceSteps (WorkersChange)
open Chronos.SharedState
open Relation

variable {cron : Cron} {cfg : SchedulerConfig}

def acknowledge (w : World) (message : QueuedJob) : World :=
  { w with queue := { w.queue with items := w.queue.items.erase message } }

variable (cron cfg) in
/-- One operation after another over a queue that keeps a message until its handler
returns nil.  An operation may stop after any of its calls, each of which may fail; what
was in the memory of the process is then lost. -/
inductive Step : World → World → Prop
  | operation {task : Task} {trace : List (Call × Draw)} {w w' : World}
      (hrun : failing.Halts (task.body cron cfg) w trace w') : Step w w'
  | handled {message : QueuedJob} {ds : List Draw} {w w' : World}
      (hdelivered : message ∈ w.queue.items)
      (hrun : failing.Runs (Task.body cron cfg (.handleQueuedJob message)) w ds
        (.returned (.ok ())) w') : Step w (acknowledge w' message)
  | workers {w w' : World} (hchange : WorkersChange w w') : Step w w'

def InQueue (w : World) (id : String) : Prop :=
  ∃ message ∈ w.queue.items, message.jobID = id

structure HandedOff (w : World) : Prop where
  queued : ∀ {id}, w.jobState id = some .queued → InQueue w id
  waiting : ∀ {id job}, w.store.jobs.get? id = some job → hasDueTime job

/-- Between the enqueue and the QUEUED write the message is in the queue already. -/
structure Handing (φ : Told) (w : World) : Prop extends HandedOff w where
  enqueued : ∀ id ∈ φ.enqueued, InQueue w id

theorem inQueue_step {w : World} {id : String} (hw : InQueue w id) (c : Call) (d : Draw) :
    InQueue (step c w d).2 id := by
  obtain ⟨message, hmessage, hid⟩ := hw
  exact ⟨message, mem_queue_step hmessage c d, hid⟩

theorem inQueue_of_enqueue {message : QueuedJob} {w : World} {d : Draw}
    (hok : (step (.enqueue message) w d).1 = .ok ()) :
    InQueue (step (.enqueue message) w d).2 message.jobID := by
  simp only [step, guarded] at hok ⊢
  split at hok
  · cases hok
  · cases hclosed : w.queue.closed with
    | true => simp [Queue.enqueue, hclosed] at hok
    | false => exact exists_mem_enqueue hclosed message d.now

theorem queued_step {task : Task} {φ : Told} {w : World} {c : Call} {d : Draw}
    (hw : Handing φ w) (hadmits : (informed task).Admits φ c) {id : String}
    (hqueued : (step c w d).2.jobState id = some .queued) : InQueue (step c w d).2 id := by
  apply inQueue_step
  rcases jobState_step c w d id with hsame | ⟨job, rfl, -, hnew⟩ |
    ⟨state, fields, onlyFrom, before, rfl, -, -, hnew⟩
  · exact hw.queued (hsame ▸ hqueued)
  · have hcreates : Creates task job := hadmits.2.1
    rw [hnew, hcreates.1] at hqueued
    cases hqueued
  · rw [hnew] at hqueued
    obtain rfl := Option.some.inj hqueued
    exact hw.enqueued id (hadmits.2.2.1 rfl).1

theorem waiting_step {task : Task} {φ : Told} {w : World} {c : Call} {d : Draw}
    (hw : Handing φ w) (hadmits : (informed task).Admits φ c) {id : String} {job : Job}
    (hjob : (step c w d).2.store.jobs.get? id = some job) : hasDueTime job := by
  rcases step_jobs c w d with hsame | ⟨new, rfl, hput⟩ |
    ⟨id', state, fields, onlyFrom, old, rfl, -, -, hput⟩
  · rw [hsame] at hjob
    exact hw.waiting hjob
  · rw [hput, get?_put] at hjob
    split at hjob
    · obtain rfl := Option.some.inj hjob
      have hcreates : Creates task new := hadmits.2.1
      refine ⟨fun _ => hcreates.2.1, fun hretrying => ?_⟩
      have hstate : new.state = .retrying := hretrying
      rw [hcreates.1] at hstate
      cases hstate
    · exact hw.waiting hjob
  · rw [hput, get?_put] at hjob
    split at hjob
    · obtain rfl := Option.some.inj hjob
      have hsets : φ.Sets fields state := hadmits.2.1.1
      constructor
      · rintro rfl
        exact hsets.elim
      · rintro rfl
        have hretry : fields.nextRetryAt.isSome := hsets
        rw [applyUpdate, Option.isSome_or, hretry, Bool.true_or]
    · exact hw.waiting hjob

theorem handing_step {task : Task} {φ : Told} {w : World} {c : Call} {d : Draw}
    (hw : Handing φ w) (hadmits : (informed task).Admits φ c) :
    Handing ((informed task).after φ c (step c w d).1) (step c w d).2 := by
  have hhanded : HandedOff (step c w d).2 :=
    ⟨queued_step hw hadmits, waiting_step hw hadmits⟩
  refine ⟨hhanded, fun id hid => ?_⟩
  cases c with
  | enqueue message =>
      cases hanswer : (step (.enqueue message) w d).1 with
      | error e =>
          rw [hanswer] at hid
          exact inQueue_step (hw.enqueued id hid) _ d
      | ok _ =>
          rw [hanswer] at hid
          obtain rfl := Option.some.inj hid
          exact inQueue_of_enqueue hanswer
  | updateJobStateIf id state fields onlyFrom => exact absurd hid.symm (Option.some_ne_none _)
  | _ => exact inQueue_step (hw.enqueued id (enqueued_after hid rfl)) _ d

theorem handedOff_halts {task : Task} {trace : List (Call × Draw)} {w w' : World}
    (hw : HandedOff w) (hrun : failing.Halts (task.body cron cfg) w trace w') :
    HandedOff w' := by
  have hstart : Handing {} w := ⟨hw, fun _ hid => absurd hid.symm (Option.some_ne_none _)⟩
  have hcall : ∀ {w φ c d}, Handing φ w → (informed task).Admits φ c → failing.Allowed w c d →
      Handing ((informed task).after φ c (failing.step c w d).1) (failing.step c w d).2 :=
    fun hw hadmits _ => handing_step hw hadmits
  obtain ⟨φ, hφ⟩ := holds_of_halts hcall (body_follows cron cfg task) hstart hrun
  exact hφ.toHandedOff

theorem not_queued_step {id : String} {w : World} {c : Call} {d : Draw}
    (hc : dispatchCall id c) (hw : w.jobState id ≠ some .queued) :
    (step c w d).2.jobState id ≠ some .queued := by
  rcases jobState_step c w d id with hsame | ⟨job, rfl, -, -⟩ |
    ⟨state, fields, onlyFrom, before, rfl, -, -, hnew⟩
  · rwa [hsame]
  · exact hc.elim
  · rw [hnew]
    rintro hqueued
    obtain ⟨-, hstate | hstate, -⟩ := hc <;> rw [hstate] at hqueued <;> cases hqueued

theorem not_queued_of_runningWritten {id : String} {w : World} {c : Call} {d : Draw}
    (hwritten : runningWritten id c (step c w d).1) :
    (step c w d).2.jobState id ≠ some .queued := by
  cases c with
  | updateJobStateIf id' state fields onlyFrom =>
      cases hanswer : (step (.updateJobStateIf id' state fields onlyFrom) w d).1 with
      | error e =>
          rw [hanswer] at hwritten
          exact hwritten.elim
      | ok _ =>
          rw [hanswer] at hwritten
          obtain ⟨rfl, rfl, rfl⟩ := hwritten
          have hfault : d.fault = none := by
            cases hfault : d.fault with
            | none => rfl
            | some e => simp [step, guarded, hfault] at hanswer
          rw [jobState_update hfault]
          simp
  | _ => exact hwritten.elim

/-- A handler that returns nil leaves its job in a state that waits for no message. -/
theorem handleQueuedJob_settles (message : QueuedJob) (w : World) :
    failing.Ensures (handleQueuedJob message) w fun result w' =>
      result.isOk = false ∨ w'.jobState message.jobID ≠ some .queued := by
  refine ensures_perform fun d _ => ?_
  rw [failing_step]
  cases hread : (step (.getJob message.jobID) w d).1 with
  | error e => exact ensures_ret (Or.inl rfl)
  | ok existing =>
      obtain ⟨hstored, hstep⟩ := getJob_answered hread
      rw [hstep]
      cases hqueueable : existing.state.queueable with
      | false =>
          simp only [hqueueable, Bool.false_eq_true, if_false]
          refine ensures_ret (Or.inr ?_)
          rw [World.jobState, hstored, Option.map_some, ne_eq, Option.some.injEq]
          intro hqueued
          rw [hqueued] at hqueueable
          cases hqueueable
      | true =>
          simp only [hqueueable, if_true]
          have hcalls : (dispatchJob message).CallsOnly (dispatchCall message.jobID) := by
            refine (callsOnly_perform ..).mpr ⟨trivial, fun picked => ?_⟩
            cases picked with
            | none => trivial
            | some wc => exact assignJob_calls message wc
          refine ensures_of_owes (K := fun _ => True)
            (I := fun w : World => w.jobState message.jobID ≠ some JobState.queued)
            ?_ ?_ ?_ hcalls (dispatchJob_owes message) trivial
          · exact fun _ _ _ _ _ _ => trivial
          · intro c w d hwritten _ _
            rw [failing_step] at hwritten ⊢
            exact not_queued_of_runningWritten hwritten
          · intro c w d hc _ hw
            rw [failing_step]
            exact not_queued_step hc hw

theorem handedOff_acknowledge {message : QueuedJob} {ds : List Draw} {w w' : World}
    (hw : HandedOff w)
    (hrun : failing.Runs (Task.body cron cfg (.handleQueuedJob message)) w ds
      (.returned (.ok ())) w') : HandedOff (acknowledge w' message) := by
  obtain ⟨trace, hhalts⟩ := halts_of_runs hrun
  have hw' := handedOff_halts hw hhalts
  have hsettled : w'.jobState message.jobID ≠ some .queued := by
    obtain ⟨first, rest, result, t, rfl, hhandler, hret⟩ := runs_bind_iff.mp hrun
    obtain ⟨-, houtcome, rfl⟩ := runs_ret_iff.mp hret
    have hsettles := handleQueuedJob_settles message w first result _ hhandler
    refine hsettles.resolve_left fun hfailed => ?_
    cases houtcome
    cases hfailed
  refine ⟨fun {id} hqueued => ?_, hw'.waiting⟩
  obtain ⟨item, hitem, hid⟩ := hw'.queued hqueued
  refine ⟨item, (List.mem_erase_of_ne ?_).mpr hitem, hid⟩
  rintro rfl
  rw [hid] at hsettled
  exact hsettled hqueued

theorem handedOff_step {w w' : World} (hw : HandedOff w) (hstep : Step cron cfg w w') :
    HandedOff w' := by
  cases hstep with
  | operation hrun => exact handedOff_halts hw hrun
  | handled _ hrun => exact handedOff_acknowledge hw hrun
  | workers hchange =>
      obtain ⟨registry, workers, news, -⟩ := hchange
      exact ⟨hw.queued, hw.waiting⟩

/-- However often the process stops, a QUEUED job has its message and a waiting job its
time. -/
theorem handoff_survives_crashes {w w' : World} (hempty : w.store = .new)
    (hrun : ReflTransGen (Step cron cfg) w w') :
    (∀ id, w'.jobState id = some .queued → ∃ message ∈ w'.queue.items, message.jobID = id) ∧
      ListedWhenDue w'.store := by
  have hstart : HandedOff w := by
    have hnone : ∀ id, w.store.jobs.get? id = none := fun id => by rw [hempty]; exact get?_empty id
    refine ⟨fun {id} hqueued => ?_, fun {id job} hjob => ?_⟩
    · rw [World.jobState, hnone] at hqueued
      cases hqueued
    · rw [hnone] at hjob
      cases hjob
  have hw' : HandedOff w' := by
    induction hrun with
    | refl => exact hstart
    | tail _ hlast ih => exact handedOff_step ih hlast
  exact ⟨fun id hqueued => hw'.queued hqueued, listedWhenDue_of_dueTime hw'.waiting⟩

/-- The request stops between its enqueue and the QUEUED write; the next promotion
enqueues the job once more. -/
theorem interrupted_create_handed_off :
    ∃ w₁ w₂ : World, Step utcOnly smallConfig idleWorker w₁ ∧ Step utcOnly smallConfig w₁ w₂ ∧
      w₁.jobState "job" = some .scheduled ∧ w₂.jobState "job" = some .queued ∧
      w₂.queue.items.length = 2 ∧
      (∀ id, w₂.jobState id = some .queued → ∃ message ∈ w₂.queue.items, message.jobID = id) ∧
      ListedWhenDue w₂.store := by
  let created := (failing.cut (Task.body utcOnly smallConfig (.createJob (some echoRequest)))
    idleWorker ((createDraws 1 "job").take 8)).get (by decide +kernel)
  let promoted := (failing.cut (Task.body utcOnly smallConfig .promoteDueJobs) created.2
    (sweepDraws 6 2)).get (by decide +kernel)
  have hcreated : Step utcOnly smallConfig idleWorker created.2 :=
    .operation (halts_of_get (by decide +kernel))
  have hpromoted : Step utcOnly smallConfig created.2 promoted.2 :=
    .operation (halts_of_get (by decide +kernel))
  refine ⟨created.2, promoted.2, hcreated, hpromoted, by decide +kernel, by decide +kernel,
    by decide +kernel, ?_⟩
  exact handoff_survives_crashes (w := idleWorker) rfl
    (ReflTransGen.tail (ReflTransGen.single hcreated) hpromoted)

end Chronos.CrashSafety
