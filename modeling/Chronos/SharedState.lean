import Chronos.Library.CallMachine
import Chronos.MemoryQueue
import Chronos.MemoryStore
import Mathlib.Data.Fintype.EquivFin
import Mathlib.Tactic.NormNum

namespace Chronos.SharedState

open Chronos.Domain
open Chronos.Library.CallProgram
open Chronos.Library.CallMachine
open Chronos.Library.KeyedTable
open Chronos.MemoryQueue
open Chronos.MemoryStore

/-- An entry of the scheduler's registry.  `conn` tells apart the objects made
by successive registrations of one worker id. -/
structure WorkerConn where
  info : Worker
  conn : Nat := 0
  deriving DecidableEq, Repr

abbrev ConnTable := Table fun wc : WorkerConn => wc.info.id

structure Registry where
  workers : ConnTable
  pendingCancels : Finmap (fun _ : String => Finset String)

def Registry.new : Registry where
  workers := .empty
  pendingCancels := ∅

def pickWorker (conns : List WorkerConn) : Option WorkerConn :=
  conns.foldl (fun best wc =>
    if wc.info.isAssignable then
      match best with
      | none => some wc
      | some b => if wc.info.activeJobs < b.info.activeJobs then some wc else best
    else best) none

theorem mem_of_foldl_choice {α : Type} {choose : Option α → α → Option α}
    (hchoose : ∀ best item, choose best item = best ∨ choose best item = some item)
    {items : List α} {best : Option α} {chosen : α}
    (hfold : items.foldl choose best = some chosen) : best = some chosen ∨ chosen ∈ items := by
  induction items generalizing best with
  | nil => exact Or.inl hfold
  | cons item rest ih =>
      rcases ih hfold with hbest | hmem
      · rcases hchoose best item with hkept | htaken
        · exact Or.inl (hkept.symm.trans hbest)
        · obtain rfl := Option.some.inj (htaken.symm.trans hbest)
          exact Or.inr List.mem_cons_self
      · exact Or.inr (List.mem_cons_of_mem item hmem)

theorem mem_of_pickWorker {conns : List WorkerConn} {wc : WorkerConn}
    (hpick : pickWorker conns = some wc) : wc ∈ conns := by
  refine (mem_of_foldl_choice (fun best wc => ?_) hpick).resolve_left (Option.some_ne_none wc).symm
  split
  · split
    · exact Or.inr rfl
    · split
      · exact Or.inr rfl
      · exact Or.inl rfl
  · exact Or.inl rfl

theorem foldl_choice_ne_none {α : Type} {choose : Option α → α → Option α}
    (hkeeps : ∀ best item, best ≠ none → choose best item ≠ none) {items : List α}
    {best : Option α} (h : best ≠ none ∨ ∃ item ∈ items, choose none item ≠ none) :
    items.foldl choose best ≠ none := by
  induction items generalizing best with
  | nil =>
      rcases h with hbest | ⟨item, hitem, -⟩
      · exact hbest
      · exact absurd hitem List.not_mem_nil
  | cons next rest ih =>
      refine ih ?_
      by_cases hbest : best = none
      · subst hbest
        obtain ⟨item, hitem, htaken⟩ := h.resolve_left (not_not_intro rfl)
        rcases List.mem_cons.mp hitem with rfl | hrest
        · exact Or.inl htaken
        · exact Or.inr ⟨item, hrest, htaken⟩
      · exact Or.inl (hkeeps best next hbest)

theorem pickWorker_ne_none {conns : List WorkerConn} {wc : WorkerConn} (hmem : wc ∈ conns)
    (hassignable : wc.info.isAssignable) : pickWorker conns ≠ none := by
  refine foldl_choice_ne_none ?_ (Or.inr ⟨wc, hmem, ?_⟩)
  · intro best item hbest
    split
    · split
      · exact Option.some_ne_none item
      · split
        · exact Option.some_ne_none item
        · exact hbest
    · exact hbest
  · simp [hassignable]

/-- `w.info.ActiveJobs++` through the pointer that `pickWorker` returned. -/
def Registry.incActiveJobs (r : Registry) (wc : WorkerConn) : Registry :=
  match r.workers.get? wc.info.id with
  | none => r
  | some current =>
      if current.conn = wc.conn then
        let info := { current.info with activeJobs := current.info.activeJobs + 1 }
        { r with workers := r.workers.put ⟨info, current.conn⟩ }
      else r

def Registry.decActiveJobs (r : Registry) (workerID : String) : Registry :=
  match r.workers.get? workerID with
  | none => r
  | some current =>
      if current.info.activeJobs > 0 then
        let info := { current.info with activeJobs := current.info.activeJobs - 1 }
        { r with workers := r.workers.put ⟨info, current.conn⟩ }
      else r

def Registry.addPendingCancel (r : Registry) (workerID jobID : String) : Registry :=
  let ids := (r.pendingCancels.lookup workerID).getD ∅
  { r with pendingCancels := r.pendingCancels.insert workerID (insert jobID ids) }

def Registry.clearPendingCancel (r : Registry) (workerID jobID : String) : Registry :=
  match r.pendingCancels.lookup workerID with
  | none => r
  | some ids =>
      if ids.erase jobID = ∅ then
        { r with pendingCancels := r.pendingCancels.erase workerID }
      else { r with pendingCancels := r.pendingCancels.insert workerID (ids.erase jobID) }

structure ExecuteJobRequest where
  jobID : String
  executionID : String
  name : String
  type : JobType
  payload : Option RawMessage
  attempt : Int
  timeoutMs : Int
  traceID : String
  deriving DecidableEq, Repr

structure ExecuteJobResponse where
  accepted : Bool
  message : String := ""
  deriving DecidableEq, Repr

structure Accepted where
  workerID : String
  request : ExecuteJobRequest
  deriving DecidableEq, Repr

/-- Everything the operations share: the job store, the work queue, the
registry of the scheduler, the identifiers handed out so far, the pushes and
cancellations the workers have received, and the events emitted. -/
structure World where
  store : Store
  queue : Queue
  registry : Registry
  issued : List String
  accepted : List Accepted
  cancels : List (String × String × String)
  events : List Event

def World.jobState (w : World) (id : String) : Option JobState :=
  (w.store.jobs.get? id).map Job.state

def World.empty : World where
  store := .new
  queue := {}
  registry := .new
  issued := []
  accepted := []
  cancels := []
  events := []

/-- The calls the API handlers and the scheduler make: the clock, fresh
identifiers, the job store, the queue, the event publisher, the critical
sections of the scheduler, and the workers' RPCs. -/
inductive Call
  | timeNow
  | newUUID
  | randFloat64
  | createJob (job : Job)
  | getJob (id : String)
  | updateJobStateIf (id : String) (state : JobState) (fields : Fields)
      (onlyFrom : List JobState)
  | listJobs (state : Option JobState) (limit : Int)
  | listDueScheduled (limit : Int)
  | listCancelRequested (limit : Int)
  | listTimedOutRunning (now : Time) (limit : Int)
  | createExecution (ex : JobExecution)
  | finishExecution (id : String) (state : ExecutionState) (result : ExecutionResult)
  | markStaleWorkers (heartbeatTimeout grace : Duration)
  | enqueue (job : QueuedJob)
  | emit (event : Event)
  | pickWorker
  | incActiveJobs (wc : WorkerConn)
  | decActiveJobs (workerID : String)
  | addPendingCancel (workerID jobID : String)
  | clearPendingCancel (workerID jobID : String)
  | lookupWorker (workerID : String)
  | deleteWorker (workerID : String)
  | deletePendingCancels (workerID : String)
  | executeJob (workerID : String) (request : ExecuteJobRequest)
  | cancelJob (workerID jobID executionID : String)

@[reducible] def Answer : Call → Type
  | .timeNow => Time
  | .newUUID => String
  | .randFloat64 => ℚ
  | .createJob _ => Except Err Job
  | .getJob _ => Except Err Job
  | .updateJobStateIf _ _ _ _ => Except Err Unit
  | .listJobs _ _ => Except Err (List Job)
  | .listDueScheduled _ => Except Err (List Job)
  | .listCancelRequested _ => Except Err (List Job)
  | .listTimedOutRunning _ _ => Except Err (List Job)
  | .createExecution _ => Except Err Unit
  | .finishExecution _ _ _ => Except Err Unit
  | .markStaleWorkers _ _ => Except Err (List String × List String)
  | .enqueue _ => Except Err Unit
  | .emit _ => Except Err Unit
  | .pickWorker => Option WorkerConn
  | .incActiveJobs _ => Unit
  | .decActiveJobs _ => Unit
  | .addPendingCancel _ _ => Option WorkerConn
  | .clearPendingCancel _ _ => Unit
  | .lookupWorker _ => Option WorkerConn
  | .deleteWorker _ => Unit
  | .deletePendingCancels _ => Unit
  | .executeJob _ _ => Except Err (Option ExecuteJobResponse)
  | .cancelJob _ _ _ => Except Err Unit

abbrev Prog := Program Call Answer

abbrev ask (c : Call) : Prog (Answer c) := perform c

abbrev emit (eventType : EventType) (jobID executionID workerID : String)
    (attempt : Int) : Prog (Except Err Unit) :=
  ask (.emit ⟨eventType, jobID, executionID, workerID, attempt⟩)

/-- What one call takes from outside: the clock, a fresh identifier, a random
number, the order in which a map is visited, a failure of the store, the queue
or the network, and the worker's reply to a push. -/
structure Draw where
  now : Time := 0
  uuid : String := ""
  rand : ℚ := 0
  order : List String := []
  fault : Option Err := none
  reply : Except Err (Option ExecuteJobResponse) := .ok (some { accepted := true })

def guarded {α : Type} (d : Draw) (w : World) (effect : Except Err α × World) :
    Except Err α × World :=
  match d.fault with
  | some e => (.error e, w)
  | none => effect

def acceptedPush (w : World) (workerID : String) (request : ExecuteJobRequest)
    (reply : Except Err (Option ExecuteJobResponse)) : World :=
  match reply with
  | .ok (some response) =>
      if response.accepted then
        { w with accepted := w.accepted ++ [⟨workerID, request⟩] }
      else w
  | _ => w

def step : (c : Call) → World → Draw → Answer c × World
  | .timeNow, w, d => (d.now, w)
  | .newUUID, w, d => (d.uuid, { w with issued := d.uuid :: w.issued })
  | .randFloat64, w, d => (d.rand, w)
  | .createJob job, w, d =>
      let r := w.store.createJob job d.uuid d.now
      guarded d w (.ok r.1, { w with store := r.2 })
  | .getJob id, w, d => guarded d w (w.store.getJob id, w)
  | .updateJobStateIf id state fields onlyFrom, w, d =>
      let r := w.store.updateJobStateIf id state fields onlyFrom d.now
      guarded d w (r.1, { w with store := r.2 })
  | .listJobs state limit, w, d => guarded d w (.ok (w.store.listJobs d.order state limit), w)
  | .listDueScheduled limit, w, d =>
      guarded d w (.ok (w.store.listDueScheduled d.order d.now limit), w)
  | .listCancelRequested limit, w, d =>
      guarded d w (.ok (w.store.listCancelRequested d.order limit), w)
  | .listTimedOutRunning now limit, w, d =>
      guarded d w (.ok (w.store.listTimedOutRunning d.order now limit), w)
  | .createExecution ex, w, d =>
      guarded d w (.ok (), { w with store := w.store.createExecution ex d.uuid d.now })
  | .finishExecution id state result, w, d =>
      let r := w.store.finishExecution id state result d.now
      guarded d w (r.1, { w with store := r.2 })
  | .markStaleWorkers heartbeatTimeout grace, w, d =>
      let r := w.store.markStaleWorkers d.now heartbeatTimeout grace d.order
      guarded d w (.ok r.1, { w with store := r.2 })
  | .enqueue job, w, d =>
      let r := w.queue.enqueue job d.now
      guarded d w (r.1, { w with queue := r.2 })
  | .emit event, w, d => guarded d w (.ok (), { w with events := w.events ++ [event] })
  | .pickWorker, w, d => (pickWorker (w.registry.workers.inOrder d.order), w)
  | .incActiveJobs wc, w, _ => ((), { w with registry := w.registry.incActiveJobs wc })
  | .decActiveJobs workerID, w, _ =>
      ((), { w with registry := w.registry.decActiveJobs workerID })
  | .addPendingCancel workerID jobID, w, _ =>
      (w.registry.workers.get? workerID,
        { w with registry := w.registry.addPendingCancel workerID jobID })
  | .clearPendingCancel workerID jobID, w, _ =>
      ((), { w with registry := w.registry.clearPendingCancel workerID jobID })
  | .lookupWorker workerID, w, _ => (w.registry.workers.get? workerID, w)
  | .deleteWorker workerID, w, _ =>
      ((), { w with registry :=
        { w.registry with workers := w.registry.workers.erase workerID } })
  | .deletePendingCancels workerID, w, _ =>
      ((), { w with registry :=
        { w.registry with pendingCancels := w.registry.pendingCancels.erase workerID } })
  | .executeJob workerID request, w, d =>
      (d.reply, acceptedPush w workerID request d.reply)
  | .cancelJob workerID jobID executionID, w, d =>
      guarded d w (.ok (), { w with cancels := w.cancels ++ [(workerID, jobID, executionID)] })

/-- An identifier that was never handed out and names nothing in the store. -/
def Fresh (w : World) (id : String) : Prop :=
  id ≠ "" ∧ id ∉ w.issued ∧ id ∉ w.store.jobs.keys ∧ id ∉ w.store.executions.keys

instance (w : World) (id : String) : Decidable (Fresh w id) :=
  inferInstanceAs (Decidable (_ ∧ _))

theorem fresh_ne {w : World} {job : Job} {id jobID : String} (hfresh : Fresh w id)
    (hjob : w.store.jobs.get? jobID = some job) : id ≠ jobID := by
  rintro rfl
  exact hfresh.2.2.1 (mem_keys.mpr ⟨job, hjob⟩)

/-- What can be drawn: identifiers are fresh, a loop over a map visits every key
once, and a random number lies in the unit interval. -/
def Sound (w : World) (c : Call) (d : Draw) : Prop :=
  match c with
  | .newUUID => Fresh w d.uuid
  | .createJob job => job.id = "" → Fresh w d.uuid
  | .createExecution ex => ex.id = "" → Fresh w d.uuid
  | .listJobs _ _ => w.store.jobs.Enumerates d.order
  | .listDueScheduled _ => w.store.jobs.Enumerates d.order
  | .listCancelRequested _ => w.store.jobs.Enumerates d.order
  | .listTimedOutRunning _ _ => w.store.jobs.Enumerates d.order
  | .markStaleWorkers _ _ => w.store.workers.Enumerates d.order
  | .pickWorker => w.registry.workers.Enumerates d.order
  | .randFloat64 => 0 ≤ d.rand ∧ d.rand < 1
  | _ => True

instance (w : World) (c : Call) (d : Draw) : Decidable (Sound w c d) := by
  cases c <;> dsimp only [Sound] <;> infer_instance

/-- The operations over the memory store and queue, where the only errors are
those the code returns itself. -/
def memory : Machine Call Answer World Draw where
  step := step
  Allowed := fun w c d => Sound w c d ∧ d.fault = none

instance (w : World) (c : Call) (d : Draw) : Decidable (memory.Allowed w c d) :=
  inferInstanceAs (Decidable (_ ∧ _))

@[simp] theorem memory_step : memory.step = step := rfl

def Call.ofStore : Call → Bool
  | .createJob _ | .getJob _ | .updateJobStateIf _ _ _ _ => true
  | .listJobs _ _ | .listDueScheduled _ | .listCancelRequested _ => true
  | .listTimedOutRunning _ _ | .createExecution _ | .finishExecution _ _ _ => true
  | .markStaleWorkers _ _ => true
  | _ => false

/-- The operations over a store that does not fail, while the queue, the event
publisher and the network may, with every clock reading in `clock`. -/
def steady (clock : Time → Prop) : Machine Call Answer World Draw where
  step := step
  Allowed := fun w c d => Sound w c d ∧ (c.ofStore → d.fault = none) ∧ clock d.now

instance (clock : Time → Prop) [DecidablePred clock] (w : World) (c : Call) (d : Draw) :
    Decidable ((steady clock).Allowed w c d) :=
  inferInstanceAs (Decidable (_ ∧ _))

@[simp] theorem steady_step (clock : Time → Prop) : (steady clock).step = step := rfl

/-- The operations over a store, a queue and a network that may all fail. -/
def failing : Machine Call Answer World Draw where
  step := step
  Allowed := Sound

instance (w : World) (c : Call) (d : Draw) : Decidable (failing.Allowed w c d) :=
  inferInstanceAs (Decidable (Sound w c d))

@[simp] theorem failing_step : failing.step = step := rfl

theorem steady_of_memory {w : World} {c : Call} {d : Draw} (hdraw : memory.Allowed w c d) :
    (steady fun _ => True).Allowed w c d :=
  ⟨hdraw.1, fun _ => hdraw.2, trivial⟩

theorem runs_steady {α : Type} {p : Prog α} {w w' : World} {ds : List Draw} {value : α}
    (hrun : memory.Runs p w ds value w') : (steady fun _ => True).Runs p w ds value w' :=
  runs_mono hrun rfl fun _ _ _ hdraw => steady_of_memory hdraw

theorem ensures_memory {α : Type} {p : Prog α} {w : World} {Q : α → World → Prop}
    (hp : (steady fun _ => True).Ensures p w Q) : memory.Ensures p w Q :=
  fun ds value w' hrun => hp ds value w' (runs_steady hrun)

theorem guarded_snd {α : Type} (d : Draw) (w : World) (effect : Except Err α × World) :
    (guarded d w effect).2 = w ∨ (guarded d w effect).2 = effect.2 := by
  unfold guarded
  split
  · exact Or.inl rfl
  · exact Or.inr rfl

@[simp] theorem guarded_of_none {α : Type} {d : Draw} (h : d.fault = none) (w : World)
    (effect : Except Err α × World) : guarded d w effect = effect := by
  simp [guarded, h]

theorem guarded_of_some {α : Type} {d : Draw} {e : Err} (h : d.fault = some e) (w : World)
    (effect : Except Err α × World) : guarded d w effect = (.error e, w) := by
  simp [guarded, h]

theorem acceptedPush_eq (w : World) (workerID : String) (request : ExecuteJobRequest)
    (reply : Except Err (Option ExecuteJobResponse)) :
    acceptedPush w workerID request reply =
      { w with accepted := (acceptedPush w workerID request reply).accepted } := by
  unfold acceptedPush
  split
  · split <;> rfl
  · rfl

@[simp] theorem acceptedPush_store (w : World) (workerID : String)
    (request : ExecuteJobRequest) (reply : Except Err (Option ExecuteJobResponse)) :
    (acceptedPush w workerID request reply).store = w.store := by
  rw [acceptedPush_eq]

theorem getJob_answered {w : World} {id : String} {d : Draw} {job : Job}
    (hok : (step (.getJob id) w d).1 = .ok job) :
    w.store.jobs.get? id = some job ∧ step (.getJob id) w d = (.ok job, w) := by
  simp only [step, guarded] at hok ⊢
  split at hok
  · cases hok
  · exact ⟨getJob_eq_ok_iff.mp hok, Prod.ext hok rfl⟩

theorem exists_draw (w : World) (c : Call) (t : Time) :
    ∃ d : Draw, memory.Allowed w c d ∧ d.now = t := by
  obtain ⟨uuid, huuid⟩ := Infinite.exists_notMem_finset
    (insert "" (w.issued.toFinset ∪ w.store.jobs.keys ∪ w.store.executions.keys))
  have hfresh : Fresh w uuid := by
    simpa [Fresh, not_or, and_assoc] using huuid
  have horder : ∀ keys : Finset String, keys.toList.Nodup ∧ keys.toList.toFinset = keys :=
    fun keys => ⟨keys.nodup_toList, keys.toList_toFinset⟩
  cases c with
  | newUUID => exact ⟨{ uuid := uuid, now := t }, ⟨hfresh, rfl⟩, rfl⟩
  | createJob job => exact ⟨{ uuid := uuid, now := t }, ⟨fun _ => hfresh, rfl⟩, rfl⟩
  | createExecution ex => exact ⟨{ uuid := uuid, now := t }, ⟨fun _ => hfresh, rfl⟩, rfl⟩
  | listJobs state limit => exact ⟨{ order := _, now := t }, ⟨horder _, rfl⟩, rfl⟩
  | listDueScheduled limit => exact ⟨{ order := _, now := t }, ⟨horder _, rfl⟩, rfl⟩
  | listCancelRequested limit => exact ⟨{ order := _, now := t }, ⟨horder _, rfl⟩, rfl⟩
  | listTimedOutRunning now limit => exact ⟨{ order := _, now := t }, ⟨horder _, rfl⟩, rfl⟩
  | markStaleWorkers heartbeatTimeout grace =>
      exact ⟨{ order := _, now := t }, ⟨horder _, rfl⟩, rfl⟩
  | pickWorker => exact ⟨{ order := _, now := t }, ⟨horder _, rfl⟩, rfl⟩
  | randFloat64 => exact ⟨{ now := t }, ⟨⟨le_rfl, by norm_num⟩, rfl⟩, rfl⟩
  | _ => exact ⟨{ now := t }, ⟨trivial, rfl⟩, rfl⟩

theorem exists_runs_at {α : Type} (t : Time) (p : Prog α) (w : World) :
    ∃ ds value w', memory.Runs p w ds value w' ∧
      (steady fun now => now = t).Runs p w ds value w' := by
  let at_t : Machine Call Answer World Draw :=
    { step := step, Allowed := fun w c d => memory.Allowed w c d ∧ d.now = t }
  obtain ⟨ds, value, w', hrun⟩ := exists_runs (M := at_t) (fun w c => exists_draw w c t) p w
  refine ⟨ds, value, w', runs_mono hrun rfl fun _ _ _ hdraw => hdraw.1, ?_⟩
  exact runs_mono hrun rfl fun _ _ _ hdraw => ⟨hdraw.1.1, fun _ => hdraw.1.2, hdraw.2⟩

end Chronos.SharedState
