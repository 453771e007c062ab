import Chronos.SchedulerCalls
import Chronos.SharedState.Steps
import Chronos.WorkerRegistry

namespace Chronos.SuspectedWorkers

open Chronos.Domain
open Chronos.Library.CallProgram
open Chronos.Library.CallMachine
open Chronos.Library.Histories
open Chronos.Library.KeyedTable
open Chronos.MemoryStore
open Chronos.Operations (echoJob echoMessage handleDraws smallConfig sweepDraws)
open Chronos.SchedulerCalls
open Chronos.SchedulerService (SchedulerConfig dropWorker recoverWorkerJobs assignJob pushJob)
open Chronos.SharedState
open Chronos.WorkerRegistry

def storedStatus (w : World) (id : String) : Option WorkerStatus :=
  (w.store.workers.get? id).map Worker.status

/-- The worker is stored as SUSPECTED or UNAVAILABLE, and was not before. -/
def Moved (w w' : World) (id : String) : Prop :=
  (storedStatus w' id = some .suspected ∨ storedStatus w' id = some .unavailable) ∧
    storedStatus w id ≠ storedStatus w' id

instance (w w' : World) (id : String) : Decidable (Moved w w' id) :=
  inferInstanceAs (Decidable (_ ∧ _))

/-- The operation is a heartbeat or a registration of the worker. -/
def Heard (auth : Authenticator) (w : World) (id : String) : Operation → Prop
  | .register req r => req.workerID = id ∧ (receiveRegister auth w req r).1.ok
  | .heartbeat req _ => req.workerID = id ∧ auth.validWorkerToken req.token
  | _ => False

/-- A pass over the stored workers has moved the worker to SUSPECTED or UNAVAILABLE, and
the worker has not been heard of since. -/
def Stale (auth : Authenticator) (id : String) : History → Prop
  | [] => False
  | ⟨w, .checkWorkers _, w'⟩ :: history => Moved w w' id ∨ Stale auth id history
  | ⟨w, op, _⟩ :: history => Stale auth id history ∧ ¬Heard auth w id op

/-- The worker that a call assigns a job to. -/
def assigns : Call → Option String
  | .updateJobStateIf _ .assigned fields _ => fields.workerID
  | _ => none

/-- A pass of `checkWorkers` suspects no worker of the registry: one whose heartbeat is
overdue has also used up the grace period. -/
def SuspectsNone (cfg : SchedulerConfig) : Entry World Operation → Prop
  | ⟨w, .checkWorkers ds, _⟩ => ∀ d ∈ ds[0]?, ∀ id wc worker,
      w.registry.workers.get? id = some wc → w.store.workers.get? id = some worker →
      Overdue d.now cfg.heartbeatTimeout worker →
      Lost d.now cfg.heartbeatTimeout cfg.suspectGracePeriod worker
  | _ => True

section CheckWorkers

variable {w w' : World} {id : String}

theorem recoverCall_marks {c : Call} (hc : recoverCall c) (timeout grace : Duration) :
    c ≠ .markStaleWorkers timeout grace := by
  rintro rfl
  exact hc

theorem dropWorker_unregisters (workerID : String) (w : World) :
    failing.Ensures (dropWorker workerID) w fun _ w' =>
      w'.store.workers = w.store.workers ∧ ∀ id,
        id = workerID ∨ w.registry.workers.get? id = none →
          w'.registry.workers.get? id = none := by
  refine ensures_perform fun d _ => ensures_perform fun d' _ => ?_
  refine ensures_bind (ensures_mono (ensures_of_calls
    (I := fun t => t.store.workers = w.store.workers ∧ ∀ id,
      id = workerID ∨ w.registry.workers.get? id = none →
        t.registry.workers.get? id = none) ?_ (recoverWorkerJobs_calls workerID) ?_)
    fun _ _ h => ensures_ret h)
  · intro c t d hc _ ht
    refine ⟨?_, fun id hid => registered_step (ht.2 id hid) c d⟩
    rw [failing_step, workers_step (recoverCall_marks hc), ht.1]
  · refine ⟨?_, fun id hid => registered_step ?_ _ _⟩
    · rw [failing_step, workers_step fun _ _ => Call.noConfusion,
        workers_step fun _ _ => Call.noConfusion]
    · rcases hid with rfl | hnone
      · exact Finmap.lookup_erase _ _
      · exact registered_step hnone (.deleteWorker workerID) d

/-- A pass of `checkWorkers` registers nobody.  It leaves the stored workers alone, or
marks them and removes those that it finds lost from the registry. -/
theorem checkWorkers_registry {cfg : SchedulerConfig} {ds : List Draw}
    {result : Except Err Unit}
    (hrun : failing.Runs (SchedulerService.checkWorkers cfg) w ds result w') :
    (∀ id, w.registry.workers.get? id = none → w'.registry.workers.get? id = none) ∧
      (w'.store.workers = w.store.workers ∨ ∃ d ∈ ds[0]?, ∀ id,
        w'.store.workers.get? id = (w.store.workers.get? id).map
            (markStale d.now cfg.heartbeatTimeout cfg.suspectGracePeriod) ∧
          ∀ worker ∈ w.store.workers.get? id,
            Lost d.now cfg.heartbeatTimeout cfg.suspectGracePeriod worker →
              w'.registry.workers.get? id = none) := by
  obtain ⟨d, ds, rfl, hallowed, hrun⟩ := runs_perform_iff.mp hrun
  have horder : w.store.workers.Enumerates d.order := hallowed
  simp only [failing_step, step] at hrun
  cases hfault : d.fault with
  | some e =>
      rw [guarded_of_some hfault] at hrun
      obtain ⟨-, -, rfl⟩ := runs_ret_iff.mp hrun
      exact ⟨fun _ h => h, Or.inl rfl⟩
  | none =>
      rw [guarded_of_none hfault] at hrun
      generalize hmarked : w.store.markStaleWorkers d.now cfg.heartbeatTimeout
        cfg.suspectGracePeriod d.order = marked at hrun
      have hloop : failing.Ensures (forEach marked.1.2 dropWorker)
          { w with store := marked.2 } fun _ t => t.store.workers = marked.2.workers ∧ ∀ id,
            id ∈ marked.1.2 ∨ w.registry.workers.get? id = none →
              id ∈ ([] : List String) ∨ t.registry.workers.get? id = none := by
        refine ensures_forEach (I := fun rest (t : World) =>
          t.store.workers = marked.2.workers ∧ ∀ id,
            id ∈ marked.1.2 ∨ w.registry.workers.get? id = none →
              id ∈ rest ∨ t.registry.workers.get? id = none) ?_ ⟨rfl, fun _ h => h⟩
        rintro first rest t ⟨hworkers, hgone⟩
        refine ensures_mono (dropWorker_unregisters first t) ?_
        rintro _ t' ⟨hworkers', hgone'⟩
        refine ⟨hworkers'.trans hworkers, fun id hid => ?_⟩
        rcases hgone id hid with hmem | hnone
        · rcases List.mem_cons.mp hmem with hfirst | hrest
          · exact Or.inr (hgone' id (Or.inl hfirst))
          · exact Or.inl hrest
        · exact Or.inr (hgone' id (Or.inr hnone))
      obtain ⟨first, rest, value, t, rfl, hrun, hret⟩ := runs_bind_iff.mp hrun
      obtain ⟨hworkers, hgone⟩ := hloop _ _ _ hrun
      obtain ⟨-, -, rfl⟩ := runs_ret_iff.mp hret
      refine ⟨fun id hnone => (hgone id (Or.inr hnone)).resolve_left List.not_mem_nil,
        Or.inr ⟨d, rfl, fun id => ⟨?_, fun worker hworker hlost => ?_⟩⟩⟩
      · rw [hworkers, ← hmarked, get?_marked _ _ _ horder]
      · refine (hgone id (Or.inl ?_)).resolve_left List.not_mem_nil
        rw [← hmarked]
        exact (mem_unavailable _ _ _ horder id).mpr ⟨worker, hworker, hlost⟩

/-- Who is moved in a pass that suspects no worker of the registry is not registered
after it. -/
theorem unregistered_of_moved {cfg : SchedulerConfig} {ds : List Draw}
    {result : Except Err Unit}
    (hrun : failing.Runs (SchedulerService.checkWorkers cfg) w ds result w')
    (hsuspects : SuspectsNone cfg ⟨w, .checkWorkers ds, w'⟩) (hmoved : Moved w w' id) :
    w'.registry.workers.get? id = none := by
  obtain ⟨hkeeps, hworkers⟩ := checkWorkers_registry hrun
  obtain ⟨hstatus, hchanged⟩ := hmoved
  rcases hworkers with hsame | ⟨d, hd, hpass⟩
  · exact absurd (by rw [storedStatus, storedStatus, hsame]) hchanged
  · obtain ⟨hmap, hlost⟩ := hpass id
    rw [storedStatus, storedStatus, hmap] at hchanged
    cases hworker : w.store.workers.get? id with
    | none => exact absurd (by rw [hworker]; rfl) hchanged
    | some worker =>
        by_cases hislost : Lost d.now cfg.heartbeatTimeout cfg.suspectGracePeriod worker
        · exact hlost worker hworker hislost
        · have hoverdue : Overdue d.now cfg.heartbeatTimeout worker := by
            by_contra hnot
            refine hchanged ?_
            simp [hworker, markStale, hislost, hnot]
          refine hkeeps id ?_
          cases hwc : w.registry.workers.get? id with
          | none => rfl
          | some wc => exact absurd (hsuspects d hd id wc worker hwc hworker hoverdue) hislost

end CheckWorkers

section Registry

variable {auth : Authenticator} {cfg : SchedulerConfig} {w w' : World} {id : String}

theorem emitFor_registry (w : World) (eventType : EventType) (workerID : String)
    (r : Reception) : (emitFor w eventType workerID r).registry = w.registry := by
  unfold emitFor
  split <;> rfl

theorem registerWorker_unregistered (worker : Worker) (r : Reception)
    (hnone : w.registry.workers.get? id = none)
    (hother : worker.id = id → (registerWorker w worker r).1 ≠ .ok ()) :
    (registerWorker w worker r).2.registry.workers.get? id = none := by
  unfold registerWorker at hother ⊢
  cases hupsert : r.upsertFault with
  | some e => exact hnone
  | none =>
      cases hdial : r.dialFault with
      | some e => exact hnone
      | none =>
          simp only [hupsert, hdial, emitFor_registry] at hother ⊢
          rw [get?_put_of_ne]
          · exact hnone
          · rintro rfl
            refine hother ?_ rfl
            split <;> rfl

theorem receiveRegister_unregistered {req : RegisterRequest} {r : Reception}
    (hnone : w.registry.workers.get? id = none)
    (hother : ¬Heard auth w id (.register req r)) :
    (receiveRegister auth w req r).2.registry.workers.get? id = none := by
  simp only [Heard, receiveRegister] at hother ⊢
  split
  · rename_i htoken
    rw [if_pos htoken] at hother
    have hkeeps := registerWorker_unregistered
      { id := req.workerID, address := req.address, capacity := req.capacity } r hnone ?_
    · split <;> rename_i heq
      · rwa [heq] at hkeeps
      · rwa [heq] at hkeeps
    · intro hid hok
      refine hother ⟨hid, ?_⟩
      split <;> rename_i heq
      · rw [heq] at hok
        cases hok
      · rfl
  · exact hnone

theorem receiveHeartbeat_unregistered {req : HeartbeatRequest} {r : Reception}
    (hnone : w.registry.workers.get? id = none) :
    (receiveHeartbeat auth w req r).2.registry.workers.get? id = none := by
  unfold receiveHeartbeat
  split
  · cases hknown : w.registry.workers.get? req.workerID with
    | none => simpa [heartbeat, hknown] using hnone
    | some wc =>
        have hput : ∀ info : Worker, info.id = wc.info.id →
            (w.registry.workers.put ⟨info, wc.conn⟩).get? id = none := by
          intro info hinfo
          rw [get?_put_of_ne]
          · exact hnone
          · rintro rfl
            rw [hinfo, key_of_get? hknown, hknown] at hnone
            cases hnone
        simp only [heartbeat, hknown]
        cases r.upsertFault <;> exact hput _ rfl
  · exact hnone

/-- A worker enters the registry by its own registration only. -/
theorem unregistered_step {op : Operation} (hstep : Step auth cfg w op w')
    (hnone : w.registry.workers.get? id = none) (hheard : ¬Heard auth w id op) :
    w'.registry.workers.get? id = none := by
  cases hstep with
  | register req r => exact receiveRegister_unregistered hnone hheard
  | heartbeat req r => exact receiveHeartbeat_unregistered hnone
  | deregister req r =>
      unfold receiveDeregister
      split
      · simp only [deregister, emitFor_registry]
        exact get?_erase_of_none hnone _
      · exact hnone
  | checkWorkers hrun => exact (checkWorkers_registry hrun).1 id hnone
  | handleQueuedJob hrun =>
      exact halts_keeps (I := fun t => t.registry.workers.get? id = none)
        (fun c t d _ ht => registered_step ht c d) hrun hnone
  | restart => rfl

theorem unregistered_of_stale {w₀ : World} {history : History}
    (hrun : Run (Step auth cfg) w₀ history w)
    (hsuspects : ∀ entry ∈ history, SuspectsNone cfg entry) (hstale : Stale auth id history) :
    w.registry.workers.get? id = none := by
  refine run_invariant (I := fun history w => Stale auth id history →
    w.registry.workers.get? id = none) (fun h => h.elim) ?_ hrun hsuspects hstale
  intro history s op s' ih hstep hsuspects hstale
  cases op with
  | checkWorkers ds =>
      cases hstep with
      | checkWorkers hrun =>
          rcases hstale with hmoved | hold
          · exact unregistered_of_moved hrun hsuspects hmoved
          · exact (checkWorkers_registry hrun).1 id (ih hold)
  | _ => exact unregistered_step hstep (ih hstale.1) hstale.2

end Registry

section Assignments

variable {w w' : World} {message : QueuedJob} {id : String}

theorem pushJob_assigns (wc : WorkerConn) (executionID : String) (now : Time) :
    (pushJob message wc executionID now).CallsOnly fun c => assigns c = none := by
  refine (callsOnly_perform ..).mpr ⟨rfl, fun reply => ?_⟩
  cases SchedulerService.pushOutcome reply with
  | error e => trivial
  | ok _ =>
      refine (callsOnly_perform ..).mpr ⟨rfl, fun updated => ?_⟩
      cases updated with
      | error e => trivial
      | ok _ =>
          refine (callsOnly_perform ..).mpr ⟨rfl, fun _ => ?_⟩
          exact (callsOnly_perform ..).mpr ⟨rfl, fun _ => trivial⟩

theorem assignJob_assigns (wc : WorkerConn) :
    (assignJob message wc).CallsOnly fun c => ∀ id ∈ assigns c, id = wc.info.id := by
  refine (callsOnly_perform ..).mpr ⟨fun _ h => (Option.not_mem_none _ h).elim, fun _ => ?_⟩
  refine (callsOnly_perform ..).mpr ⟨fun _ h => (Option.not_mem_none _ h).elim, fun created => ?_⟩
  cases created with
  | error e => trivial
  | ok _ =>
      refine (callsOnly_perform ..).mpr ⟨fun _ h => (Option.not_mem_none _ h).elim, fun now => ?_⟩
      refine (callsOnly_perform ..).mpr ⟨fun _ h => (Option.some.inj h).symm, fun updated => ?_⟩
      cases updated with
      | error e => trivial
      | ok _ =>
          refine (callsOnly_perform ..).mpr ⟨fun _ h => (Option.not_mem_none _ h).elim,
            fun _ => ?_⟩
          refine callsOnly_mono (pushJob_assigns wc _ now) fun c hc id hid => ?_
          rw [hc] at hid
          exact (Option.not_mem_none _ hid).elim

/-- A delivery assigns the job to a worker of the registry. -/
theorem registered_of_assigns {trace : List (Call × Draw)} {c : Call} {d : Draw}
    (hrun : failing.Halts (SchedulerService.handleQueuedJob message) w trace w')
    (hcall : (c, d) ∈ trace) (hid : id ∈ assigns c) :
    ∃ wc, w.registry.workers.get? id = some wc := by
  cases trace with
  | nil => exact absurd hcall List.not_mem_nil
  | cons entry trace =>
      obtain ⟨d₀, rfl, -, hrun⟩ := halts_perform hrun
      have hcall := (List.mem_cons.mp hcall).resolve_left fun h => by cases h; cases hid
      split at hrun
      · rw [(halts_ret hrun).1] at hcall
        exact absurd hcall List.not_mem_nil
      rename_i existing hanswer
      rw [failing_step] at hanswer hrun
      rw [(getJob_answered hanswer).2] at hrun
      split at hrun
      · cases trace with
        | nil => exact absurd hcall List.not_mem_nil
        | cons entry trace =>
            obtain ⟨d₁, rfl, -, hrun⟩ := halts_perform hrun
            have hcall := (List.mem_cons.mp hcall).resolve_left fun h => by cases h; cases hid
            simp only [failing_step, step] at hrun
            split at hrun
            · rw [(halts_ret hrun).1] at hcall
              exact absurd hcall List.not_mem_nil
            · rename_i wc hpick
              obtain rfl := calls_of_halts (assignJob_assigns wc) hrun hcall id hid
              exact ⟨wc, (mem_inOrder.mp (mem_of_pickWorker hpick)).2⟩
      · rw [(halts_ret hrun).1] at hcall
        exact absurd hcall List.not_mem_nil

end Assignments

/-- In every run in which no pass suspects a worker of the registry, no delivery assigns a
job to a stale worker. -/
theorem stale_workers_get_no_jobs {auth : Authenticator} {cfg : SchedulerConfig}
    {w₀ w w' : World} {history : History} {message : QueuedJob} {trace : List (Call × Draw)}
    (hrun : Run (Step auth cfg) w₀ history w)
    (hsuspects : ∀ entry ∈ history, SuspectsNone cfg entry)
    (hstep : Step auth cfg w (.handleQueuedJob message trace) w') {c : Call} {d : Draw}
    (hcall : (c, d) ∈ trace) {id : String} (hid : id ∈ assigns c) : ¬Stale auth id history := by
  intro hstale
  cases hstep with
  | handleQueuedJob hhandled =>
      obtain ⟨wc, hwc⟩ := registered_of_assigns hhandled hcall hid
      rw [unregistered_of_stale hrun hsuspects hstale] at hwc
      cases hwc

section Scenarios

def queuedOnly : World := { World.empty with store := .putJob .new (echoJob .queued) }

/-- Twenty seconds after its registration the worker is SUSPECTED in the store.  It is
still HEALTHY in the registry, and the job goes to it. -/
theorem suspected_worker_gets_job :
    ∃ (w₁ w₂ w₃ : World) (ds : List Draw) (trace : List (Call × Draw)) (history : History),
      history = [⟨w₁, .checkWorkers ds, w₂⟩, ⟨queuedOnly, .register joins {}, w₁⟩] ∧
      Run (Step oneToken smallConfig) queuedOnly history w₂ ∧ Stale oneToken "worker" history ∧
      Step oneToken smallConfig w₂ (.handleQueuedJob echoMessage trace) w₃ ∧
      ∃ entry ∈ trace, assigns entry.1 = some "worker" := by
  let w₁ := (receiveRegister oneToken queuedOnly joins {}).2
  let ds : List Draw := [{ now := 20 * second, order := ["worker"] }]
  let checked := (failing.exec (SchedulerService.checkWorkers smallConfig) w₁ ds).get
    (by decide +kernel)
  let handled := (failing.cut (SchedulerService.handleQueuedJob echoMessage) checked.2
    (handleDraws (21 * second) "first")).get (by decide +kernel)
  have hchecked : failing.Runs (SchedulerService.checkWorkers smallConfig) w₁ ds checked.1
      checked.2 := runs_of_get _
  have hhandled : failing.Halts (SchedulerService.handleQueuedJob echoMessage) checked.2
      handled.1 handled.2 := halts_of_get _
  refine ⟨w₁, checked.2, handled.2, ds, handled.1, _, rfl,
    .next (.next .start (.register ..)) (.checkWorkers hchecked), Or.inl ?_,
    .handleQueuedJob hhandled, ?_⟩
  · decide +kernel
  · decide +kernel

def otherJoins : RegisterRequest := { joins with workerID := "other" }

theorem lost_worker_gets_no_job :
    ∃ (w₁ w₂ w₃ w₄ : World) (ds : List Draw) (trace : List (Call × Draw)) (history : History),
      history = [⟨w₂, .checkWorkers ds, w₃⟩,
        ⟨w₁, .register otherJoins { now := 59 * second }, w₂⟩,
        ⟨queuedOnly, .register joins {}, w₁⟩] ∧
      Step oneToken smallConfig w₃ (.handleQueuedJob echoMessage trace) w₄ ∧
      Stale oneToken "worker" history ∧
      (∃ entry ∈ trace, assigns entry.1 = some "other") ∧ ¬Stale oneToken "other" history := by
  let w₁ := (receiveRegister oneToken queuedOnly joins {}).2
  let w₂ := (receiveRegister oneToken w₁ otherJoins { now := 59 * second }).2
  let ds : List Draw := { now := 60 * second, order := ["worker", "other"] } :: sweepDraws 7 60
  let checked := (failing.exec (SchedulerService.checkWorkers smallConfig) w₂ ds).get
    (by decide +kernel)
  let handled := (failing.cut (SchedulerService.handleQueuedJob echoMessage) checked.2
    ({} :: { order := ["other"] } :: { uuid := "first" } :: List.replicate 8 {})).get
    (by decide +kernel)
  have hchecked : failing.Runs (SchedulerService.checkWorkers smallConfig) w₂ ds checked.1
      checked.2 := runs_of_get _
  have hhandled : failing.Halts (SchedulerService.handleQueuedJob echoMessage) checked.2
      handled.1 handled.2 := halts_of_get _
  have hassigns : ∃ entry ∈ handled.1, assigns entry.1 = some "other" := by decide +kernel
  obtain ⟨⟨c, d⟩, hcall, hid⟩ := hassigns
  refine ⟨w₁, w₂, checked.2, handled.2, ds, handled.1, _, rfl, .handleQueuedJob hhandled,
    Or.inl (by decide +kernel), ⟨_, hcall, hid⟩, ?_⟩
  refine stale_workers_get_no_jobs (.next (.next (.next .start (.register ..)) (.register ..))
    (.checkWorkers hchecked)) ?_ (.handleQueuedJob hhandled) hcall hid
  intro entry hentry
  rcases List.mem_cons.mp hentry with rfl | hregistered
  · rintro d ⟨⟩ id wc worker - hworker hoverdue
    let lost : Worker :=
      { id := "worker", address := "localhost:9091", capacity := 4, lastHeartbeat := 0,
        registeredAt := 0 }
    let live : Worker :=
      { lost with id := "other", lastHeartbeat := 59 * second, registeredAt := 59 * second }
    have hstored : ((Table.empty.put lost).put live : WorkerTable).get? id = some worker :=
      hworker
    rw [get?_put, get?_put, get?_empty] at hstored
    split at hstored
    · obtain rfl := Option.some.inj hstored
      exact absurd hoverdue (by decide)
    · split at hstored
      · obtain rfl := Option.some.inj hstored
        decide
      · cases hstored
  · rcases List.mem_cons.mp hregistered with rfl | hfirst
    · trivial
    · rw [List.mem_singleton.mp hfirst]
      trivial

end Scenarios

end Chronos.SuspectedWorkers
