import Chronos.WorkerRegistry

namespace Chronos.ServiceSteps

open Chronos.Domain
open Chronos.Library.CallMachine
open Chronos.MemoryStore
open Chronos.Operations
open Chronos.SchedulerService (SchedulerConfig)
open Chronos.SharedState
open Chronos.WorkerRegistry
open Relation

/-- An event of the registry, which belongs to no job. -/
inductive AboutWorker : Event → Prop
  | registered (workerID : String) : AboutWorker ⟨.workerRegistered, "", "", workerID, 0⟩
  | deregistered (workerID : String) : AboutWorker ⟨.workerDeregistered, "", "", workerID, 0⟩

/-- What the requests of workers and a restart of the scheduler can change. -/
inductive WorkersChange (w : World) : World → Prop
  | mk (registry : Registry) (workers : WorkerTable) (news : List Event)
      (hnews : ∀ event ∈ news, AboutWorker event) :
      WorkersChange w { w with
        registry := registry
        store := { w.store with workers := workers }
        events := w.events ++ news }

section Requests

variable (w : World)

theorem silent_change (registry : Registry) (workers : WorkerTable) :
    WorkersChange w { w with
      registry := registry, store := { w.store with workers := workers } } := by
  have hchange := WorkersChange.mk (w := w) registry workers []
    fun _ h => absurd h List.not_mem_nil
  rwa [List.append_nil] at hchange

theorem emitFor_change (registry : Registry) (workers : WorkerTable) {eventType : EventType}
    {workerID : String} (r : Reception)
    (hevent : AboutWorker ⟨eventType, "", "", workerID, 0⟩) :
    WorkersChange w (emitFor { w with
      registry := registry, store := { w.store with workers := workers } } eventType workerID
      r) := by
  unfold emitFor
  split
  · exact silent_change w registry workers
  · exact .mk registry workers _ (List.forall_mem_singleton.mpr hevent)

theorem registerWorker_change (worker : Worker) (r : Reception) :
    WorkersChange w (registerWorker w worker r).2 := by
  unfold registerWorker
  cases r.upsertFault with
  | some e => exact silent_change w w.registry w.store.workers
  | none =>
      cases r.dialFault with
      | some e => exact silent_change w w.registry _
      | none => exact emitFor_change w _ _ r (.registered _)

theorem heartbeat_change (workerID : String) (active capacity : Int) (r : Reception) :
    WorkersChange w (heartbeat w workerID active capacity r).2 := by
  unfold heartbeat
  cases w.registry.workers.get? workerID with
  | none => exact silent_change w w.registry w.store.workers
  | some wc =>
      cases r.upsertFault with
      | some e => exact silent_change w _ w.store.workers
      | none => exact silent_change w _ _

theorem deregister_change (workerID : String) (r : Reception) :
    WorkersChange w (deregister w workerID r) :=
  emitFor_change w _ w.store.workers r (.deregistered workerID)

theorem restart_change : WorkersChange w { w with registry := .new } :=
  silent_change w .new w.store.workers

end Requests

/-- An operation with what it has drawn, or a change of the workers. -/
inductive Operation (δ : Type)
  | task (task : Task) (draws : δ)
  | workers

variable {δ : Type}

def Operation.task? : Operation δ → Option Task
  | .task t _ => some t
  | .workers => none

/-- The condition on an operation; there is none on the workers. -/
def Operation.Meets (P : Task → δ → World → Prop) (w : World) : Operation δ → Prop
  | .task t draws => P t draws w
  | .workers => True

/-- One operation after another, and between them what the workers change. -/
inductive Step (Serves : Task → World → δ → World → Prop) : World → Operation δ → World → Prop
  | task {task : Task} {w w' : World} {draws : δ} (hserves : Serves task w draws w') :
      Step Serves w (.task task draws) w'
  | workers {w w' : World} (hchange : WorkersChange w w') : Step Serves w .workers w'

/-- The runs in which every operation meets the condition. -/
def Reaches (Serves : Task → World → δ → World → Prop) (P : Task → δ → World → Prop) :
    World → World → Prop :=
  ReflTransGen fun w w' => ∃ operation, Step Serves w operation w' ∧ operation.Meets P w

variable (cron : Cron) (cfg : SchedulerConfig) (M : Machine Call Answer World Draw)

/-- The operation from its start to its end. -/
def Completes (task : Task) (w : World) (ds : List Draw) (w' : World) : Prop :=
  ∃ outcome, M.Runs (task.body cron cfg) w ds outcome w'

/-- The operation up to any of its calls. -/
def Halts (task : Task) (w : World) (trace : List (Call × Draw)) (w' : World) : Prop :=
  M.Halts (task.body cron cfg) w trace w'

theorem completes_of_get {M : Machine Call Answer World Draw}
    [∀ w c d, Decidable (M.Allowed w c d)] {task : Task} {ds : List Draw} {w : World}
    (hperform : (perform cron cfg M task ds w).isSome) :
    Step (Completes cron cfg M) w (.task task ds) ((perform cron cfg M task ds w).get hperform) :=
  .task (runs_of_perform cron cfg hperform)

end Chronos.ServiceSteps
