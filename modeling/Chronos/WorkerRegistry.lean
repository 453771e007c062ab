import Chronos.ApiServer
import Chronos.Library.Histories
import Chronos.Operations

namespace Chronos.WorkerRegistry

open Chronos.ApiServer (errorText)
open Chronos.Domain
open Chronos.Library.CallMachine
open Chronos.Library.Histories
open Chronos.Library.KeyedTable
open Chronos.MemoryStore
open Chronos.SchedulerService
open Chronos.SharedState

structure Authenticator where
  workerTokens : Finset String
  disabled : Bool := false

def Authenticator.validWorkerToken (auth : Authenticator) (token : String) : Bool :=
  auth.disabled || decide (token ∈ auth.workerTokens)

structure RegisterRequest where
  workerID : String
  address : String
  capacity : Int
  token : String
  deriving DecidableEq, Repr

structure RegisterResponse where
  ok : Bool
  message : String
  deriving DecidableEq, Repr

structure HeartbeatRequest where
  workerID : String
  activeJobs : Int
  capacity : Int
  token : String
  deriving DecidableEq, Repr

structure HeartbeatResponse where
  ok : Bool
  cancelJobIDs : Finset String := ∅
  deriving DecidableEq

structure DeregisterRequest where
  workerID : String
  token : String
  deriving DecidableEq, Repr

/-- What a request of a worker takes from outside: the clock, failures of the store, of the
connection back to the worker and of the event publisher, and the number of the new
connection. -/
structure Reception where
  now : Time := 0
  upsertFault : Option Err := none
  dialFault : Option Err := none
  emitFault : Option Err := none
  conn : Nat := 0

def emitFor (w : World) (eventType : EventType) (workerID : String) (r : Reception) : World :=
  match r.emitFault with
  | some _ => w
  | none => { w with events := w.events ++ [⟨eventType, "", "", workerID, 0⟩] }

def registerWorker (w : World) (worker : Worker) (r : Reception) : Except Err Unit × World :=
  let worker := { worker with status := .healthy, lastHeartbeat := r.now }
  let worker :=
    if worker.registeredAt = zeroTime then { worker with registeredAt := worker.lastHeartbeat }
    else worker
  match r.upsertFault with
  | some e => (.error e, w)
  | none =>
      let w := { w with store := w.store.upsertWorker worker }
      match r.dialFault with
      | some e => (.error e, w)
      | none =>
          let workers := w.registry.workers.put ⟨worker, r.conn⟩
          let w := { w with registry := { w.registry with workers := workers } }
          (.ok (), emitFor w .workerRegistered worker.id r)

def heartbeat (w : World) (workerID : String) (active capacity : Int) (r : Reception) :
    Except Err (Finset String) × World :=
  let cancelIDs := (w.registry.pendingCancels.lookup workerID).getD ∅
  match w.registry.workers.get? workerID with
  -- no error: the caller cannot tell this from a heartbeat that was recorded
  | none => (.ok cancelIDs, w)
  | some wc =>
      let info := { wc.info with
        activeJobs := active
        capacity := capacity
        lastHeartbeat := r.now
        status := .healthy }
      let workers := w.registry.workers.put ⟨info, wc.conn⟩
      let w := { w with registry := { w.registry with workers := workers } }
      match r.upsertFault with
      | some e => (.error e, w)
      | none => (.ok cancelIDs, { w with store := w.store.upsertWorker info })

def deregister (w : World) (workerID : String) (r : Reception) : World :=
  let workers := w.registry.workers.erase workerID
  emitFor { w with registry := { w.registry with workers := workers } } .workerDeregistered
    workerID r

section Server

variable (auth : Authenticator)

def receiveRegister (w : World) (req : RegisterRequest) (r : Reception) :
    RegisterResponse × World :=
  if auth.validWorkerToken req.token then
    match registerWorker w
      { id := req.workerID, address := req.address, capacity := req.capacity } r with
    | (.error e, w) => (⟨false, errorText e⟩, w)
    | (.ok _, w) => (⟨true, "registered"⟩, w)
  else (⟨false, "unauthorized"⟩, w)

def receiveHeartbeat (w : World) (req : HeartbeatRequest) (r : Reception) :
    Except Err HeartbeatResponse × World :=
  if auth.validWorkerToken req.token then
    match heartbeat w req.workerID req.activeJobs req.capacity r with
    | (.error e, w) => (.error e, w)
    | (.ok cancelIDs, w) => (.ok ⟨true, cancelIDs⟩, w)
  else (.ok ⟨false, ∅⟩, w)

def receiveDeregister (w : World) (req : DeregisterRequest) (r : Reception) : Bool × World :=
  if auth.validWorkerToken req.token then (true, deregister w req.workerID r)
  else (false, w)

/-- What changes the registry of the scheduler or the table of workers, and what reads the
registry to assign a job. -/
inductive Operation
  | register (req : RegisterRequest) (r : Reception)
  | heartbeat (req : HeartbeatRequest) (r : Reception)
  | deregister (req : DeregisterRequest) (r : Reception)
  | checkWorkers (ds : List Draw)
  | handleQueuedJob (message : QueuedJob) (trace : List (Call × Draw))
  | restart

variable (cfg : SchedulerConfig)

/-- The operations one after another, over a store and a network that may fail.  A
restart of the scheduler empties its registry. -/
inductive Step : World → Operation → World → Prop
  | register (w : World) (req : RegisterRequest) (r : Reception) :
      Step w (.register req r) (receiveRegister auth w req r).2
  | heartbeat (w : World) (req : HeartbeatRequest) (r : Reception) :
      Step w (.heartbeat req r) (receiveHeartbeat auth w req r).2
  | deregister (w : World) (req : DeregisterRequest) (r : Reception) :
      Step w (.deregister req r) (receiveDeregister auth w req r).2
  | checkWorkers {w w' : World} {ds : List Draw} {result : Except Err Unit}
      (hrun : failing.Runs (SchedulerService.checkWorkers cfg) w ds result w') :
      Step w (.checkWorkers ds) w'
  | handleQueuedJob {w w' : World} {message : QueuedJob} {trace : List (Call × Draw)}
      (hrun : failing.Halts (SchedulerService.handleQueuedJob message) w trace w') :
      Step w (.handleQueuedJob message trace) w'
  | restart (w : World) : Step w .restart { w with registry := .new }

abbrev History := List (Entry World Operation)

end Server

/-- The scheduler has the worker that sent the heartbeat in its registry, HEALTHY in both
places and open for jobs if it reported a free slot. -/
structure Usable (req : HeartbeatRequest) (w : World) : Prop where
  registered : ∃ wc, w.registry.workers.get? req.workerID = some wc ∧
    wc.info.status = .healthy ∧ (req.activeJobs < req.capacity → wc.info.isAssignable)
  stored : ∃ worker, w.store.workers.get? req.workerID = some worker ∧
    worker.status = .healthy

section Heartbeats

variable {auth : Authenticator} {cfg : SchedulerConfig} {w : World} {req : HeartbeatRequest}
  {r : Reception}

def Acknowledged (auth : Authenticator) (w : World) (req : HeartbeatRequest) (r : Reception) :
    Prop :=
  ∃ response, (receiveHeartbeat auth w req r).1 = .ok response ∧ response.ok

theorem isAssignable_of_free {worker : Worker} (hstatus : worker.status = .healthy)
    (hfree : worker.activeJobs < worker.capacity) : worker.isAssignable := by
  have hslots : ¬worker.capacity - worker.activeJobs < 0 := by omega
  simp [Worker.isAssignable, hstatus, Worker.availableSlots, hslots, hfree]

/-- A heartbeat of a worker that is not registered is acknowledged and changes nothing. -/
theorem receiveHeartbeat_unknown (r : Reception) (htoken : auth.validWorkerToken req.token)
    (hunknown : w.registry.workers.get? req.workerID = none) :
    Acknowledged auth w req r ∧ (receiveHeartbeat auth w req r).2 = w := by
  unfold Acknowledged receiveHeartbeat
  simp [htoken, heartbeat, hunknown]

theorem usable_of_known {wc : WorkerConn} (htoken : auth.validWorkerToken req.token)
    (hknown : w.registry.workers.get? req.workerID = some wc)
    (hack : Acknowledged auth w req r) : Usable req (receiveHeartbeat auth w req r).2 := by
  obtain ⟨response, hanswer, -⟩ := hack
  have hid := key_of_get? hknown
  simp only [receiveHeartbeat, htoken, if_true, heartbeat, hknown] at hanswer ⊢
  cases hupsert : r.upsertFault with
  | some e => simp [hupsert] at hanswer
  | none =>
      simp only
      let info := { wc.info with
        activeJobs := req.activeJobs
        capacity := req.capacity
        lastHeartbeat := r.now
        status := .healthy }
      have hkey : info.id = req.workerID := hid
      refine ⟨⟨⟨info, wc.conn⟩, ?_, rfl, fun hfree => ?_⟩, info, ?_, rfl⟩
      · rw [← hkey]
        exact get?_put_self _ _
      · exact isAssignable_of_free rfl hfree
      · rw [← hkey]
        exact get?_put_self _ _

/-- A heartbeat that is answered Ok leaves a usable worker just if the scheduler knew the
worker. -/
theorem heartbeat_usable_iff (htoken : auth.validWorkerToken req.token) :
    (Acknowledged auth w req r → Usable req (receiveHeartbeat auth w req r).2) ↔
      (w.registry.workers.get? req.workerID).isSome := by
  cases hknown : w.registry.workers.get? req.workerID with
  | none =>
      obtain ⟨hack, hsame⟩ := receiveHeartbeat_unknown r htoken hknown
      refine iff_of_false (fun husable => ?_) Bool.false_ne_true
      obtain ⟨wc, hwc, -⟩ := (husable hack).registered
      rw [hsame, hknown] at hwc
      cases hwc
  | some wc => exact iff_of_true (usable_of_known htoken hknown) rfl

theorem step_heartbeat {w' : World} (hstep : Step auth cfg w (.heartbeat req r) w') :
    w' = (receiveHeartbeat auth w req r).2 := by
  cases hstep
  rfl

/-- In every run, each heartbeat that is answered Ok leaves a usable worker just if each
heartbeat with a valid token comes from a worker that is in the registry at the time. -/
theorem acknowledged_heartbeats_usable_iff {w₀ : World} {history : History}
    (hrun : Run (Step auth cfg) w₀ history w) :
    (∀ entry ∈ history, ∀ req r, entry.label = .heartbeat req r →
        auth.validWorkerToken req.token → Acknowledged auth entry.before req r →
        Usable req entry.after) ↔
      ∀ entry ∈ history, ∀ req r, entry.label = .heartbeat req r →
        auth.validWorkerToken req.token →
        (entry.before.registry.workers.get? req.workerID).isSome := by
  refine forall₂_congr fun entry hentry => forall₂_congr fun req r => ?_
  refine forall₂_congr fun hlabel htoken => ?_
  have hstep := step_of_mem hrun hentry
  rw [hlabel] at hstep
  rw [step_heartbeat hstep]
  exact heartbeat_usable_iff htoken

end Heartbeats

section Scenarios

def oneToken : Authenticator := { workerTokens := {"secret"} }

def joins : RegisterRequest :=
  { workerID := "worker", address := "localhost:9091", capacity := 4, token := "secret" }

def beats : HeartbeatRequest :=
  { workerID := "worker", activeJobs := 0, capacity := 4, token := "secret" }

/-- After a restart of the scheduler, the heartbeats of a worker that stays up are
answered Ok, and the worker is picked for no job. -/
theorem heartbeat_after_restart_acknowledged :
    ∃ w₁ w₂ w₃ : World,
      Run (Step oneToken Operations.smallConfig) .empty
        [⟨w₂, .heartbeat beats {}, w₃⟩, ⟨w₁, .restart, w₂⟩, ⟨.empty, .register joins {}, w₁⟩]
        w₃ ∧
      Acknowledged oneToken w₂ beats {} ∧
      w₃.registry.workers.get? "worker" = none ∧
      ∀ order, pickWorker (w₃.registry.workers.inOrder order) = none := by
  let w₁ := (receiveRegister oneToken .empty joins {}).2
  let w₂ : World := { w₁ with registry := .new }
  have hunknown : w₂.registry.workers.get? "worker" = none := rfl
  have htoken : oneToken.validWorkerToken beats.token := by decide
  obtain ⟨hack, hsame⟩ := receiveHeartbeat_unknown {} htoken hunknown
  refine ⟨w₁, w₂, w₂, .next (.next (.next .start (.register ..)) (.restart w₁)) ?_, hack,
    hunknown, fun order => ?_⟩
  · have hstep : Step oneToken Operations.smallConfig w₂ (.heartbeat beats {}) _ :=
      .heartbeat w₂ beats {}
    rwa [hsame] at hstep
  · have hnone : w₂.registry.workers.inOrder order = [] :=
      List.filterMap_eq_nil_iff.mpr fun id _ => get?_empty id
    rw [hnone]
    rfl

theorem heartbeat_of_registered_usable :
    ∃ w₁ w₂ : World,
      Run (Step oneToken Operations.smallConfig) .empty
        [⟨w₁, .heartbeat beats {}, w₂⟩, ⟨.empty, .register joins {}, w₁⟩] w₂ ∧
      Acknowledged oneToken w₁ beats {} ∧ Usable beats w₂ := by
  let w₁ := (receiveRegister oneToken .empty joins {}).2
  let w₂ := (receiveHeartbeat oneToken w₁ beats {}).2
  have hrun : Run (Step oneToken Operations.smallConfig) .empty
      [⟨w₁, .heartbeat beats {}, w₂⟩, ⟨.empty, .register joins {}, w₁⟩] w₂ :=
    .next (.next .start (.register ..)) (.heartbeat ..)
  have hack : Acknowledged oneToken w₁ beats {} := ⟨⟨true, ∅⟩, by decide +kernel, rfl⟩
  refine ⟨w₁, w₂, hrun, hack, ?_⟩
  refine (acknowledged_heartbeats_usable_iff hrun).mpr ?_ _ List.mem_cons_self beats {} rfl
    (by decide) hack
  rintro entry hentry req r hlabel -
  rcases List.mem_cons.mp hentry with rfl | hregistered
  · cases hlabel
    decide +kernel
  · rw [List.mem_singleton.mp hregistered] at hlabel
    cases hlabel

end Scenarios

end Chronos.WorkerRegistry
