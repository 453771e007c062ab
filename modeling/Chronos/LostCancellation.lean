import Chronos.Operations
import Chronos.SchedulerCalls
import Chronos.SharedState.Steps

namespace Chronos.LostCancellation

open Chronos.Domain
open Chronos.Library.CallProgram
open Chronos.Library.CallMachine
open Chronos.Library.Interleaving
open Chronos.MemoryStore
open Chronos.Operations
open Chronos.SchedulerCalls
open Chronos.SchedulerService
open Chronos.SharedState

def saidCancelled : Outcome := .answered ⟨200, .status "CANCELLED"⟩

def saidCancelRequested : Outcome := .answered ⟨202, .status "CANCEL_REQUESTED"⟩

/-- How far a cancellation is: nothing read yet, the job found, or the state
written. -/
inductive CancelPhase
  | unread
  | found
  | cancelled
  | requested
  deriving DecidableEq

def cancelProtocol (id : String) : Protocol Call Answer CancelPhase where
  Admits
    | .unread, c => c = .getJob id
    | .found, .timeNow => True
    | .found, .updateJobStateIf id' state _ onlyFrom =>
        id' = id ∧ (state = .cancelled ∨ state = .cancelRequested) ∧ onlyFrom = []
    | .cancelled, .emit _ | .requested, .emit _ => True
    | _, _ => False
  after
    | .unread, .getJob _, .ok _ => .found
    | .found, .updateJobStateIf _ .cancelled _ _, _ => .cancelled
    | .found, .updateJobStateIf _ .cancelRequested _ _, _ => .requested
    | phase, _, _ => phase

def answersAs (phase : CancelPhase) (outcome : Outcome) : Prop :=
  (outcome = saidCancelled → phase = .cancelled) ∧
    (outcome = saidCancelRequested → phase = .requested)

theorem cancelJob_follows (cron : Cron) (cfg : SchedulerConfig) (id : String) :
    (Task.body cron cfg (.cancelJob id)).Follows (cancelProtocol id) answersAs .unread := by
  refine ⟨rfl, fun answer => ?_⟩
  rcases answer with e | job
  · cases e <;> exact ⟨by simp [saidCancelled], by simp [saidCancelRequested]⟩
  · change ((if _ then _ else if _ then _ else _ : Prog ApiServer.Response) >>= _).Follows
      _ _ CancelPhase.found
    split
    · exact ⟨by simp [saidCancelled], by simp [saidCancelRequested]⟩
    split
    · refine ⟨⟨rfl, Or.inr rfl, rfl⟩, fun _ => ⟨trivial, fun _ => ?_⟩⟩
      exact ⟨by simp [saidCancelled], fun _ => rfl⟩
    · refine ⟨trivial, fun now => ⟨⟨rfl, Or.inl rfl, rfl⟩, fun _ => ⟨trivial, fun _ => ?_⟩⟩⟩
      exact ⟨fun _ => rfl, by simp [saidCancelRequested]⟩

def NoPush (id : String) : Call → Prop
  | .executeJob _ request => request.jobID ≠ id
  | _ => True

def OnlyCancels (id : String) : Call → Prop
  | .updateJobStateIf id' state _ _ => id' = id → state = .cancelRequested ∨ state = .cancelled
  | .createJob _ => False
  | _ => True

def Unchecked (id : String) (thread : TaskThread) : Prop :=
  ∃ message, thread.task = .handleQueuedJob message ∧ message.jobID = id ∧
    thread.rest = do return .returned (← handleQueuedJob message)

def IsHandlerOf (id : String) (thread : TaskThread) : Prop :=
  ∃ message, thread.task = .handleQueuedJob message ∧ message.jobID = id

/-- When `cancelJob` writes CANCELLED, no handler of the job is between its check
and its push; when it writes CANCEL_REQUESTED, none is between its check and its
RUNNING write. -/
def cancelsOutsideHandling (id : String) (p : TaskPool) : TaskLabel → Prop
  | .made (.cancelJob _) (.updateJobStateIf id' .cancelled _ _) =>
      id' = id → ∀ thread ∈ p.threads, IsHandlerOf id thread →
        Unchecked id thread ∨ thread.rest.CallsOnly (NoPush id)
  | .made (.cancelJob _) (.updateJobStateIf id' .cancelRequested _ _) =>
      id' = id → ∀ thread ∈ p.threads, IsHandlerOf id thread →
        Unchecked id thread ∨ thread.rest.CallsOnly (OnlyCancels id)
  | _ => True

def startsCancelsAndDeliveries : TaskLabel → Bool
  | .started (.cancelJob _) | .started (.handleQueuedJob _) => true
  | .started _ => false
  | _ => true

/-- The calls of deliveries and cancellations: no job is created, and none is put
in a state a handler would accept. -/
def SystemCall : Call → Prop
  | .updateJobStateIf _ state _ _ => state.queueable = false
  | .createJob _ => False
  | _ => True

def cancelCall (id : String) : Call → Prop
  | .getJob _ | .timeNow | .emit _ => True
  | .updateJobStateIf id' state _ _ => id' = id ∧ (state = .cancelled ∨ state = .cancelRequested)
  | _ => False

theorem calls_of_follows {id : String} {phase : CancelPhase} {p : Prog Outcome}
    (hp : p.Follows (cancelProtocol id) answersAs phase) : p.CallsOnly (cancelCall id) := by
  induction p generalizing phase with
  | ret value => trivial
  | call c next ih =>
      refine ⟨?_, fun answer => ih answer (hp.2 answer)⟩
      have hadmits := hp.1
      cases phase with
      | unread =>
          obtain rfl : c = .getJob id := hadmits
          trivial
      | found =>
          cases c with
          | updateJobStateIf id' state fields onlyFrom => exact ⟨hadmits.1, hadmits.2.1⟩
          | timeNow => trivial
          | _ => exact hadmits.elim
      | cancelled =>
          cases c with
          | emit event => trivial
          | _ => exact hadmits.elim
      | requested =>
          cases c with
          | emit event => trivial
          | _ => exact hadmits.elim

section Bodies

variable (cron : Cron) (cfg : SchedulerConfig)

theorem cancelJob_calls (id : String) :
    (Task.body cron cfg (.cancelJob id)).CallsOnly (cancelCall id) :=
  calls_of_follows (cancelJob_follows cron cfg id)

theorem deliver_calls (message : QueuedJob) :
    (Task.body cron cfg (.handleQueuedJob message)).CallsOnly (dispatchCall message.jobID) :=
  callsOnly_bind (handleQueuedJob_calls message) fun _ => trivial

theorem body_systemCalls {task : Task}
    (hstarts : startsCancelsAndDeliveries (.started task)) :
    (Task.body cron cfg task).CallsOnly SystemCall := by
  cases task with
  | cancelJob id =>
      refine callsOnly_mono (cancelJob_calls cron cfg id) fun c hc => ?_
      cases c with
      | updateJobStateIf id' state fields onlyFrom => obtain ⟨-, rfl | rfl⟩ := hc <;> rfl
      | createJob job => exact hc
      | _ => trivial
  | handleQueuedJob message =>
      refine callsOnly_mono (deliver_calls cron cfg message) fun c hc => ?_
      cases c with
      | updateJobStateIf id' state fields onlyFrom => obtain ⟨-, rfl | rfl, -⟩ := hc <;> rfl
      | createJob job => exact hc
      | _ => trivial
  | _ => exact absurd hstarts Bool.false_ne_true

theorem body_harmless {id : String} {task : Task}
    (hstarts : startsCancelsAndDeliveries (.started task))
    (htask : ¬ IsHandlerOf id ⟨task, Task.body cron cfg task⟩) :
    (Task.body cron cfg task).CallsOnly fun c => NoPush id c ∧ OnlyCancels id c := by
  cases task with
  | cancelJob id' =>
      refine callsOnly_mono (cancelJob_calls cron cfg id') fun c hc => ?_
      cases c with
      | updateJobStateIf id' state fields onlyFrom => exact ⟨trivial, fun _ => hc.2.symm⟩
      | createJob job => exact hc.elim
      | executeJob workerID request => exact hc.elim
      | _ => exact ⟨trivial, trivial⟩
  | handleQueuedJob message =>
      have hne : message.jobID ≠ id := fun hid => htask ⟨message, rfl, hid⟩
      refine callsOnly_mono (deliver_calls cron cfg message) fun c hc => ?_
      cases c with
      | updateJobStateIf id' state fields onlyFrom =>
          exact ⟨trivial, fun hid => absurd (hc.1.symm.trans hid) hne⟩
      | executeJob workerID request => exact ⟨fun hid => hne (hc.symm.trans hid), trivial⟩
      | createJob job => exact hc.elim
      | _ => exact ⟨trivial, trivial⟩
  | _ => exact absurd hstarts Bool.false_ne_true

end Bodies

variable {cron : Cron} {cfg : SchedulerConfig}

/-- The job is in one of the `good` states, and every thread makes only `allowed`
calls or is a handler that has yet to read the job. -/
def Shielded (id : String) (good : Option JobState → Prop) (allowed : Call → Prop)
    (p : TaskPool) : Prop :=
  good (p.state.jobState id) ∧
    ∀ thread ∈ p.threads, Unchecked id thread ∨ thread.rest.CallsOnly allowed

theorem unchecked_call {id : String} (allowed : Call → Prop) {task : Task} {c : Call}
    {next : Answer c → Prog Outcome} (hthread : Unchecked id ⟨task, .call c next⟩)
    {w : World} {d : Draw} (hd : d.fault = none)
    (hskip : ∀ state, w.jobState id = some state → state.queueable = false) :
    (next (step c w d).1).CallsOnly allowed ∧ (step c w d).2 = w := by
  obtain ⟨message, -, rfl, hrest⟩ := hthread
  obtain ⟨-, hsame, hnext⟩ := handleQueuedJob_read hrest hd
  refine ⟨?_, hsame⟩
  rw [hnext]
  cases hstate : w.jobState message.jobID with
  | none => trivial
  | some state =>
      simp only [hskip state hstate, Bool.false_eq_true, if_false]
      trivial

theorem shielded_step {id : String} {good : Option JobState → Prop} {allowed : Call → Prop}
    {p q : TaskPool} {label : TaskLabel} (hp : Shielded id good allowed p)
    (hcalls : ∀ thread ∈ p.threads, thread.rest.CallsOnly SystemCall)
    (hstep : (service cron cfg).Step p label q)
    (hskip : ∀ state, good (some state) → state.queueable = false)
    (hgood : ∀ c w (d : Draw), allowed c → SystemCall c → good (w.jobState id) →
      good ((step c w d).2.jobState id))
    (hstarted : ∀ task, label = .started task →
      Unchecked id ⟨task, Task.body cron cfg task⟩ ∨
        (Task.body cron cfg task).CallsOnly allowed) :
    Shielded id good allowed q := by
  obtain ⟨hstate, hthreads⟩ := hp
  cases hstep with
  | start hstart =>
      refine ⟨?_, fun thread hthread => ?_⟩
      · rwa [jobState_start hstart]
      · rcases List.mem_append.mp hthread with hold | hnew
        · exact hthreads thread hold
        · rw [List.mem_singleton.mp hnew]
          exact hstarted _ rfl
  | @finish w left right task value d =>
      refine ⟨?_, fun thread hthread => hthreads thread ?_⟩
      · rwa [jobState_finish]
      · simp only [List.mem_append, List.mem_cons] at hthread ⊢
        exact hthread.imp_right Or.inr
  | @advance w left right task c next d hallowed =>
      have hmem : (⟨task, .call c next⟩ : TaskThread) ∈ left ++ ⟨task, .call c next⟩ :: right :=
        List.mem_append_cons_self
      have hmoved : (next (step c w d).1).CallsOnly allowed ∧
          good ((step c w d).2.jobState id) := by
        rcases hthreads _ hmem with hunchecked | hallowedCalls
        · have hread := unchecked_call allowed hunchecked hallowed.2
            fun state hsome => hskip state (hsome ▸ hstate)
          exact ⟨hread.1, by rw [hread.2]; exact hstate⟩
        · exact ⟨hallowedCalls.2 _,
            hgood c w d hallowedCalls.1 (hcalls _ hmem).1 hstate⟩
      refine ⟨hmoved.2, fun thread hthread => ?_⟩
      simp only [List.mem_append, List.mem_cons] at hthread hthreads
      rcases hthread with hleft | rfl | hright
      · exact hthreads thread (Or.inl hleft)
      · exact Or.inr hmoved.1
      · exact hthreads thread (Or.inr (Or.inr hright))

def Skipped (state? : Option JobState) : Prop :=
  ∀ state, state? = some state → state.queueable = false

def Cancelling (state? : Option JobState) : Prop :=
  state? = some .cancelRequested ∨ state? = some .cancelled

theorem skipped_call {id : String} {c : Call} {w : World} {d : Draw} (hc : SystemCall c)
    (hw : Skipped (w.jobState id)) : Skipped ((step c w d).2.jobState id) := by
  rcases jobState_step c w d id with hsame | ⟨job, rfl, -, -⟩ |
    ⟨state, fields, onlyFrom, before, rfl, -, -, hwritten⟩
  · rwa [hsame]
  · exact hc.elim
  · intro state' hstate'
    obtain rfl := Option.some.inj (hwritten.symm.trans hstate')
    exact hc

theorem cancelling_call {id : String} {c : Call} {w : World} {d : Draw}
    (hc : OnlyCancels id c) (hw : Cancelling (w.jobState id)) :
    Cancelling ((step c w d).2.jobState id) := by
  rcases jobState_step c w d id with hsame | ⟨job, rfl, -, -⟩ |
    ⟨state, fields, onlyFrom, before, rfl, -, -, hwritten⟩
  · rwa [hsame]
  · exact hc.elim
  · rw [hwritten]
    exact (hc rfl).imp (congrArg some) (congrArg some)

def PushesOver (id : String) : TaskPool → Prop := Shielded id Skipped (NoPush id)

def CancelHolds (id : String) : TaskPool → Prop := Shielded id Cancelling (OnlyCancels id)

/-- A cancellation of the job that has found it finds it stored, and one that has
written a state has the matching shield. -/
def CancelReady (id : String) (p : TaskPool) (rest : Prog Outcome) : Prop :=
  ∃ phase, rest.Follows (cancelProtocol id) answersAs phase ∧
    (phase ≠ .unread → (p.state.jobState id).isSome) ∧
    (phase = .cancelled → PushesOver id p) ∧ (phase = .requested → CancelHolds id p)

structure CancelProgress (id : String) (p : TaskPool) : Prop where
  calls : ∀ thread ∈ p.threads, thread.rest.CallsOnly SystemCall
  harmless : ∀ thread ∈ p.threads, ¬ IsHandlerOf id thread →
    thread.rest.CallsOnly fun c => NoPush id c ∧ OnlyCancels id c
  cancels : ∀ thread ∈ p.threads, thread.task = .cancelJob id → CancelReady id p thread.rest

section Step

variable {id : String} {p q : TaskPool} {label : TaskLabel}

theorem started_shield {allowed : Call → Prop} {task : Task}
    (hstarts : startsCancelsAndDeliveries (.started task))
    (hallowed : ∀ c, NoPush id c ∧ OnlyCancels id c → allowed c) :
    Unchecked id ⟨task, Task.body cron cfg task⟩ ∨
      (Task.body cron cfg task).CallsOnly allowed := by
  by_cases htask : IsHandlerOf id ⟨task, Task.body cron cfg task⟩
  · obtain ⟨message, rfl, hid⟩ := htask
    exact Or.inl ⟨message, rfl, hid, rfl⟩
  · exact Or.inr (callsOnly_mono (body_harmless cron cfg hstarts htask) hallowed)

theorem pushesOver_step (hp : PushesOver id p)
    (hcalls : ∀ thread ∈ p.threads, thread.rest.CallsOnly SystemCall)
    (hstarts : startsCancelsAndDeliveries label) (hstep : (service cron cfg).Step p label q) :
    PushesOver id q := by
  refine shielded_step hp hcalls hstep (fun state hgood => hgood state rfl) ?_ ?_
  · exact fun c w d _ hcall hgood => skipped_call hcall hgood
  · rintro task rfl
    exact started_shield hstarts fun c hc => hc.1

theorem cancelHolds_step (hp : CancelHolds id p)
    (hcalls : ∀ thread ∈ p.threads, thread.rest.CallsOnly SystemCall)
    (hstarts : startsCancelsAndDeliveries label) (hstep : (service cron cfg).Step p label q) :
    CancelHolds id q := by
  refine shielded_step hp hcalls hstep ?_ ?_ ?_
  · rintro state (hgood | hgood) <;> obtain rfl := Option.some.inj hgood <;> rfl
  · exact fun c w d hallowed _ hgood => cancelling_call hallowed hgood
  · rintro task rfl
    exact started_shield hstarts fun c hc => hc.2

theorem stored_step (hstep : (service cron cfg).Step p label q)
    (hp : (p.state.jobState id).isSome) : (q.state.jobState id).isSome := by
  cases hstep with
  | start hstart => rwa [jobState_start hstart]
  | finish d => rwa [jobState_finish]
  | @advance w left right task c next d hallowed =>
      simp only [World.jobState, Option.isSome_map, Option.isSome_iff_exists] at hp ⊢
      exact SharedState.stored_step hp c d

theorem calls_step (hp : CancelProgress id p) (hstarts : startsCancelsAndDeliveries label)
    (hstep : (service cron cfg).Step p label q) :
    ∀ thread ∈ q.threads, thread.rest.CallsOnly SystemCall := by
  refine forall_threads_step (fun _ _ _ answer hthread => hthread.2 answer) hstep ?_ hp.calls
  rintro task rfl
  exact body_systemCalls cron cfg hstarts

theorem harmless_step (hp : CancelProgress id p) (hstarts : startsCancelsAndDeliveries label)
    (hstep : (service cron cfg).Step p label q) :
    ∀ thread ∈ q.threads, ¬ IsHandlerOf id thread →
      thread.rest.CallsOnly fun c => NoPush id c ∧ OnlyCancels id c := by
  refine forall_threads_step ?_ hstep ?_ hp.harmless
  · exact fun task c next answer hthread hnot => (hthread hnot).2 answer
  · rintro task rfl
    exact body_harmless cron cfg hstarts

/-- A write of a cancellation raises its shield if the handlers of the job are
not in the way. -/
theorem shielded_of_write {good : Option JobState → Prop} {allowed : Call → Prop}
    (hgood : good (q.state.jobState id))
    (hharmless : ∀ thread ∈ q.threads, ¬ IsHandlerOf id thread →
      thread.rest.CallsOnly fun c => NoPush id c ∧ OnlyCancels id c)
    (hallowed : ∀ c, NoPush id c ∧ OnlyCancels id c → allowed c)
    (hhandlers : ∀ thread ∈ q.threads, IsHandlerOf id thread →
      Unchecked id thread ∨ thread.rest.CallsOnly allowed) :
    Shielded id good allowed q := by
  refine ⟨hgood, fun thread hthread => ?_⟩
  by_cases hhandler : IsHandlerOf id thread
  · exact hhandlers thread hthread hhandler
  · exact Or.inr (callsOnly_mono (hharmless thread hthread hhandler) hallowed)

theorem cancelReady_unwritten (phase : CancelPhase) {rest : Prog Outcome}
    (hfollows : rest.Follows (cancelProtocol id) answersAs phase)
    (hstored : phase ≠ .unread → (p.state.jobState id).isSome)
    (hphase : phase ≠ .cancelled ∧ phase ≠ .requested) : CancelReady id p rest :=
  ⟨phase, hfollows, hstored, fun h => absurd h hphase.1, fun h => absurd h hphase.2⟩

theorem cancelReady_frame (hp : CancelProgress id p) (hstarts : startsCancelsAndDeliveries label)
    (hstep : (service cron cfg).Step p label q) {rest : Prog Outcome}
    (hready : CancelReady id p rest) : CancelReady id q rest := by
  obtain ⟨phase, hfollows, hstored, hcancelled, hrequested⟩ := hready
  refine ⟨phase, hfollows, fun hphase => stored_step hstep (hstored hphase),
    fun hphase => ?_, fun hphase => ?_⟩
  · exact pushesOver_step (hcancelled hphase) hp.calls hstarts hstep
  · exact cancelHolds_step (hrequested hphase) hp.calls hstarts hstep

theorem handlers_of_cancel {left right : List TaskThread} {rest rest' : Prog Outcome}
    {allowed : Call → Prop}
    (hp : ∀ thread ∈ left ++ ⟨.cancelJob id, rest⟩ :: right, IsHandlerOf id thread →
      Unchecked id thread ∨ thread.rest.CallsOnly allowed) :
    ∀ thread ∈ left ++ ⟨.cancelJob id, rest'⟩ :: right, IsHandlerOf id thread →
      Unchecked id thread ∨ thread.rest.CallsOnly allowed := by
  intro thread hthread hhandler
  simp only [List.mem_append, List.mem_cons] at hthread hp
  rcases hthread with hleft | rfl | hright
  · exact hp thread (Or.inl hleft) hhandler
  · obtain ⟨message, htask, -⟩ := hhandler
    cases htask
  · exact hp thread (Or.inr (Or.inr hright)) hhandler

theorem cancel_read {w : World} {threads : List TaskThread}
    {next : Answer (.getJob id) → Prog Outcome} {d : Draw} (hd : d.fault = none)
    (hnext : (next (step (.getJob id) w d).1).Follows (cancelProtocol id) answersAs
      ((cancelProtocol id).after .unread (.getJob id) (step (.getJob id) w d).1)) :
    CancelReady id ⟨(step (.getJob id) w d).2, threads⟩ (next (step (.getJob id) w d).1) := by
  cases hjob : w.store.jobs.get? id with
  | none =>
      have hanswer : (step (.getJob id) w d).1 = .error .notFound := by
        simp only [step, guarded_of_none hd, getJob_of_none hjob]
      rw [hanswer] at hnext ⊢
      exact cancelReady_unwritten .unread hnext (fun h => absurd rfl h) (by decide)
  | some job =>
      have hanswer : (step (.getJob id) w d).1 = .ok job := by
        simp only [step, guarded_of_none hd, getJob_of_some hjob]
      have hsome : ((step (.getJob id) w d).2.jobState id).isSome := by
        simp [step, guarded_of_none hd, World.jobState, hjob]
      rw [hanswer] at hnext ⊢
      exact cancelReady_unwritten .found hnext (fun _ => hsome) (by decide)

theorem cancel_written {w : World} {state : JobState} {fields : Fields} {d : Draw}
    (hd : d.fault = none)
    (hstored : ((step (.updateJobStateIf id state fields []) w d).2.jobState id).isSome) :
    (step (.updateJobStateIf id state fields []) w d).2.jobState id = some state := by
  rw [jobState_update hd, Option.isSome_map] at hstored
  obtain ⟨before, hbefore⟩ := Option.isSome_iff_exists.mp hstored
  rw [jobState_update hd, hbefore]
  rfl

theorem cancel_call {w : World} {left right : List TaskThread} {c : Call}
    {next : Answer c → Prog Outcome} {d : Draw} (hd : d.fault = none)
    (hframe : CancelReady id
      ⟨(step c w d).2, left ++ ⟨.cancelJob id, next (step c w d).1⟩ :: right⟩ (.call c next))
    (houtside : cancelsOutsideHandling id
      ⟨w, left ++ ⟨.cancelJob id, .call c next⟩ :: right⟩ (.made (.cancelJob id) c))
    (hharmless : ∀ thread ∈ left ++ ⟨.cancelJob id, next (step c w d).1⟩ :: right,
      ¬ IsHandlerOf id thread →
        thread.rest.CallsOnly fun c => NoPush id c ∧ OnlyCancels id c) :
    CancelReady id ⟨(step c w d).2, left ++ ⟨.cancelJob id, next (step c w d).1⟩ :: right⟩
      (next (step c w d).1) := by
  obtain ⟨phase, ⟨hadmits, hnext⟩, hstored, hcancelled, hrequested⟩ := hframe
  specialize hnext (step c w d).1
  cases phase with
  | unread =>
      obtain rfl : c = .getJob id := hadmits
      exact cancel_read hd hnext
  | found =>
      cases c with
      | timeNow => exact cancelReady_unwritten .found hnext hstored (by decide)
      | updateJobStateIf id' state fields onlyFrom =>
          obtain ⟨rfl, hstate, rfl⟩ := hadmits
          have hwritten := cancel_written hd (hstored CancelPhase.noConfusion)
          rcases hstate with rfl | rfl
          · refine ⟨.cancelled, hnext, hstored ∘ fun _ => CancelPhase.noConfusion, fun _ => ?_,
              CancelPhase.noConfusion⟩
            refine shielded_of_write ?_ hharmless (fun c hc => hc.1)
              (handlers_of_cancel (houtside rfl))
            intro state hstate
            obtain rfl := Option.some.inj (hwritten.symm.trans hstate)
            rfl
          · refine ⟨.requested, hnext, hstored ∘ fun _ => CancelPhase.noConfusion,
              CancelPhase.noConfusion, fun _ => ?_⟩
            exact shielded_of_write (Or.inl hwritten) hharmless (fun c hc => hc.2)
              (handlers_of_cancel (houtside rfl))
      | _ => exact hadmits.elim
  | cancelled =>
      cases c with
      | emit event => exact ⟨.cancelled, hnext, hstored, hcancelled, hrequested⟩
      | _ => exact hadmits.elim
  | requested =>
      cases c with
      | emit event => exact ⟨.requested, hnext, hstored, hcancelled, hrequested⟩
      | _ => exact hadmits.elim

theorem cancels_step (hp : CancelProgress id p) (hstarts : startsCancelsAndDeliveries label)
    (houtside : cancelsOutsideHandling id p label)
    (hstep : (service cron cfg).Step p label q) :
    ∀ thread ∈ q.threads, thread.task = .cancelJob id → CancelReady id q thread.rest := by
  have hframe : ∀ thread ∈ p.threads, thread.task = .cancelJob id →
      CancelReady id q thread.rest := fun thread hthread htask =>
    cancelReady_frame hp hstarts hstep (hp.cancels thread hthread htask)
  have hharmless := harmless_step hp hstarts hstep
  cases hstep with
  | start hstart =>
      intro thread hthread htask
      rcases List.mem_append.mp hthread with hold | hnew
      · exact hframe thread hold htask
      · obtain rfl := List.mem_singleton.mp hnew
        obtain rfl : _ = Task.cancelJob id := htask
        exact cancelReady_unwritten .unread (cancelJob_follows cron cfg id)
          (fun h => absurd rfl h) (by decide)
  | finish d =>
      simp only [List.mem_append, List.mem_cons] at hframe ⊢
      rintro thread (hleft | hright)
      · exact hframe thread (Or.inl hleft)
      · exact hframe thread (Or.inr (Or.inr hright))
  | @advance w left right task c next d hallowed =>
      intro thread hthread htask
      rcases List.mem_append.mp hthread with hleft | hthread
      · exact hframe thread (List.mem_append_left _ hleft) htask
      rcases List.mem_cons.mp hthread with rfl | hright
      · obtain rfl : task = Task.cancelJob id := htask
        exact cancel_call hallowed.2
          (hframe _ (List.mem_append_cons_self) rfl) houtside hharmless
      · exact hframe thread (List.mem_append_right _ (List.mem_cons_of_mem _ hright)) htask

theorem progress_step (hp : CancelProgress id p) (hstarts : startsCancelsAndDeliveries label)
    (houtside : cancelsOutsideHandling id p label)
    (hstep : (service cron cfg).Step p label q) : CancelProgress id q where
  calls := calls_step hp hstarts hstep
  harmless := harmless_step hp hstarts hstep
  cancels := cancels_step hp hstarts houtside hstep

end Step

theorem no_push_of_pushesOver {id : String} {p q : TaskPool} {task : Task} {workerID : String}
    {request : ExecuteJobRequest} (hp : PushesOver id p)
    (hstep : (service cron cfg).Step p (.made task (.executeJob workerID request)) q) :
    request.jobID ≠ id := by
  cases hstep with
  | advance hallowed =>
      rcases hp.2 _ (List.mem_append_cons_self) with hunchecked | hcalls
      · obtain ⟨message, -, -, hrest⟩ := hunchecked
        exact absurd (Program.call.inj hrest).1 Call.noConfusion
      · exact hcalls.1

/-- Cancellations are not lost as long as every write of `cancelJob` is made
outside the window of the handlers: after the answer CANCELLED no execution of
the job is pushed, and after the answer CANCEL_REQUESTED the job is in that
state or CANCELLED. -/
theorem cancellation_kept (cron : Cron) (cfg : SchedulerConfig) {id : String} {w : World}
    {p q r : TaskPool} {outcome : Outcome}
    (hbefore : (service cron cfg).Reaches
      (fun p label => startsCancelsAndDeliveries label ∧ cancelsOutsideHandling id p label)
      ⟨w, []⟩ p)
    (hanswer : (service cron cfg).Step p (.finished (.cancelJob id) outcome) q)
    (hafter : (service cron cfg).Reaches
      (fun p label => startsCancelsAndDeliveries label ∧ cancelsOutsideHandling id p label)
      q r) :
    (outcome = saidCancelled → ∀ task workerID request s,
        (service cron cfg).Step r (.made task (.executeJob workerID request)) s →
          request.jobID ≠ id) ∧
      (outcome = saidCancelRequested →
        r.state.jobState id = some .cancelRequested ∨ r.state.jobState id = some .cancelled) := by
  have hstart : CancelProgress id ⟨w, []⟩ :=
    ⟨fun _ h => absurd h List.not_mem_nil, fun _ h => absurd h List.not_mem_nil,
      fun _ h => absurd h List.not_mem_nil⟩
  have hp : CancelProgress id p := reaches_invariant (fun _ _ _ hp hlabel hstep =>
    progress_step hp hlabel.1 hlabel.2 hstep) hbefore hstart
  have hq : CancelProgress id q := by
    refine progress_step hp ?_ ?_ hanswer
    · rfl
    · trivial
  have hshields : (outcome = saidCancelled → PushesOver id q) ∧
      (outcome = saidCancelRequested → CancelHolds id q) := by
    have hready : CancelReady id p (.ret outcome) := by
      cases hanswer
      exact hp.cancels _ (List.mem_append_cons_self) rfl
    obtain ⟨phase, hfollows, -, hcancelled, hrequested⟩ := hready
    refine ⟨fun hsaid => ?_, fun hsaid => ?_⟩
    · exact pushesOver_step (hcancelled (hfollows.1 hsaid)) hp.calls rfl hanswer
    · exact cancelHolds_step (hrequested (hfollows.2 hsaid)) hp.calls rfl hanswer
  have hkept : (PushesOver id q → PushesOver id r) ∧ (CancelHolds id q → CancelHolds id r) := by
    have hr := reaches_invariant (I := fun r => CancelProgress id r ∧
        (PushesOver id q → PushesOver id r) ∧ (CancelHolds id q → CancelHolds id r))
      ?_ hafter ⟨hq, fun h => h, fun h => h⟩
    · exact hr.2
    · rintro p label p' ⟨hp, hpushes, hholds⟩ ⟨hstarts, houtside⟩ hstep
      exact ⟨progress_step hp hstarts houtside hstep,
        fun h => pushesOver_step (hpushes h) hp.calls hstarts hstep,
        fun h => cancelHolds_step (hholds h) hp.calls hstarts hstep⟩
  refine ⟨fun hsaid task workerID request s hpush => ?_, fun hsaid => ?_⟩
  · exact no_push_of_pushesOver (hkept.1 (hshields.1 hsaid)) hpush
  · exact (hkept.2 (hshields.2 hsaid)).1

def queuedStart : TaskPool := ⟨oneWorker (echoJob .queued) [echoMessage], []⟩

def deliver : Move Task Draw := .start (.handleQueuedJob echoMessage)

def movesToAnswer (index calls : Nat) : List (Move Task Draw) :=
  .start (.cancelJob "job") :: List.replicate calls (.advance index { now := 9 })

/-- Cancelled after the check of the handler, the job is pushed all the same; and
with the cancellation requested between push and RUNNING write, it ends up
RUNNING. -/
theorem cancellation_lost :
    (∃ p q r s : TaskPool, ∃ task workerID request,
      smallService.Reaches (fun _ label => startsCancelsAndDeliveries label) queuedStart p ∧
      smallService.Step p (.finished (.cancelJob "job") saidCancelled) q ∧
      smallService.Reaches (fun _ label => startsCancelsAndDeliveries label) q r ∧
      smallService.Step r (.made task (.executeJob workerID request)) s ∧
      request.jobID = "job") ∧
    ∃ p q r : TaskPool,
      smallService.Reaches (fun _ label => startsCancelsAndDeliveries label) queuedStart p ∧
      smallService.Step p (.finished (.cancelJob "job") saidCancelRequested) q ∧
      smallService.Reaches (fun _ label => startsCancelsAndDeliveries label) q r ∧
      r.state.jobState "job" = some .running := by
  constructor
  · let p := (smallService.follow (fun _ => startsCancelsAndDeliveries) queuedStart
      (deliver :: .advance 0 {} :: movesToAnswer 1 4)).get (by decide +kernel)
    let answer := (smallService.move p (.finish 1 {})).get (by decide +kernel)
    let r := (smallService.follow (fun _ => startsCancelsAndDeliveries) answer.2
      ((movesToPush 0 "execution").drop 1).dropLast).get (by decide +kernel)
    let push := (smallService.move r (.advance 0 {})).get (by decide +kernel)
    have hanswer : smallService.Step p answer.1 answer.2 := step_of_get _
    have hanswered : answer.1 = .finished (.cancelJob "job") saidCancelled := by rfl
    rw [hanswered] at hanswer
    have hpush : smallService.Step r push.1 push.2 := step_of_get _
    have hpushed : push.1 = .made (.handleQueuedJob echoMessage) (.executeJob "worker"
        (executeJobRequest { echoMessage with attempt := 1, executionID := "execution" }
          "execution")) := by rfl
    rw [hpushed] at hpush
    exact ⟨p, answer.2, r, push.2, _, _, _, reaches_of_get _, hanswer, reaches_of_get _,
      hpush, rfl⟩
  · let p := (smallService.follow (fun _ => startsCancelsAndDeliveries) queuedStart
      (deliver :: movesToPush 0 "execution" ++ movesToAnswer 1 3)).get (by decide +kernel)
    let answer := (smallService.move p (.finish 1 {})).get (by decide +kernel)
    let r := (smallService.follow (fun _ => startsCancelsAndDeliveries) answer.2
      [.advance 0 { now := 10 }]).get (by decide +kernel)
    have hanswer : smallService.Step p answer.1 answer.2 := step_of_get _
    have hanswered : answer.1 = .finished (.cancelJob "job") saidCancelRequested := by rfl
    rw [hanswered] at hanswer
    exact ⟨p, answer.2, r, reaches_of_get _, hanswer, reaches_of_get _, by decide +kernel⟩

def cancelsBetweenHandlers (p : TaskPool) : TaskLabel → Bool
  | .made (.cancelJob _) (.updateJobStateIf _ _ _ _) =>
      p.threads.all fun thread => thread.task.delivery?.isNone
  | _ => true

theorem outside_of_between {id : String} {p : TaskPool} {label : TaskLabel}
    (hlabel : cancelsBetweenHandlers p label) : cancelsOutsideHandling id p label := by
  have hnone : ∀ thread ∈ p.threads, IsHandlerOf id thread →
      (p.threads.all fun thread => thread.task.delivery?.isNone) = true → False := by
    rintro thread hthread ⟨message, htask, -⟩ hall
    have hnot := List.all_eq_true.mp hall thread hthread
    simp [htask, Task.delivery?] at hnot
  unfold cancelsOutsideHandling
  split
  · exact fun _ thread hthread hhandler => (hnone thread hthread hhandler hlabel).elim
  · exact fun _ thread hthread hhandler => (hnone thread hthread hhandler hlabel).elim
  · trivial

theorem cancellation_of_running_kept :
    ∃ p q : TaskPool, smallService.Step p (.finished (.cancelJob "job") saidCancelRequested) q ∧
      (q.state.jobState "job" = some .cancelRequested ∨
        q.state.jobState "job" = some .cancelled) := by
  let p := (smallService.follow
    (fun p label => startsCancelsAndDeliveries label && cancelsBetweenHandlers p label)
    queuedStart (deliver :: movesToPush 0 "execution" ++
      [.advance 0 { now := 3 }, .advance 0 {}, .advance 0 {}, .finish 0 {}] ++
      movesToAnswer 0 3)).get (by decide +kernel)
  let answer := (smallService.move p (.finish 0 {})).get (by decide +kernel)
  have hbefore : smallService.Reaches
      (fun p label => startsCancelsAndDeliveries label ∧ cancelsOutsideHandling "job" p label)
      queuedStart p := by
    refine reaches_of_follow (fun p label hlabel => ?_) (Option.some_get _).symm
    obtain ⟨hstarts, hbetween⟩ := Bool.and_eq_true_iff.mp hlabel
    exact ⟨hstarts, outside_of_between hbetween⟩
  have hanswer : smallService.Step p answer.1 answer.2 := step_of_get _
  have hanswered : answer.1 = .finished (.cancelJob "job") saidCancelRequested := by rfl
  rw [hanswered] at hanswer
  exact ⟨p, answer.2, hanswer, (cancellation_kept utcOnly smallConfig hbefore hanswer
    Relation.ReflTransGen.refl).2 rfl⟩

end Chronos.LostCancellation
