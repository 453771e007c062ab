import Chronos.Library.Histories
import Chronos.Library.LeastLoaded
import Chronos.Operations

namespace Chronos.LoadBalance

open Chronos.Domain
open Chronos.Library.CallMachine
open Chronos.Library.Histories
open Chronos.Library.KeyedTable
open Chronos.Library.LeastLoaded
open Chronos.MemoryStore
open Chronos.Operations (echoJob echoMessage)
open Chronos.SchedulerService
open Chronos.SharedState

/-- The operations over a store, a queue and workers that may all fail, though not with the
error that `handleQueuedJob` makes itself. -/
def dispatching : Machine Call Answer World Draw where
  step := step
  Allowed := fun w c d =>
    Sound w c d ∧ d.fault ≠ some .noWorker ∧ d.reply ≠ .error .noWorker

instance (w : World) (c : Call) (d : Draw) : Decidable (dispatching.Allowed w c d) :=
  inferInstanceAs (Decidable (_ ∧ _))

@[simp] theorem dispatching_step : dispatching.step = step := rfl

/-- A handler that dispatches a queueable job, or anything else that leaves the registry as it
is: no result, no heartbeat and no registration. -/
inductive Step : World → Option QueuedJob → World → Prop
  | handled {w w' : World} {message : QueuedJob} {job : Job} {ds : List Draw}
      (hjob : w.store.jobs.get? message.jobID = some job) (hqueueable : job.state.queueable)
      (hrun : dispatching.Runs (handleQueuedJob message) w ds (.ok ()) w') :
      Step w (some message) w'
  | meanwhile {w w' : World} (hregistry : w'.registry = w.registry) : Step w none w'

section Loads

variable {r : Registry} {id : String} {wc : WorkerConn}

def load (r : Registry) (id : String) : Int :=
  ((r.workers.get? id).map fun wc => wc.info.activeJobs).getD 0

def capacity (r : Registry) (id : String) : Int :=
  ((r.workers.get? id).map fun wc => wc.info.capacity).getD 0

theorem load_of_get? (hwc : r.workers.get? id = some wc) : load r id = wc.info.activeJobs := by
  rw [load, hwc]
  rfl

theorem capacity_of_get? (hwc : r.workers.get? id = some wc) :
    capacity r id = wc.info.capacity := by
  rw [capacity, hwc]
  rfl

/-- All workers are HEALTHY, and their loads are balanced. -/
structure Even (r : Registry) : Prop where
  healthy : ∀ {id wc}, r.workers.get? id = some wc → wc.info.status = .healthy
  balanced : Balanced (r.workers.keys : Set String) (capacity r) (load r)

theorem availableSlots_pos {worker : Worker} :
    0 < worker.availableSlots ↔ worker.activeJobs < worker.capacity := by
  rw [Worker.availableSlots]
  split <;> omega

theorem availableSlots_nonneg (worker : Worker) : 0 ≤ worker.availableSlots := by
  rw [Worker.availableSlots]
  split <;> omega

theorem isAssignable_iff {worker : Worker} (hhealthy : worker.status = .healthy) :
    worker.isAssignable ↔ worker.activeJobs < worker.capacity := by
  rw [Worker.isAssignable, hhealthy, ← availableSlots_pos]
  simp

theorem mem_keys_of_get? (hwc : r.workers.get? id = some wc) :
    id ∈ (r.workers.keys : Set String) :=
  Finset.mem_coe.mpr (mem_keys.mpr ⟨wc, hwc⟩)

theorem pickWorker_eq (conns : List WorkerConn) : pickWorker conns = conns.foldl
    (choose (fun wc => wc.info.isAssignable) fun wc => wc.info.activeJobs) none := by
  unfold pickWorker
  congr 1
  funext best wc
  unfold choose
  cases best <;> rfl

theorem pickWorker_least (h : Even r) {order : List String}
    (horder : r.workers.Enumerates order)
    (hpick : pickWorker (r.workers.inOrder order) = some wc) :
    r.workers.get? wc.info.id = some wc ∧
      Least (r.workers.keys : Set String) (capacity r) (load r) wc.info.id := by
  have hwc : r.workers.get? wc.info.id = some wc :=
    (Enumerates.mem_inOrder horder).mp (mem_of_pickWorker hpick)
  rw [pickWorker_eq] at hpick
  obtain ⟨hassignable, -, hleast⟩ := foldl_choose_least
    (fun b hb => absurd hb (Option.not_mem_none b)) hpick
  refine ⟨hwc, ?_, fun id hid hroom => ?_⟩
  · rw [load_of_get? hwc, capacity_of_get? hwc]
    exact (isAssignable_iff (h.healthy hwc)).mp hassignable
  · obtain ⟨other, hother⟩ := mem_keys.mp (Finset.mem_coe.mp hid)
    rw [load_of_get? hother, capacity_of_get? hother] at hroom
    rw [load_of_get? hwc, load_of_get? hother]
    obtain rfl := key_of_get? hother
    exact hleast other ((Enumerates.mem_inOrder horder).mpr hother)
      ((isAssignable_iff (h.healthy hother)).mpr hroom)

/-- Counting one more job on a least loaded worker. -/
theorem even_incActiveJobs (h : Even r) (hwc : r.workers.get? wc.info.id = some wc)
    (hleast : Least (r.workers.keys : Set String) (capacity r) (load r) wc.info.id) :
    Even (r.incActiveJobs wc) := by
  let counted : WorkerConn :=
    ⟨{ wc.info with activeJobs := wc.info.activeJobs + 1 }, wc.conn⟩
  have hinc : r.incActiveJobs wc = { r with workers := r.workers.put counted } := by
    rw [Registry.incActiveJobs, hwc]
    exact if_pos rfl
  have hget : ∀ id, (r.incActiveJobs wc).workers.get? id =
      if id = wc.info.id then some counted else r.workers.get? id := by
    rw [hinc]
    exact get?_put r.workers counted
  have hkeys : (r.incActiveJobs wc).workers.keys = r.workers.keys := by
    ext id
    rw [mem_keys, mem_keys, hget]
    split
    · rename_i hid
      rw [hid, hwc]
      simp
    · rfl
  have hload : load (r.incActiveJobs wc) =
      Function.update (load r) wc.info.id (load r wc.info.id + 1) := by
    funext id
    rw [load, hget]
    by_cases hid : id = wc.info.id
    · rw [if_pos hid, hid, Function.update_self, load_of_get? hwc]
      rfl
    · rw [if_neg hid, Function.update_of_ne hid]
      rfl
  have hcapacity : capacity (r.incActiveJobs wc) = capacity r := by
    funext id
    rw [capacity, hget]
    by_cases hid : id = wc.info.id
    · rw [if_pos hid, hid, capacity_of_get? hwc]
      rfl
    · rw [if_neg hid]
      rfl
  refine ⟨fun {id other} hother => ?_, ?_⟩
  · rw [hget] at hother
    split at hother
    · obtain rfl := Option.some.inj hother
      have hstatus := h.healthy hwc
      exact hstatus
    · exact h.healthy hother
  · rw [hkeys, hload, hcapacity]
    exact balanced_place h.balanced hleast

end Loads

section Handlers

variable {w w' : World} {message : QueuedJob} {ds : List Draw}

theorem registry_emit (event : Event) (w : World) (d : Draw) :
    (step (.emit event) w d).2.registry = w.registry := by
  simp only [step, guarded]
  split <;> rfl

theorem registry_update (id : String) (state : JobState) (fields : Fields)
    (onlyFrom : List JobState) (w : World) (d : Draw) :
    (step (.updateJobStateIf id state fields onlyFrom) w d).2.registry = w.registry := by
  simp only [step, guarded]
  split <;> rfl

theorem update_error {id : String} {state : JobState} {fields : Fields} {d : Draw} {e : Err}
    (hd : d.fault ≠ some .noWorker)
    (herror : (step (.updateJobStateIf id state fields []) w d).1 = .error e) :
    e ≠ .noWorker := by
  rintro rfl
  simp only [step, guarded] at herror
  split at herror
  · rename_i hfault
    rw [Except.error.inj herror] at hfault
    exact hd hfault
  · simp only [Store.updateJobStateIf] at herror
    split at herror
    · cases herror
    · split at herror <;> cases herror

/-- Once the worker is picked: the handler counts the job, or fails with an error of a call. -/
theorem pushJob_counts (wc : WorkerConn) (executionID : String) (now : Time) (w : World) :
    dispatching.Ensures (pushJob message wc executionID now) w fun result w' =>
      result ≠ .error .noWorker ∧
        (result = .ok () → w'.registry = w.registry.incActiveJobs wc) := by
  refine ensures_perform fun d hd => ?_
  simp only [dispatching_step]
  have hpushed : (step (.executeJob wc.info.id (executeJobRequest message executionID)) w
      d).2.registry = w.registry := by
    simp only [step]
    rw [acceptedPush_eq]
  have hreply : pushOutcome d.reply ≠ .error .noWorker := by
    intro hrefused
    cases hd' : d.reply with
    | error e =>
        rw [hd', pushOutcome] at hrefused
        exact hd.2.2 (hd'.trans (congrArg _ (Except.error.inj hrefused)))
    | ok response =>
        rw [hd'] at hrefused
        cases response with
        | none => cases hrefused
        | some response =>
            rw [pushOutcome] at hrefused
            split at hrefused <;> cases hrefused
  split
  · rename_i e herror
    refine ensures_ret ⟨fun h => ?_, by rintro ⟨⟩⟩
    rw [Except.error.inj h] at herror
    exact hreply herror
  · refine ensures_perform fun d₁ hd₁ => ?_
    generalize hanswer : dispatching.step (.updateJobStateIf message.jobID .running
      { startedAt := some now } []) _ d₁ = answer
    have hwritten : answer.2.registry = w.registry := by
      rw [← hanswer, dispatching_step, registry_update, hpushed]
    cases hresult : answer.1 with
    | error e =>
        have herror := update_error hd₁.2.1 ((congrArg Prod.fst hanswer).trans hresult)
        exact ensures_ret ⟨fun h => herror (Except.error.inj h), by rintro ⟨⟩⟩
    | ok _ =>
        refine ensures_perform fun d₂ _ => ensures_perform fun _ _ => ?_
        refine ensures_ret ⟨by rintro ⟨⟩, fun _ => ?_⟩
        change (step (.emit _) answer.2 d₂).2.registry.incActiveJobs wc = _
        rw [registry_emit, hwritten]

theorem assignJob_counts (wc : WorkerConn) (w : World) :
    dispatching.Ensures (assignJob message wc) w fun result w' =>
      result ≠ .error .noWorker ∧
        (result = .ok () → w'.registry = w.registry.incActiveJobs wc) := by
  refine ensures_perform fun d _ => ensures_perform fun d₁ hd₁ => ?_
  simp only [dispatching_step]
  cases hfault : d₁.fault with
  | some e =>
      simp only [step, guarded_of_some hfault]
      refine ensures_ret ⟨fun h => ?_, by rintro ⟨⟩⟩
      rw [Except.error.inj h] at hfault
      exact hd₁.2.1 hfault
  | none =>
      simp only [step, guarded_of_none hfault]
      refine ensures_perform fun d₂ _ => ensures_perform fun d₃ hd₃ => ?_
      generalize hanswer : dispatching.step (.updateJobStateIf message.jobID .assigned _ []) _ d₃
        = answer
      have hwritten : answer.2.registry = w.registry := by
        rw [← hanswer, dispatching_step, registry_update]
        rfl
      cases hresult : answer.1 with
      | error e =>
          have herror := update_error hd₃.2.1 ((congrArg Prod.fst hanswer).trans hresult)
          exact ensures_ret ⟨fun h => herror (Except.error.inj h), by rintro ⟨⟩⟩
      | ok _ =>
          refine ensures_perform fun d₄ _ => ?_
          refine ensures_mono (pushJob_counts wc d.uuid d₂.now _) ?_
          rintro result w' ⟨herror, hcounts⟩
          refine ⟨herror, fun hok => (hcounts hok).trans ?_⟩
          rw [dispatching_step, registry_emit, hwritten]

/-- A handler picks a worker from the registry as it finds it, and counts the job there. -/
theorem handled_picks {job : Job} (hjob : w.store.jobs.get? message.jobID = some job)
    (hqueueable : job.state.queueable)
    (hrun : dispatching.Runs (handleQueuedJob message) w ds (.ok ()) w') :
    ∃ order wc, w.registry.workers.Enumerates order ∧
      pickWorker (w.registry.workers.inOrder order) = some wc ∧
      w'.registry = w.registry.incActiveJobs wc := by
  obtain ⟨d, ds, rfl, -, hrun⟩ := runs_perform_iff.mp hrun
  simp only [dispatching_step, step] at hrun
  cases hfault : d.fault with
  | some e =>
      rw [guarded_of_some hfault] at hrun
      obtain ⟨-, hresult, -⟩ := runs_ret_iff.mp hrun
      cases hresult
  | none =>
      simp only [guarded_of_none hfault, getJob_of_some hjob, hqueueable, if_true] at hrun
      obtain ⟨d₁, ds, rfl, hd₁, hrun⟩ := runs_perform_iff.mp hrun
      simp only [dispatching_step, step] at hrun
      cases hpick : pickWorker (w.registry.workers.inOrder d₁.order) with
      | none =>
          rw [hpick] at hrun
          obtain ⟨-, hresult, -⟩ := runs_ret_iff.mp hrun
          cases hresult
      | some wc =>
          rw [hpick] at hrun
          exact ⟨d₁.order, wc, hd₁.1, hpick, (assignJob_counts wc w _ _ _ hrun).2 rfl⟩

/-- The handler fails for want of a worker only after it has looked for one. -/
theorem noWorker_picks (hrun : dispatching.Runs (handleQueuedJob message) w ds
      (.error .noWorker) w') :
    ∃ order, w.registry.workers.Enumerates order ∧
      pickWorker (w.registry.workers.inOrder order) = none := by
  obtain ⟨d, ds, rfl, hd, hrun⟩ := runs_perform_iff.mp hrun
  simp only [dispatching_step, step] at hrun
  cases hfault : d.fault with
  | some e =>
      rw [guarded_of_some hfault] at hrun
      obtain ⟨-, hresult, -⟩ := runs_ret_iff.mp hrun
      rw [← Except.error.inj hresult] at hfault
      exact absurd hfault hd.2.1
  | none =>
      rw [guarded_of_none hfault] at hrun
      cases hjob : w.store.jobs.get? message.jobID with
      | none =>
          rw [getJob_of_none hjob] at hrun
          obtain ⟨-, hresult, -⟩ := runs_ret_iff.mp hrun
          cases hresult
      | some job =>
          rw [getJob_of_some hjob] at hrun
          dsimp only at hrun
          split at hrun
          · obtain ⟨d₁, ds, rfl, hd₁, hrun⟩ := runs_perform_iff.mp hrun
            simp only [dispatching_step, step] at hrun
            cases hpick : pickWorker (w.registry.workers.inOrder d₁.order) with
            | none => exact ⟨d₁.order, hd₁.1, hpick⟩
            | some wc =>
                rw [hpick] at hrun
                exact absurd rfl (assignJob_counts wc w _ _ _ hrun).1
          · obtain ⟨-, hresult, -⟩ := runs_ret_iff.mp hrun
            cases hresult

theorem even_step (h : Even w.registry) {label : Option QueuedJob} (hstep : Step w label w') :
    Even w'.registry := by
  cases hstep with
  | handled hjob hqueueable hrun =>
      obtain ⟨order, wc, horder, hpick, hregistry⟩ := handled_picks hjob hqueueable hrun
      obtain ⟨hwc, hleast⟩ := pickWorker_least h horder hpick
      rw [hregistry]
      exact even_incActiveJobs h hwc hleast
  | meanwhile hregistry =>
      rw [hregistry]
      exact h

/-- From a registry of idle HEALTHY workers, any number of dispatches leaves no worker above
its capacity and none more than one job above a worker with a free slot; and while a worker
has a free slot, a handler does not fail for want of one. -/
theorem dispatch_balances {start : World} {history : List (Entry World (Option QueuedJob))}
    (hstart : ∀ id wc, start.registry.workers.get? id = some wc →
      wc.info.status = .healthy ∧ 0 ≤ wc.info.capacity ∧ wc.info.activeJobs = 0)
    (hrun : Run Step start history w) :
    (∀ id wc, w.registry.workers.get? id = some wc → wc.info.activeJobs ≤ wc.info.capacity) ∧
      (∀ ida a idb b, w.registry.workers.get? ida = some a →
        w.registry.workers.get? idb = some b → 0 < b.info.availableSlots →
        a.info.activeJobs ≤ b.info.activeJobs + 1) ∧
      ∀ message ds w', dispatching.Runs (handleQueuedJob message) w ds (.error .noWorker) w' →
        ∀ id wc, w.registry.workers.get? id = some wc → wc.info.availableSlots = 0 := by
  have hidle : Even start.registry := by
    refine ⟨fun hwc => (hstart _ _ hwc).1, balanced_empty ?_ ?_⟩
    · intro id hid
      obtain ⟨wc, hwc⟩ := mem_keys.mp (Finset.mem_coe.mp hid)
      rw [capacity_of_get? hwc]
      exact (hstart id wc hwc).2.1
    · intro id hid
      obtain ⟨wc, hwc⟩ := mem_keys.mp (Finset.mem_coe.mp hid)
      rw [load_of_get? hwc]
      exact (hstart id wc hwc).2.2
  have h : Even w.registry :=
    run_invariant (P := fun _ => True) (I := fun _ w => Even w.registry) hidle
      (fun h hstep _ => even_step h hstep) hrun fun _ _ => trivial
  refine ⟨?_, ?_, ?_⟩
  · intro id wc hwc
    have hwithin := h.balanced.within id (mem_keys_of_get? hwc)
    rwa [load_of_get? hwc, capacity_of_get? hwc] at hwithin
  · intro ida a idb b ha hb hfree
    have heven := h.balanced.even ida (mem_keys_of_get? ha) idb (mem_keys_of_get? hb)
    rw [load_of_get? ha, load_of_get? hb, capacity_of_get? hb] at heven
    exact heven (availableSlots_pos.mp hfree)
  · intro message ds w' hfails id wc hwc
    obtain ⟨order, horder, hpick⟩ := noWorker_picks hfails
    obtain rfl := key_of_get? hwc
    by_contra hfree
    refine pickWorker_ne_none ((Enumerates.mem_inOrder horder).mpr hwc) ?_ hpick
    rw [isAssignable_iff (h.healthy hwc), ← availableSlots_pos]
    exact lt_of_le_of_ne (availableSlots_nonneg wc.info) (Ne.symm hfree)

end Handlers

section Scenarios

/-- A queued job and two idle workers, one of them with a single slot. -/
def twoWorkers : World :=
  let workers : ConnTable := .put (.put .empty ⟨{ id := "small", capacity := 1 }, 0⟩)
    ⟨{ id := "large", capacity := 2 }, 1⟩
  { World.empty with
    store := .putJob .new (echoJob .queued)
    registry := { workers := workers, pendingCancels := ∅ } }

theorem idle_twoWorkers (id : String) (wc : WorkerConn)
    (hwc : twoWorkers.registry.workers.get? id = some wc) :
    wc.info.status = .healthy ∧ 0 ≤ wc.info.capacity ∧ wc.info.activeJobs = 0 := by
  have hall : ∀ id ∈ twoWorkers.registry.workers.keys,
      ∀ wc ∈ twoWorkers.registry.workers.get? id,
        wc.info.status = .healthy ∧ 0 ≤ wc.info.capacity ∧ wc.info.activeJobs = 0 := by
    decide +kernel
  exact hall id (mem_keys.mpr ⟨wc, hwc⟩) wc hwc

def dispatchDraws : List Draw :=
  {} :: { order := ["small", "large"] } :: { uuid := "first" } :: List.replicate 8 {}

theorem first_dispatch_balanced :
    ∃ history w small large, Run Step twoWorkers history w ∧
      w.registry.workers.get? "small" = some small ∧
      w.registry.workers.get? "large" = some large ∧
      small.info.activeJobs = 1 ∧ 0 < large.info.availableSlots ∧
      small.info.activeJobs ≤ large.info.activeJobs + 1 := by
  let r := (dispatching.exec (handleQueuedJob echoMessage) twoWorkers dispatchDraws).get
    (by decide +kernel)
  have hexec : dispatching.Runs (handleQueuedJob echoMessage) twoWorkers dispatchDraws r.1 r.2 :=
    runs_of_get _
  have hok : r.1 = .ok () := by decide +kernel
  rw [hok] at hexec
  have hjob : twoWorkers.store.jobs.get? echoMessage.jobID = some (echoJob .queued) := by
    decide +kernel
  have hrun : Run Step twoWorkers [⟨twoWorkers, some echoMessage, r.2⟩] r.2 :=
    .next .start (.handled hjob rfl hexec)
  let small := (r.2.registry.workers.get? "small").get (by decide +kernel)
  let large := (r.2.registry.workers.get? "large").get (by decide +kernel)
  have hsmall : r.2.registry.workers.get? "small" = some small := (Option.some_get _).symm
  have hlarge : r.2.registry.workers.get? "large" = some large := (Option.some_get _).symm
  have hcounted : small.info.activeJobs = 1 := by decide +kernel
  have hfree : 0 < large.info.availableSlots := by decide +kernel
  exact ⟨_, r.2, small, large, hrun, hsmall, hlarge, hcounted, hfree,
    (dispatch_balances idle_twoWorkers hrun).2.1 _ _ _ _ hsmall hlarge hfree⟩

end Scenarios

end Chronos.LoadBalance
