import Chronos.Operations

namespace Chronos.IdempotentCreate

open Chronos.ApiServer
open Chronos.Domain
open Chronos.Library.CallProgram
open Chronos.Library.CallMachine
open Chronos.Library.KeyedTable
open Chronos.MemoryQueue
open Chronos.MemoryStore
open Chronos.Operations
open Chronos.SharedState

theorem enqueueJob_queue {w w' : World} {J : Job} {ds : List Draw} {answer : Except Err Job}
    (hrun : memory.Runs (enqueueJob J) w ds answer w') :
    w'.queue.items.length = w.queue.items.length + 1 ∨ ∃ e, answer = .error e := by
  obtain ⟨d₀, ds, rfl, -, hrun⟩ := runs_perform_iff.mp hrun
  obtain ⟨d₁, ds, rfl, henqueue, hrun⟩ := runs_perform_iff.mp hrun
  simp only [memory_step, step, guarded_of_none henqueue.2, Queue.enqueue] at hrun
  by_cases hclosed : w.queue.closed
  · simp only [if_pos hclosed] at hrun
    obtain ⟨-, rfl, -⟩ := runs_ret_iff.mp hrun
    exact Or.inr ⟨_, rfl⟩
  · left
    simp only [if_neg hclosed] at hrun
    obtain ⟨d₂, ds, rfl, hemit, hrun⟩ := runs_perform_iff.mp hrun
    obtain ⟨d₃, ds, rfl, hupdate, hrun⟩ := runs_perform_iff.mp hrun
    simp only [memory_step, step, guarded_of_none hemit.2, guarded_of_none hupdate.2] at hrun
    split at hrun <;>
    · obtain ⟨-, -, rfl⟩ := runs_ret_iff.mp hrun
      exact length_insertLocked _ _

theorem submitJob_of_bound {w w' : World} {job J : Job} {now : Time} {ds : List Draw}
    {response : Response} (hkey : job.idempotencyKey ≠ "")
    (hbound : w.store.byIdem.lookup job.idempotencyKey = some J.id)
    (hJ : w.store.jobs.get? J.id = some J)
    (hrun : memory.Runs (submitJob job now) w ds response w') :
    (jobDue J now = false ∧ response = ⟨201, .job J⟩ ∧ w'.store = w.store ∧
        w'.queue = w.queue) ∨
      jobDue J now = true ∧
        (w'.queue.items.length = w.queue.items.length + 1 ∨ response.code = 500) := by
  obtain ⟨d₀, ds, rfl, hcreate, hrun⟩ := runs_perform_iff.mp hrun
  simp only [memory_step, step, guarded_of_none hcreate.2,
    createJob_of_bound d₀.uuid d₀.now hkey hbound hJ] at hrun
  obtain ⟨d₁, ds, rfl, hcreated, hrun⟩ := runs_perform_iff.mp hrun
  obtain ⟨d₂, ds, rfl, hscheduled, hrun⟩ := runs_perform_iff.mp hrun
  simp only [memory_step, step, guarded_of_none hcreated.2,
    guarded_of_none hscheduled.2] at hrun
  cases hdue : jobDue J now with
  | false =>
      simp only [hdue, Bool.false_eq_true, if_false] at hrun
      obtain ⟨-, rfl, rfl⟩ := runs_ret_iff.mp hrun
      exact Or.inl ⟨rfl, rfl, rfl, rfl⟩
  | true =>
      simp only [hdue, if_true] at hrun
      obtain ⟨first, rest, answer, t, -, henqueue, hrun⟩ := runs_bind_iff.mp hrun
      refine Or.inr ⟨rfl, ?_⟩
      cases answer with
      | error e =>
          obtain ⟨-, rfl, -⟩ := runs_ret_iff.mp hrun
          exact Or.inr rfl
      | ok job =>
          obtain ⟨-, -, rfl⟩ := runs_ret_iff.mp hrun
          exact Or.inl ((enqueueJob_queue henqueue).resolve_right (by simp))

/-- A create request whose key is bound to `J` answers with `J` and leaves the
jobs and the queue alone exactly if `J` is not due at the clock reading `d₁.now`
of the handler. -/
theorem createJob_bound_iff (cron : Cron) {w w' : World} {req checked : CreateJobRequest}
    {J : Job} {runAt : Time} {d₀ d₁ : Draw} {ds : List Draw} {response : Response}
    (hvalid : checkRequest cron d₀.now req = .ok checked)
    (hrunAt : firstRunAt cron checked.schedule d₁.now = .ok runAt)
    (hkey : req.idempotencyKey ≠ "")
    (hbound : w.store.byIdem.lookup req.idempotencyKey = some J.id)
    (hJ : w.store.jobs.get? J.id = some J)
    (hrun : memory.Runs (createJob cron (some req)) w (d₀ :: d₁ :: ds) response w') :
    ((∃ answered, response = ⟨201, .job answered⟩ ∧ answered.id = J.id) ∧
        w'.store.jobs = w.store.jobs ∧ w'.queue.items = w.queue.items) ↔
      jobDue J d₁.now = false := by
  obtain ⟨_, _, hds, -, hrun⟩ := runs_perform_iff.mp hrun
  cases hds
  simp only [memory_step, step, hvalid] at hrun
  obtain ⟨_, _, hds, -, hrun⟩ := runs_perform_iff.mp hrun
  cases hds
  obtain ⟨d₂, ds, rfl, -, hrun⟩ := runs_perform_iff.mp hrun
  simp only [memory_step, step, hrunAt] at hrun
  have hnewKey : (newJob checked d₂.uuid runAt).idempotencyKey = req.idempotencyKey :=
    checkRequest_key hvalid
  rw [← hnewKey] at hkey hbound
  rcases submitJob_of_bound (w := { w with issued := d₂.uuid :: w.issued }) hkey hbound hJ
      hrun with ⟨hdue, rfl, hstore, hqueue⟩ | ⟨hdue, heffect⟩
  · rw [iff_true_right hdue]
    exact ⟨⟨J, rfl, rfl⟩, by rw [hstore], by rw [hqueue]⟩
  · rw [iff_false_right (by simp [hdue])]
    rintro ⟨⟨answered, rfl, -⟩, -, hitems⟩
    rcases heffect with hlength | hcode
    · rw [hitems] at hlength
      simp at hlength
    · simp at hcode

/-- A job is created and cancelled; the same request once more puts it back to
QUEUED and on the queue a second time. -/
theorem repeated_create_requeues_cancelled :
    ∃ w₁ w₂ w₃ : World,
      Performs utcOnly smallConfig memory (.createJob (some keyedRequest)) .empty w₁ ∧
      Performs utcOnly smallConfig memory (.cancelJob "job") w₁ w₂ ∧
      w₂.store.byIdem.lookup "key" = some "job" ∧
      w₂.jobState "job" = some .cancelled ∧ w₂.queue.items.length = 1 ∧
      Performs utcOnly smallConfig memory (.createJob (some keyedRequest)) w₂ w₃ ∧
      w₃.jobState "job" = some .queued ∧ w₃.queue.items.length = 2 := by
  let w₁ := (perform utcOnly smallConfig memory (.createJob (some keyedRequest))
    (createDraws 5 "job") .empty).get (by decide +kernel)
  let w₂ := (perform utcOnly smallConfig memory (.cancelJob "job")
    (List.replicate 4 { now := 6 }) w₁).get (by decide +kernel)
  let w₃ := (perform utcOnly smallConfig memory (.createJob (some keyedRequest))
    (createDraws 7 "other") w₂).get (by decide +kernel)
  exact ⟨w₁, w₂, w₃, performs_of_get _ _ _, performs_of_get _ _ _, by decide +kernel,
    by decide +kernel, by decide +kernel, performs_of_get _ _ _, by decide +kernel,
    by decide +kernel⟩

def laterJob : Job :=
  { echoJob .scheduled with idempotencyKey := "key", scheduledAt := some 100 }

def laterWorld : World := { World.empty with store := .bindJob .new laterJob }

theorem repeated_create_before_due :
    ∃ (response : Response) (w' : World),
      (∃ answered, response = ⟨201, .job answered⟩ ∧ answered.id = laterJob.id) ∧
        w'.store.jobs = laterWorld.store.jobs ∧ w'.queue.items = laterWorld.queue.items := by
  let r := (memory.exec (createJob utcOnly (some keyedRequest)) laterWorld
    ({ now := 5 } :: { now := 5 } :: { uuid := "other" } :: List.replicate 3 {})).get
    (by decide +kernel)
  have hrun : memory.Runs (createJob utcOnly (some keyedRequest)) laterWorld _ r.1 r.2 :=
    runs_of_get _
  exact ⟨r.1, r.2, (createJob_bound_iff utcOnly rfl rfl (by decide) (by decide +kernel)
    (by rfl) hrun).mpr (by decide +kernel)⟩

end Chronos.IdempotentCreate
