import Chronos.Operations
import Chronos.SharedState.Steps

namespace Chronos.FailedCreate

open Chronos.ApiServer
open Chronos.Domain
open Chronos.Library.CallMachine
open Chronos.Library.KeyedTable
open Chronos.MemoryQueue
open Chronos.MemoryStore
open Chronos.Operations
open Chronos.SharedState

/-- What a call draws, where a call that fails may still have had its effect. -/
structure Mishap extends Draw where
  applied : Bool := false

/-- The draw that the state goes by. -/
def Mishap.effect (d : Mishap) : Draw :=
  if d.applied then { d.toDraw with fault := none } else d.toDraw

/-- The operations over a store, a queue and a network that may fail, before the effect of a
call or after it. -/
def lossy : Machine Call Answer World Mishap where
  step := fun c w d => ((step c w d.toDraw).1, (step c w d.effect).2)
  Allowed := fun w c d => Sound w c d.toDraw

instance (w : World) (c : Call) (d : Mishap) : Decidable (lossy.Allowed w c d) :=
  inferInstanceAs (Decidable (Sound w c d.toDraw))

/-- The call fails without effect. -/
def Mishap.NoEffect (d : Mishap) : Prop := d.effect.fault.isSome

/-- The store answers a request with this key with a job that it has. -/
def Bound (w : World) (key : String) : Prop := key ≠ "" ∧ (w.store.byIdem.lookup key).isSome

/-- The request is refused before `CreateJob`: its checks fail at the first clock reading, or its
schedule has no time for a first run at the second one. -/
def Refused (cron : Cron) (req : CreateJobRequest) (ds : List Mishap) : Prop :=
  ∃ d ∈ ds[0]?, ∀ checked ∈ (checkRequest cron d.now req).toOption,
    ∃ d' ∈ ds[1]?, (firstRunAt cron checked.schedule d'.now).isOk = false

/-- The request is refused, `CreateJob` fails without effect, or its key is bound and either
`CreateJob` fails or `Enqueue` fails without effect. -/
def LeavesNothing (cron : Cron) (w : World) (ds : List Mishap) : Option CreateJobRequest → Prop
  | none => True
  | some req => Refused cron req ds ∨ (∃ d ∈ ds[3]?, d.NoEffect) ∨
      Bound w req.idempotencyKey ∧
        ((∃ d ∈ ds[3]?, d.fault.isSome) ∨ (∃ d ∈ ds[7]?, d.NoEffect) ∨ w.queue.closed)

/-- There is a job that was not there, or a message more. -/
def Grown (w₀ w : World) : Prop :=
  (∃ id, w₀.store.jobs.get? id = none ∧ ∃ job, w.store.jobs.get? id = some job) ∨
    w₀.queue.items.length < w.queue.items.length

theorem not_unchanged {w₀ w : World} (hgrown : Grown w₀ w) :
    ¬(w.store.jobs = w₀.store.jobs ∧ w.queue = w₀.queue) := by
  rintro ⟨hjobs, hqueue⟩
  rcases hgrown with ⟨id, hnone, job, hjob⟩ | hlonger
  · rw [hjobs, hnone] at hjob
    cases hjob
  · rw [hqueue] at hlonger
    exact lt_irrefl _ hlonger

theorem length_step (c : Call) (w : World) (d : Draw) :
    w.queue.items.length ≤ (step c w d).2.queue.items.length := by
  rcases queue_step c w d with hsame | ⟨job, -, henqueue⟩
  · rw [hsame]
  · rw [henqueue, Queue.enqueue]
    split
    · exact le_rfl
    · rw [length_insertLocked]
      exact Nat.le_succ _

theorem grown_runs {α : Type} {p : Prog α} {w₀ w w' : World} {ds : List Mishap} {value : α}
    (hrun : lossy.Runs p w ds value w') (hgrown : Grown w₀ w) : Grown w₀ w' := by
  induction hrun with
  | ret value w => exact hgrown
  | call _ _ ih =>
      refine ih (hgrown.imp ?_ fun hlonger => hlonger.trans_le (length_step _ _ _))
      rintro ⟨id, hnone, hjob⟩
      exact ⟨id, hnone, stored_step hjob _ _⟩

section Calls

variable {w : World} {d : Mishap}

theorem timeNow_step (w : World) (d : Mishap) : lossy.step .timeNow w d = (d.now, w) := rfl

theorem effect_of_not_noEffect (h : ¬d.NoEffect) : d.effect.fault = none :=
  Option.not_isSome_iff_eq_none.mp h

theorem createJob_adds {job : Job} (heffect : ¬d.NoEffect) (hnew : ¬Bound w job.idempotencyKey) :
    ∃ stored, (lossy.step (.createJob job) w d).2.store.jobs.get?
      (stampJob job d.effect.uuid d.effect.now).id = some stored := by
  simp only [lossy, step, guarded_of_none (effect_of_not_noEffect heffect), Store.createJob]
  split
  · exact ⟨_, get?_put_self _ _⟩
  · rename_i hkey
    have hlookup : w.store.byIdem.lookup (stampJob job d.effect.uuid d.effect.now).idempotencyKey =
        none := Option.not_isSome_iff_eq_none.mp fun hbound => hnew ⟨hkey, hbound⟩
    rw [hlookup]
    exact ⟨_, get?_put_self _ _⟩

theorem createJob_bound {job : Job} (hbound : Bound w job.idempotencyKey) (d : Draw) :
    (step (.createJob job) w d).2 = w ∧
      ((∃ e, (step (.createJob job) w d).1 = .error e) ↔ d.fault.isSome) := by
  cases hfault : d.fault with
  | some e => simp [step, guarded_of_some hfault]
  | none =>
      obtain ⟨id, hlookup⟩ := Option.isSome_iff_exists.mp hbound.2
      obtain ⟨J, hJ⟩ := w.store.bound hlookup
      obtain rfl := key_of_get? hJ
      simp [step, guarded_of_none hfault, createJob_of_bound d.uuid d.now hbound.1 hlookup hJ]

theorem noEffect_step (c : Call) (w : World) (hnone : d.NoEffect) :
    lossy.step c w d = step c w d.toDraw ∧ d.fault.isSome := by
  unfold Mishap.NoEffect Mishap.effect at hnone
  split at hnone
  · cases hnone
  · rename_i happlied
    refine ⟨?_, hnone⟩
    simp only [lossy, Mishap.effect, if_neg happlied]

theorem createJob_noEffect (job : Job) (hnone : d.NoEffect) :
    ∃ e, lossy.step (.createJob job) w d = (.error e, w) := by
  obtain ⟨hstep, hfault⟩ := noEffect_step (.createJob job) w hnone
  obtain ⟨e, hfault⟩ := Option.isSome_iff_exists.mp hfault
  rw [hstep]
  exact ⟨e, by simp only [step, guarded_of_some hfault]⟩

theorem enqueue_adds {message : QueuedJob} (heffect : ¬d.NoEffect)
    (hopen : w.queue.closed = false) :
    w.queue.items.length < (lossy.step (.enqueue message) w d).2.queue.items.length := by
  simp only [lossy, step, guarded_of_none (effect_of_not_noEffect heffect), Queue.enqueue, hopen,
    Bool.false_eq_true, if_false, length_insertLocked]
  exact Nat.lt_succ_self _

theorem enqueue_noEffect {message : QueuedJob} (hnone : d.NoEffect) :
    ∃ e, lossy.step (.enqueue message) w d = (.error e, w) := by
  obtain ⟨hstep, hfault⟩ := noEffect_step (.enqueue message) w hnone
  obtain ⟨e, hfault⟩ := Option.isSome_iff_exists.mp hfault
  rw [hstep]
  exact ⟨e, by simp only [step, guarded_of_some hfault]⟩

theorem enqueue_closed (message : QueuedJob) (hclosed : w.queue.closed = true) (d : Draw) :
    ∃ e, step (.enqueue message) w d = (.error e, w) := by
  cases hfault : d.fault with
  | some e => exact ⟨e, by simp only [step, guarded_of_some hfault]⟩
  | none =>
      exact ⟨.canceled, by simp only [step, guarded_of_none hfault, Queue.enqueue, hclosed,
        if_true]⟩

theorem enqueue_fails (message : QueuedJob) (h : d.NoEffect ∨ w.queue.closed = true) :
    ∃ e, lossy.step (.enqueue message) w d = (.error e, w) := by
  rcases h with hnone | hclosed
  · exact enqueue_noEffect hnone
  · obtain ⟨e, hanswer⟩ := enqueue_closed message hclosed d.toDraw
    obtain ⟨_, heffect⟩ := enqueue_closed message hclosed d.effect
    exact ⟨e, by simp only [lossy, hanswer, heffect]⟩

end Calls

/-- The request has changed neither the jobs nor the queue. -/
def Unchanged (w₀ w' : World) : Prop := w'.store.jobs = w₀.store.jobs ∧ w'.queue = w₀.queue

section Request

variable {w₀ w w' : World} {ds : List Mishap}

theorem enqueueJob_unchanged {job : Job} {e : Err} (hsame : Unchanged w₀ w)
    (hrun : lossy.Runs (enqueueJob job) w ds (.error e) w') :
    Unchanged w₀ w' ↔ (∃ d ∈ ds[1]?, d.NoEffect) ∨ w₀.queue.closed := by
  obtain ⟨d₀, ds, rfl, -, hrun⟩ := runs_perform_iff.mp hrun
  obtain ⟨d₁, ds, rfl, -, hrun⟩ := runs_perform_iff.mp hrun
  simp only [timeNow_step] at hrun
  have hcond : (∃ d ∈ (d₀ :: d₁ :: ds)[1]?, d.NoEffect) ∨ w₀.queue.closed = true ↔
      d₁.NoEffect ∨ w.queue.closed = true := by
    rw [hsame.2]
    simp
  rw [hcond]
  by_cases hfails : d₁.NoEffect ∨ w.queue.closed = true
  · obtain ⟨e, hstep⟩ := enqueue_fails (queuedJob job d₀.now) hfails
    simp only [hstep] at hrun
    obtain ⟨-, -, rfl⟩ := runs_ret_iff.mp hrun
    exact iff_of_true hsame hfails
  · refine iff_of_false (not_unchanged (grown_runs hrun (Or.inr ?_))) hfails
    rw [not_or, Bool.not_eq_true] at hfails
    rw [← hsame.2]
    exact enqueue_adds hfails.1 hfails.2

theorem unchanged_emit (hsame : Unchanged w₀ w) (event : Event) (d : Mishap) :
    Unchanged w₀ (lossy.step (.emit event) w d).2 := by
  obtain ⟨hstore, hqueue⟩ := emit_frame event w d.effect
  refine ⟨?_, hqueue.trans hsame.2⟩
  change (step (.emit event) w d.effect).2.store.jobs = _
  rw [hstore, hsame.1]

theorem announceJob_unchanged {job : Job} {now : Time} {response : Response}
    (hsame : Unchanged w₀ w) (hrun : lossy.Runs (announceJob job now) w ds response w')
    (herror : 400 ≤ response.code) :
    Unchanged w₀ w' ↔ (∃ d ∈ ds[3]?, d.NoEffect) ∨ w₀.queue.closed := by
  obtain ⟨d₀, ds, rfl, -, hrun⟩ := runs_perform_iff.mp hrun
  obtain ⟨d₁, ds, rfl, -, hrun⟩ := runs_perform_iff.mp hrun
  replace hsame := fun created scheduled =>
    unchanged_emit (unchanged_emit hsame created d₀) scheduled d₁
  split at hrun
  · obtain ⟨first, rest, answer, w₂, rfl, hfirst, hrun⟩ := runs_bind_iff.mp hrun
    cases answer with
    | error e =>
        obtain ⟨rfl, -, rfl⟩ := runs_ret_iff.mp hrun
        rw [List.append_nil]
        exact enqueueJob_unchanged (hsame _ _) hfirst
    | ok job =>
        obtain ⟨-, rfl, -⟩ := runs_ret_iff.mp hrun
        exact absurd herror (by simp)
  · obtain ⟨-, rfl, -⟩ := runs_ret_iff.mp hrun
    exact absurd herror (by simp)

theorem submitJob_unchanged {job : Job} {now : Time} {response : Response} (hid : job.id ≠ "")
    (hnew : w.store.jobs.get? job.id = none)
    (hrun : lossy.Runs (submitJob job now) w ds response w') (herror : 400 ≤ response.code) :
    Unchanged w w' ↔ (∃ d ∈ ds[0]?, d.NoEffect) ∨ Bound w job.idempotencyKey ∧
      ((∃ d ∈ ds[0]?, d.fault.isSome) ∨ (∃ d ∈ ds[4]?, d.NoEffect) ∨ w.queue.closed) := by
  obtain ⟨d, ds, rfl, -, hrun⟩ := runs_perform_iff.mp hrun
  change _ ↔ (∃ d' ∈ some d, d'.NoEffect) ∨ Bound w job.idempotencyKey ∧
    ((∃ d' ∈ some d, d'.fault.isSome) ∨ (∃ d' ∈ ds[3]?, d'.NoEffect) ∨ w.queue.closed)
  simp only [Option.mem_some_iff, exists_eq_left']
  by_cases hnone : d.NoEffect
  · obtain ⟨e, hstep⟩ := createJob_noEffect job hnone
    rw [hstep] at hrun
    obtain ⟨-, -, rfl⟩ := runs_ret_iff.mp hrun
    exact iff_of_true ⟨rfl, rfl⟩ (Or.inl hnone)
  by_cases hbound : Bound w job.idempotencyKey
  · have hsame : (lossy.step (.createJob job) w d).2 = w := (createJob_bound hbound d.effect).1
    have hfails : (∃ e, (lossy.step (.createJob job) w d).1 = .error e) ↔ d.fault.isSome :=
      (createJob_bound hbound d.toDraw).2
    rw [hsame] at hrun
    rw [or_iff_right hnone, and_iff_right hbound, ← hfails]
    cases hanswer : (lossy.step (.createJob job) w d).1 with
    | error e =>
        rw [hanswer] at hrun
        obtain ⟨-, -, rfl⟩ := runs_ret_iff.mp hrun
        exact iff_of_true ⟨rfl, rfl⟩ (Or.inl ⟨e, rfl⟩)
    | ok stored =>
        rw [hanswer] at hrun
        rw [or_iff_right (by simp)]
        exact announceJob_unchanged ⟨rfl, rfl⟩ hrun herror
  · refine iff_of_false (not_unchanged (grown_runs hrun (Or.inl ⟨job.id, hnew, ?_⟩))) ?_
    · have hstored := createJob_adds hnone hbound
      rwa [stampJob, if_neg hid] at hstored
    · exact fun h => h.elim hnone fun h => hbound h.1

/-- A create request that fails leaves the jobs and the queue as they were if and only if it is
refused before `CreateJob`, or no call that would add a job or a message has its effect. -/
theorem failed_create_unchanged_iff (cron : Cron) (body : Option CreateJobRequest)
    {response : Response} (hrun : lossy.Runs (createJob cron body) w ds response w')
    (herror : 400 ≤ response.code) :
    (w'.store.jobs = w.store.jobs ∧ w'.queue = w.queue) ↔ LeavesNothing cron w ds body := by
  cases body with
  | none =>
      obtain ⟨-, -, rfl⟩ := runs_ret_iff.mp hrun
      exact iff_of_true ⟨rfl, rfl⟩ trivial
  | some req =>
      obtain ⟨d₀, ds, rfl, -, hrun⟩ := runs_perform_iff.mp hrun
      rw [timeNow_step] at hrun
      cases hvalid : checkRequest cron d₀.now req with
      | error message =>
          simp only [hvalid] at hrun
          obtain ⟨-, -, rfl⟩ := runs_ret_iff.mp hrun
          exact iff_of_true ⟨rfl, rfl⟩ (Or.inl ⟨d₀, rfl, by simp [hvalid, Except.toOption]⟩)
      | ok checked =>
          simp only [hvalid] at hrun
          obtain ⟨d₁, ds, rfl, -, hrun⟩ := runs_perform_iff.mp hrun
          obtain ⟨d₂, ds, rfl, hfresh, hrun⟩ := runs_perform_iff.mp hrun
          simp only [timeNow_step] at hfresh hrun
          have hrefused : Refused cron req (d₀ :: d₁ :: d₂ :: ds) ↔
              (firstRunAt cron checked.schedule d₁.now).isOk = false := by
            simp [Refused, hvalid, Except.toOption]
          cases hrunAt : firstRunAt cron checked.schedule d₁.now with
          | error message =>
              simp only [hrunAt] at hrun
              obtain ⟨-, -, rfl⟩ := runs_ret_iff.mp hrun
              exact iff_of_true ⟨rfl, rfl⟩ (Or.inl (hrefused.mpr (by rw [hrunAt]; rfl)))
          | ok scheduledAt =>
              simp only [hrunAt] at hrun
              have hpassed : ¬Refused cron req (d₀ :: d₁ :: d₂ :: ds) := by
                rw [hrefused, hrunAt]
                exact Bool.noConfusion
              have huuid : Fresh w d₂.uuid := hfresh
              rw [LeavesNothing, or_iff_right hpassed, ← checkRequest_key hvalid]
              exact submitJob_unchanged huuid.1 (notMem_keys.mp huuid.2.2.1) hrun herror

end Request

/-- The request of `echoRequest` with the `n`th of its calls failing. -/
def failingAt (n : Nat) : List Mishap :=
  ((createDraws 5 "job").take (n + 1)).mapIdx fun i d =>
    { d with fault := if i = n then some (.external "unreachable") else none }

/-- The queue cannot be reached: the request fails and the job stays behind.  The client
tries again, and after a pass of `promoteDueJobs` the work is queued twice. -/
theorem refused_create_runs_twice :
    ∃ response w₁ w₂ w₃,
      lossy.Runs (createJob utcOnly (some echoRequest)) .empty (failingAt 7) response w₁ ∧
      response.code = 500 ∧ w₁.jobState "job" = some .scheduled ∧ w₁.queue.items = [] ∧
      Performs utcOnly smallConfig memory (.createJob (some echoRequest)) w₁ w₂ ∧
      Performs utcOnly smallConfig memory .promoteDueJobs w₂ w₃ ∧
      w₃.queue.items.map QueuedJob.jobID = ["again", "job"] := by
  let r := (lossy.exec (createJob utcOnly (some echoRequest)) .empty (failingAt 7)).get
    (by decide +kernel)
  let w₂ := (perform utcOnly smallConfig memory (.createJob (some echoRequest))
    (createDraws 6 "again") r.2).get (by decide +kernel)
  let w₃ := (perform utcOnly smallConfig memory .promoteDueJobs
    (List.replicate 6 { now := 7, order := ["job", "again"] }) w₂).get (by decide +kernel)
  exact ⟨r.1, r.2, w₂, w₃, runs_of_get _, by decide +kernel, by decide +kernel, by decide +kernel,
    performs_of_get _ _ _, performs_of_get _ _ _, by decide +kernel⟩

/-- The store cannot be reached: the request fails and nothing stays behind. -/
theorem refused_store_leaves_nothing :
    ∃ response w', lossy.Runs (createJob utcOnly (some echoRequest)) .empty (failingAt 3)
        response w' ∧ 400 ≤ response.code ∧
      w'.store.jobs = World.empty.store.jobs ∧ w'.queue = World.empty.queue := by
  let r := (lossy.exec (createJob utcOnly (some echoRequest)) .empty (failingAt 3)).get
    (by decide +kernel)
  have hrun : lossy.Runs (createJob utcOnly (some echoRequest)) .empty _ r.1 r.2 := runs_of_get _
  have herror : 400 ≤ r.1.code := by decide +kernel
  exact ⟨r.1, r.2, hrun, herror, (failed_create_unchanged_iff utcOnly _ hrun herror).mpr
    (Or.inr (Or.inl ⟨_, rfl, rfl⟩))⟩

end Chronos.FailedCreate
