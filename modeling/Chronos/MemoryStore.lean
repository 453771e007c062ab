import Chronos.Domain
import Chronos.Library.KeyedTable

namespace Chronos.MemoryStore

open Chronos.Domain
open Chronos.Library.KeyedTable

abbrev JobTable := Table Job.id

abbrev ExecutionTable := Table JobExecution.id

abbrev WorkerTable := Table Worker.id

/-- The in-process job store.  A key in `byIdem` always names a stored job. -/
structure Store where
  jobs : JobTable
  byIdem : StringMap
  executions : ExecutionTable
  workers : WorkerTable
  bound : ∀ {key id : String}, byIdem.lookup key = some id → ∃ job, jobs.get? id = some job

def Store.new : Store where
  jobs := .empty
  byIdem := ∅
  executions := .empty
  workers := .empty
  bound := by
    intro key id h
    simp at h

/-- The field map of an update.  An absent key, or one whose value has another
type, leaves the field of the job as it is. -/
structure Fields where
  workerID : Option String := none
  executionID : Option String := none
  lastError : Option String := none
  attempt : Option Int := none
  queuedAt : Option Time := none
  startedAt : Option Time := none
  completedAt : Option Time := none
  nextRetryAt : Option Time := none
  scheduledAt : Option Time := none
  deriving DecidableEq, Repr

def applyUpdate (job : Job) (state : JobState) (fields : Fields) (now : Time) : Job :=
  { job with
    state := state
    updatedAt := now
    workerID := fields.workerID.getD job.workerID
    executionID := fields.executionID.getD job.executionID
    lastError := fields.lastError.getD job.lastError
    attempt := fields.attempt.getD job.attempt
    queuedAt := fields.queuedAt.or job.queuedAt
    startedAt := fields.startedAt.or job.startedAt
    completedAt := fields.completedAt.or job.completedAt
    nextRetryAt := fields.nextRetryAt.or job.nextRetryAt
    scheduledAt := fields.scheduledAt.or job.scheduledAt }

@[simp] theorem applyUpdate_id (job : Job) (state : JobState) (fields : Fields)
    (now : Time) : (applyUpdate job state fields now).id = job.id := rfl

@[simp] theorem applyUpdate_attempt (job : Job) (state : JobState) (fields : Fields)
    (now : Time) :
    (applyUpdate job state fields now).attempt = fields.attempt.getD job.attempt := rfl

theorem get?_put_applyUpdate {jobs : JobTable} {id : String} {job : Job}
    (hjob : jobs.get? id = some job) (state : JobState) (fields : Fields) (now : Time) :
    (jobs.put (applyUpdate job state fields now)).get? id =
      some (applyUpdate job state fields now) := by
  obtain rfl := key_of_get? hjob
  exact get?_put_self jobs (applyUpdate job state fields now)

def Store.putJob (s : Store) (job : Job) : Store :=
  { s with
    jobs := s.jobs.put job
    bound := by
      intro key id h
      obtain ⟨old, hold⟩ := s.bound h
      rw [get?_put]
      split
      · exact ⟨job, rfl⟩
      · exact ⟨old, hold⟩ }

@[simp] theorem putJob_jobs (s : Store) (job : Job) :
    (s.putJob job).jobs = s.jobs.put job := rfl

@[simp] theorem putJob_executions (s : Store) (job : Job) :
    (s.putJob job).executions = s.executions := rfl

@[simp] theorem putJob_byIdem (s : Store) (job : Job) : (s.putJob job).byIdem = s.byIdem := rfl

def Store.bindJob (s : Store) (job : Job) : Store :=
  { s.putJob job with
    byIdem := s.byIdem.insert job.idempotencyKey job.id
    bound := by
      intro key id h
      by_cases hkey : key = job.idempotencyKey
      · subst hkey
        rw [Finmap.lookup_insert] at h
        obtain rfl := Option.some.inj h
        exact ⟨job, get?_put_self _ _⟩
      · rw [Finmap.lookup_insert_of_ne _ hkey] at h
        exact (s.putJob job).bound h }

def stampJob (job : Job) (uuid : String) (now : Time) : Job :=
  { job with
    id := if job.id = "" then uuid else job.id
    createdAt := now
    updatedAt := now }

/-- Returns the caller's job struct as the call leaves it.  With a bound key it
is overwritten by the stored job. -/
def Store.createJob (s : Store) (job : Job) (uuid : String) (now : Time) : Job × Store :=
  let job := stampJob job uuid now
  if job.idempotencyKey = "" then (job, s.putJob job)
  else
    match s.byIdem.lookup job.idempotencyKey with
    | some id => ((s.jobs.get? id).getD job, s)
    | none => (job, s.bindJob job)

theorem createJob_of_bound {s : Store} {job J : Job} (uuid : String) (now : Time)
    (hkey : job.idempotencyKey ≠ "")
    (hbound : s.byIdem.lookup job.idempotencyKey = some J.id)
    (hJ : s.jobs.get? J.id = some J) : s.createJob job uuid now = (J, s) := by
  have hstamped : (stampJob job uuid now).idempotencyKey ≠ "" := hkey
  have hlookup : s.byIdem.lookup (stampJob job uuid now).idempotencyKey = some J.id := hbound
  unfold Store.createJob
  simp only
  rw [if_neg hstamped, hlookup]
  simp [hJ]

def Store.getJob (s : Store) (id : String) : Except Err Job :=
  match s.jobs.get? id with
  | none => .error .notFound
  | some job => .ok job

def Store.getJobByIdempotencyKey (s : Store) (key : String) : Except Err Job :=
  match s.byIdem.lookup key with
  | none => .error .notFound
  | some id => s.getJob id

def Store.updateJobStateIf (s : Store) (id : String) (state : JobState) (fields : Fields)
    (onlyFrom : List JobState) (now : Time) : Except Err Unit × Store :=
  match s.jobs.get? id with
  | none => (.error .notFound, s)
  | some job =>
      if onlyFrom ≠ [] ∧ job.state ∉ onlyFrom then (.ok (), s)
      else (.ok (), s.putJob (applyUpdate job state fields now))

/-- The listing loop: collect the selected jobs, stop when `limit` are found. -/
def collect (select : Job → Bool) (limit : Int) : List Job → List Job → List Job
  | out, [] => out
  | out, job :: rest =>
      if select job then
        if ((out ++ [job]).length : Int) ≥ limit then out ++ [job]
        else collect select limit (out ++ [job]) rest
      else collect select limit out rest

def defaultLimit (limit : Int) : Int :=
  if limit ≤ 0 then 50 else limit

/-- `order` is the order in which the loop visits the job map; no state selects
every job. -/
def Store.listJobs (s : Store) (order : List String) (state : Option JobState)
    (limit : Int) : List Job :=
  collect (fun job => match state with
    | none => true
    | some state => job.state == state) (defaultLimit limit) [] (s.jobs.inOrder order)

def dueScheduled (now : Time) (job : Job) : Bool :=
  match job.state with
  | .scheduled => match job.scheduledAt with
    | none => false
    | some t => decide (t ≤ now)
  | .retrying => match job.nextRetryAt with
    | none => false
    | some t => decide (t ≤ now)
  | _ => false

/-- Here the limit is tested after every job, selected or not. -/
def collectDue (now : Time) (limit : Int) : List Job → List Job → List Job
  | out, [] => out
  | out, job :: rest =>
      let out := if dueScheduled now job then out ++ [job] else out
      if (out.length : Int) ≥ limit then out else collectDue now limit out rest

def Store.listDueScheduled (s : Store) (order : List String) (now : Time)
    (limit : Int) : List Job :=
  collectDue now limit [] (s.jobs.inOrder order)

def Store.listCancelRequested (s : Store) (order : List String) (limit : Int) : List Job :=
  collect (fun job => job.state == .cancelRequested) (defaultLimit limit) []
    (s.jobs.inOrder order)

def effectiveTimeout (job : Job) : Duration :=
  if job.timeout ≤ 0 then 30 * second else job.timeout

def timedOutRunning (now : Time) (job : Job) : Bool :=
  (job.state == .running || job.state == .assigned) &&
    match job.startedAt with
    | none => false
    | some startedAt => decide (startedAt + effectiveTimeout job < now)

def Store.listTimedOutRunning (s : Store) (order : List String) (now : Time)
    (limit : Int) : List Job :=
  collect (timedOutRunning now) (defaultLimit limit) [] (s.jobs.inOrder order)

def stampExecution (ex : JobExecution) (uuid : String) (now : Time) : JobExecution :=
  { ex with id := if ex.id = "" then uuid else ex.id, createdAt := now }

def Store.createExecution (s : Store) (ex : JobExecution) (uuid : String)
    (now : Time) : Store :=
  { s with executions := s.executions.put (stampExecution ex uuid now) }

def Store.finishExecution (s : Store) (id : String) (state : ExecutionState)
    (result : ExecutionResult) (now : Time) : Except Err Unit × Store :=
  match s.executions.get? id with
  | none => (.error .notFound, s)
  | some ex =>
      let ex := { ex with
        state := state
        finishedAt := some now
        durationMs := Int.tdiv result.duration 1000000
        error := result.error
        output := result.output
        retryable := result.retryable }
      (.ok (), { s with executions := s.executions.put ex })

def Store.upsertWorker (s : Store) (w : Worker) : Store :=
  { s with workers := s.workers.put w }

/-- One pass over the workers in the given order; returns the newly suspected
and the newly unavailable ids. -/
def Store.markStaleWorkers (s : Store) (now : Time) (heartbeatTimeout grace : Duration) :
    List String → (List String × List String) × Store
  | [] => (([], []), s)
  | id :: order =>
      match s.workers.get? id with
      | none => s.markStaleWorkers now heartbeatTimeout grace order
      | some w =>
          if w.lastHeartbeat < now - (heartbeatTimeout + grace) ∧
              (w.status = .healthy ∨ w.status = .suspected) then
            let r := (s.upsertWorker { w with status := .unavailable }).markStaleWorkers
              now heartbeatTimeout grace order
            ((r.1.1, id :: r.1.2), r.2)
          else if w.lastHeartbeat < now - heartbeatTimeout ∧ w.status = .healthy then
            let r := (s.upsertWorker { w with status := .suspected }).markStaleWorkers
              now heartbeatTimeout grace order
            ((id :: r.1.1, r.1.2), r.2)
          else s.markStaleWorkers now heartbeatTimeout grace order

theorem getJob_eq_ok_iff {s : Store} {id : String} {job : Job} :
    s.getJob id = .ok job ↔ s.jobs.get? id = some job := by
  unfold Store.getJob
  split <;> simp_all

theorem getJob_of_none {s : Store} {id : String} (h : s.jobs.get? id = none) :
    s.getJob id = .error .notFound := by
  simp [Store.getJob, h]

theorem getJob_of_some {s : Store} {id : String} {job : Job}
    (h : s.jobs.get? id = some job) : s.getJob id = .ok job :=
  getJob_eq_ok_iff.mpr h

theorem updateJobStateIf_of_some {s : Store} {id : String} {job : Job}
    (hjob : s.jobs.get? id = some job) (state : JobState) (fields : Fields)
    {onlyFrom : List JobState} (hguard : onlyFrom = [] ∨ job.state ∈ onlyFrom)
    (now : Time) :
    s.updateJobStateIf id state fields onlyFrom now =
      (.ok (), s.putJob (applyUpdate job state fields now)) := by
  unfold Store.updateJobStateIf
  rw [hjob]
  apply if_neg
  rintro ⟨hne, hnot⟩
  exact hguard.elim hne hnot

theorem updateJobStateIf_jobs (s : Store) (id : String) (state : JobState)
    (fields : Fields) (onlyFrom : List JobState) (now : Time) :
    (s.updateJobStateIf id state fields onlyFrom now).2 = s ∨
      ∃ job, s.jobs.get? id = some job ∧ (onlyFrom = [] ∨ job.state ∈ onlyFrom) ∧
        (s.updateJobStateIf id state fields onlyFrom now).2 =
          s.putJob (applyUpdate job state fields now) := by
  unfold Store.updateJobStateIf
  split
  · exact Or.inl rfl
  · rename_i job hjob
    split
    · exact Or.inl rfl
    · rename_i hguard
      refine Or.inr ⟨job, hjob, ?_, rfl⟩
      by_contra hnot
      rw [not_or] at hnot
      exact hguard hnot

theorem updateJobStateIf_frame (s : Store) (id : String) (state : JobState)
    (fields : Fields) (onlyFrom : List JobState) (now : Time) :
    (s.updateJobStateIf id state fields onlyFrom now).2.executions = s.executions ∧
      (s.updateJobStateIf id state fields onlyFrom now).2.workers = s.workers ∧
      (s.updateJobStateIf id state fields onlyFrom now).2.byIdem = s.byIdem := by
  rcases updateJobStateIf_jobs s id state fields onlyFrom now with hsame | ⟨job, -, -, hput⟩
  · rw [hsame]
    exact ⟨rfl, rfl, rfl⟩
  · rw [hput]
    exact ⟨rfl, rfl, rfl⟩

theorem finishExecution_frame (s : Store) (id : String) (state : ExecutionState)
    (result : ExecutionResult) (now : Time) :
    (s.finishExecution id state result now).2.jobs = s.jobs ∧
      (s.finishExecution id state result now).2.workers = s.workers ∧
      (s.finishExecution id state result now).2.byIdem = s.byIdem := by
  unfold Store.finishExecution
  split <;> exact ⟨rfl, rfl, rfl⟩

theorem collect_sublist (select : Job → Bool) (limit : Int) (out jobs : List Job) :
    (collect select limit out jobs).Sublist (out ++ jobs.filter select) := by
  induction jobs generalizing out with
  | nil => simp [collect]
  | cons job rest ih =>
      rw [collect, List.filter_cons]
      split
      · split
        · simp
        · have := ih (out ++ [job])
          rwa [List.append_assoc] at this
      · exact ih out

theorem collectDue_sublist (now : Time) (limit : Int) (out jobs : List Job) :
    (collectDue now limit out jobs).Sublist (out ++ jobs.filter (dueScheduled now)) := by
  induction jobs generalizing out with
  | nil => simp [collectDue]
  | cons job rest ih =>
      rw [collectDue, List.filter_cons]
      split
      · split
        · simp
        · have := ih (out ++ [job])
          rwa [List.append_assoc] at this
      · split
        · simp
        · exact ih out

/-- A listing whose limit the selected jobs do not exceed has all of them. -/
theorem collect_eq_filter {select : Job → Bool} {limit : Int} {out jobs : List Job}
    (hroom : ((out.length + (jobs.filter select).length : Nat) : Int) ≤ limit) :
    collect select limit out jobs = out ++ jobs.filter select := by
  induction jobs generalizing out with
  | nil => simp [collect]
  | cons job rest ih =>
      rw [List.filter_cons] at hroom ⊢
      rw [collect]
      split
      · rename_i hselect
        have hlength : (out ++ [job]).length = out.length + 1 := by simp
        rw [if_pos hselect, List.length_cons] at hroom
        split
        · have hnone : rest.filter select = [] := List.eq_nil_of_length_eq_zero (by omega)
          rw [hnone]
        · rw [ih (by omega), List.append_assoc]
          rfl
      · rename_i hselect
        rw [if_neg hselect] at hroom
        exact ih hroom

/-- What a listing returns, in the order of the visit. -/
theorem collect_eq_take {select : Job → Bool} {limit : Int} {out jobs : List Job}
    (hout : (out.length : Int) < limit) :
    collect select limit out jobs = (out ++ jobs.filter select).take limit.toNat := by
  induction jobs generalizing out with
  | nil =>
      rw [collect, List.filter_nil, List.append_nil, List.take_of_length_le (by omega)]
  | cons job rest ih =>
      have hlength : (out ++ [job]).length = out.length + 1 := by simp
      rw [collect, List.filter_cons]
      split
      · have hcons : out ++ job :: rest.filter select = (out ++ [job]) ++ rest.filter select := by
          simp
        rw [hcons]
        split
        · rw [List.take_left' (by omega)]
        · exact ih (by omega)
      · exact ih hout

theorem collectDue_eq_take {now : Time} {limit : Int} {out jobs : List Job}
    (hout : (out.length : Int) < limit) :
    collectDue now limit out jobs =
      (out ++ jobs.filter (dueScheduled now)).take limit.toNat := by
  induction jobs generalizing out with
  | nil =>
      rw [collectDue, List.filter_nil, List.append_nil, List.take_of_length_le (by omega)]
  | cons job rest ih =>
      have hlength : (out ++ [job]).length = out.length + 1 := by simp
      rw [collectDue, List.filter_cons]
      split
      · have hcons : out ++ job :: rest.filter (dueScheduled now) =
            (out ++ [job]) ++ rest.filter (dueScheduled now) := by simp
        rw [hcons]
        split
        · rw [List.take_left' (by omega)]
        · exact ih (by omega)
      · rw [if_neg (by omega)]
        exact ih hout

/-- A listing that reaches its limit sees nothing of the jobs after that. -/
theorem collect_append {select : Job → Bool} {limit : Int} {out jobs : List Job}
    (hout : (out.length : Int) < limit)
    (hfull : limit ≤ ((out.length + (jobs.filter select).length : Nat) : Int))
    (rest : List Job) :
    collect select limit out (jobs ++ rest) = collect select limit out jobs := by
  induction jobs generalizing out with
  | nil =>
      rw [List.filter_nil, List.length_nil] at hfull
      omega
  | cons job jobs ih =>
      rw [List.filter_cons] at hfull
      rw [List.cons_append, collect, collect]
      split
      · rename_i hselect
        have hlength : (out ++ [job]).length = out.length + 1 := by simp
        rw [if_pos hselect, List.length_cons] at hfull
        split
        · rfl
        · exact ih (by omega) (by omega)
      · rename_i hselect
        rw [if_neg hselect] at hfull
        exact ih hout hfull

theorem collectDue_eq_filter {now : Time} {limit : Int} {out jobs : List Job}
    (hroom : ((out.length + jobs.length : Nat) : Int) < limit) :
    collectDue now limit out jobs = out ++ jobs.filter (dueScheduled now) := by
  induction jobs generalizing out with
  | nil => simp [collectDue]
  | cons job rest ih =>
      rw [List.length_cons] at hroom
      rw [collectDue, List.filter_cons]
      split
      · have hlength : (out ++ [job]).length = out.length + 1 := by simp
        rw [if_neg (by omega), ih (by omega), List.append_assoc]
        rfl
      · rw [if_neg (by omega), ih (by omega)]

/-- A listing of due jobs takes as many as there are, up to its limit. -/
theorem length_collectDue {now : Time} {limit : Int} {out jobs : List Job}
    (hout : (out.length : Int) < limit) :
    ((collectDue now limit out jobs).length : Int) =
      min limit ((out.length + (jobs.filter (dueScheduled now)).length : Nat) : Int) := by
  induction jobs generalizing out with
  | nil =>
      rw [collectDue, List.filter_nil, List.length_nil, Nat.add_zero]
      omega
  | cons job rest ih =>
      have hlength : (out ++ [job]).length = out.length + 1 := by simp
      rw [collectDue, List.filter_cons]
      by_cases hdue : dueScheduled now job
      · simp only [hdue, if_true, List.length_cons]
        split
        · omega
        · rw [ih (by omega), hlength]
          omega
      · simp only [hdue, if_false, Bool.false_eq_true]
        rw [if_neg (by omega), ih hout]

/-- A listing with a limit above the number of jobs misses none that it selects. -/
theorem mem_listDueScheduled {s : Store} {order : List String} {now : Time} {limit : Int}
    {id : String} {job : Job} (horder : s.jobs.Enumerates order)
    (hlimit : (s.jobs.keys.card : Int) < limit) (hjob : s.jobs.get? id = some job)
    (hdue : dueScheduled now job) : job ∈ s.listDueScheduled order now limit := by
  have hlength := Enumerates.length_inOrder_le horder
  obtain rfl := key_of_get? hjob
  rw [Store.listDueScheduled, collectDue_eq_filter (by rw [List.length_nil]; omega)]
  exact List.mem_filter.mpr ⟨(Enumerates.mem_inOrder horder).mpr hjob, hdue⟩

theorem mem_collect {jobs : JobTable} {order : List String} {select : Job → Bool} {limit : Int}
    {id : String} {job : Job} (horder : jobs.Enumerates order)
    (hlimit : (jobs.keys.card : Int) ≤ limit) (hjob : jobs.get? id = some job)
    (hselect : select job) : job ∈ collect select (defaultLimit limit) [] (jobs.inOrder order) := by
  have hlength := Enumerates.length_inOrder_le horder
  obtain rfl := key_of_get? hjob
  have hsome : 0 < jobs.keys.card := Finset.card_pos.mpr ⟨_, mem_keys.mpr ⟨job, hjob⟩⟩
  have hdefault : defaultLimit limit = limit := if_neg (by omega)
  have hselected := List.length_filter_le select (jobs.inOrder order)
  rw [hdefault, collect_eq_filter (by rw [List.length_nil]; omega)]
  exact List.mem_filter.mpr ⟨(Enumerates.mem_inOrder horder).mpr hjob, hselect⟩

theorem mem_listTimedOutRunning {s : Store} {order : List String} {now : Time} {limit : Int}
    {id : String} {job : Job} (horder : s.jobs.Enumerates order)
    (hlimit : (s.jobs.keys.card : Int) < limit) (hjob : s.jobs.get? id = some job)
    (hlate : timedOutRunning now job) : job ∈ s.listTimedOutRunning order now limit :=
  mem_collect horder hlimit.le hjob hlate

theorem markStaleWorkers_frame (s : Store) (now : Time)
    (heartbeatTimeout grace : Duration) (order : List String) :
    (s.markStaleWorkers now heartbeatTimeout grace order).2.jobs = s.jobs ∧
      (s.markStaleWorkers now heartbeatTimeout grace order).2.executions = s.executions ∧
      (s.markStaleWorkers now heartbeatTimeout grace order).2.byIdem = s.byIdem := by
  induction order generalizing s with
  | nil => exact ⟨rfl, rfl, rfl⟩
  | cons id order ih =>
      rw [Store.markStaleWorkers]
      split
      · exact ih s
      · split
        · exact ih _
        · split <;> exact ih _

section StaleWorkers

variable (now : Time) (heartbeatTimeout grace : Duration)

/-- The worker is to be marked UNAVAILABLE. -/
def Lost (w : Worker) : Prop :=
  w.lastHeartbeat < now - (heartbeatTimeout + grace) ∧
    (w.status = .healthy ∨ w.status = .suspected)

/-- The worker is to be marked SUSPECTED, unless it is lost. -/
def Overdue (w : Worker) : Prop :=
  w.lastHeartbeat < now - heartbeatTimeout ∧ w.status = .healthy

instance (w : Worker) : Decidable (Lost now heartbeatTimeout grace w) :=
  inferInstanceAs (Decidable (_ ∧ _))

instance (w : Worker) : Decidable (Overdue now heartbeatTimeout w) :=
  inferInstanceAs (Decidable (_ ∧ _))

def markStale (w : Worker) : Worker :=
  if Lost now heartbeatTimeout grace w then { w with status := .unavailable }
  else if Overdue now heartbeatTimeout w then { w with status := .suspected }
  else w

@[simp] theorem markStale_id (w : Worker) : (markStale now heartbeatTimeout grace w).id = w.id := by
  unfold markStale
  split
  · rfl
  · split <;> rfl

/-- One worker of the pass over the table. -/
theorem markStaleWorkers_cons {s : Store} {id : String} {w : Worker}
    (hw : s.workers.get? id = some w) (order : List String) :
    ∃ s' : Store, s'.workers = s.workers.put (markStale now heartbeatTimeout grace w) ∧
      s.markStaleWorkers now heartbeatTimeout grace (id :: order) =
        let r := s'.markStaleWorkers now heartbeatTimeout grace order
        ((if ¬Lost now heartbeatTimeout grace w ∧ Overdue now heartbeatTimeout w then
            id :: r.1.1 else r.1.1,
          if Lost now heartbeatTimeout grace w then id :: r.1.2 else r.1.2), r.2) := by
  rw [Store.markStaleWorkers, hw]
  by_cases hlost : Lost now heartbeatTimeout grace w
  · refine ⟨s.upsertWorker { w with status := .unavailable }, ?_, ?_⟩
    · rw [markStale, if_pos hlost]
      rfl
    · simp only [hlost, not_true_eq_false, false_and, if_false, if_true]
      exact if_pos hlost
  · by_cases hoverdue : Overdue now heartbeatTimeout w
    · refine ⟨s.upsertWorker { w with status := .suspected }, ?_, ?_⟩
      · rw [markStale, if_neg hlost, if_pos hoverdue]
        rfl
      · simp only [hlost, hoverdue, not_false_eq_true, and_self, if_false, if_true]
        exact (if_neg hlost).trans (if_pos hoverdue)
    · refine ⟨s, ?_, ?_⟩
      · rw [markStale, if_neg hlost, if_neg hoverdue]
        apply table_ext
        intro k
        rw [get?_put]
        split
        · rename_i hk
          rw [hk, key_of_get? hw, hw]
        · rfl
      · simp only [hlost, hoverdue, and_false, if_false]
        exact (if_neg hlost).trans (if_neg hoverdue)

theorem get?_markStaleWorkers {order : List String} (horder : order.Nodup) (s : Store)
    (id : String) :
    (s.markStaleWorkers now heartbeatTimeout grace order).2.workers.get? id =
      if id ∈ order then (s.workers.get? id).map (markStale now heartbeatTimeout grace)
      else s.workers.get? id := by
  induction order generalizing s with
  | nil => rfl
  | cons first order ih =>
      obtain ⟨hfirst, hrest⟩ := List.nodup_cons.mp horder
      cases hw : s.workers.get? first with
      | none =>
          rw [Store.markStaleWorkers, hw]
          simp only
          rw [ih hrest]
          by_cases hid : id = first
          · rw [hid, if_neg hfirst, if_pos List.mem_cons_self, hw]
            rfl
          · simp [hid]
      | some w =>
          obtain ⟨s', hs', heq⟩ := markStaleWorkers_cons now heartbeatTimeout grace hw order
          rw [heq]
          simp only
          rw [ih hrest, hs']
          have hkey : (markStale now heartbeatTimeout grace w).id = first := by
            rw [markStale_id, key_of_get? hw]
          by_cases hid : id = first
          · rw [hid, if_neg hfirst, if_pos List.mem_cons_self, hw, ← hkey, get?_put_self]
            rfl
          · rw [get?_put_of_ne _ (by rwa [hkey])]
            simp [hid]

theorem get?_marked {s : Store} {order : List String} (horder : s.workers.Enumerates order)
    (id : String) :
    (s.markStaleWorkers now heartbeatTimeout grace order).2.workers.get? id =
      (s.workers.get? id).map (markStale now heartbeatTimeout grace) := by
  rw [get?_markStaleWorkers _ _ _ horder.1]
  split
  · rfl
  · rename_i hid
    rw [← List.mem_toFinset, horder.2, notMem_keys] at hid
    rw [hid]
    rfl

theorem markStaleWorkers_ids {order : List String} (horder : order.Nodup) (s : Store) :
    (s.markStaleWorkers now heartbeatTimeout grace order).1 =
      (order.filter fun id => (s.workers.get? id).any fun w =>
        ¬Lost now heartbeatTimeout grace w ∧ Overdue now heartbeatTimeout w,
      order.filter fun id => (s.workers.get? id).any fun w =>
        Lost now heartbeatTimeout grace w) := by
  induction order generalizing s with
  | nil => rfl
  | cons first order ih =>
      obtain ⟨hfirst, hrest⟩ := List.nodup_cons.mp horder
      cases hw : s.workers.get? first with
      | none =>
          rw [Store.markStaleWorkers, hw]
          simp only
          rw [ih hrest]
          simp [hw]
      | some w =>
          obtain ⟨s', hs', heq⟩ := markStaleWorkers_cons now heartbeatTimeout grace hw order
          have hothers : ∀ P : Worker → Bool,
              (order.filter fun id => (s'.workers.get? id).any P) =
                order.filter fun id => (s.workers.get? id).any P := by
            intro P
            refine List.filter_congr fun id hid => ?_
            rw [hs', get?_put_of_ne]
            rintro rfl
            rw [markStale_id, key_of_get? hw] at hid
            exact hfirst hid
          rw [heq]
          simp only
          rw [ih hrest, hothers, hothers]
          simp only [List.filter_cons, hw, Option.any_some, decide_eq_true_eq]

theorem mem_unavailable {s : Store} {order : List String} (horder : s.workers.Enumerates order)
    (id : String) :
    id ∈ (s.markStaleWorkers now heartbeatTimeout grace order).1.2 ↔
      ∃ w, s.workers.get? id = some w ∧ Lost now heartbeatTimeout grace w := by
  rw [markStaleWorkers_ids _ _ _ horder.1, List.mem_filter, ← List.mem_toFinset, horder.2, mem_keys]
  cases hw : s.workers.get? id with
  | none => simp
  | some w => simp

end StaleWorkers

end Chronos.MemoryStore
