import Chronos.Operations
import Chronos.PostgresTables
import Chronos.WorkerProcess

namespace Chronos.Timeouts

open Chronos.ApiServer (checkRequest newJob)
open Chronos.Domain
open Chronos.MemoryStore (timedOutRunning effectiveTimeout)
open Chronos.Operations (utcOnly)
open Chronos.PostgresStore
open Chronos.PostgresTables (timedOutRow)
open Chronos.SchedulerService
open Chronos.WorkerProcess (executionTimeout)

/-- The timeout that a request asks for. -/
def requestedTimeout (req : CreateJobRequest) : Duration :=
  if req.timeoutSeconds > 0 then req.timeoutSeconds * second else 30 * second

theorem requestedTimeout_pos (req : CreateJobRequest) : 0 < requestedTimeout req := by
  unfold requestedTimeout
  split
  · exact Int.mul_pos ‹_› (by decide)
  · decide

variable {F : Format}

/-- The deadline that a worker sets for the job of a message. -/
def deadlineAfter (job : Job) (enqueuedAt : Time) (executionID : String) : Duration :=
  executionTimeout (executeJobRequest (queuedJob job enqueuedAt) executionID)

/-- The job has the timeout wherever one is looked at: in its record, on a worker, and in
the listings of both stores. -/
structure HasTimeout (F : Format) (job : Job) (timeout : Duration) : Prop where
  positive : 0 < timeout
  stored : job.timeout = timeout
  deadline : ∀ enqueuedAt executionID, deadlineAfter job enqueuedAt executionID = timeout
  memory : ∀ startedAt now,
    timedOutRunning now { job with state := .running, startedAt := some startedAt } ↔
      startedAt + timeout < now
  postgres : ∀ row : Row F, encodeRow F job = some row →
    (scanJob row).timeout = timeout ∧
      ∀ startedAt now,
        timedOutRow now { row with state := .running, startedAt := some startedAt } ↔
          timestamptz.decode startedAt + timeout < timestamptz.decode now

theorem wrap64_eq_iff {n : Int} (hn : 0 ≤ n) : wrap64 n = n ↔ n < 2 ^ 63 := by
  unfold wrap64
  constructor
  · intro hsame
    have hlt := Int.bmod_lt (x := n) (m := 2 ^ 64) (by decide)
    rw [hsame] at hlt
    omega
  · intro hlt
    exact Int.bmod_eq_of_le (by omega) (by omega)

theorem encodeRow_timeoutMs {job : Job} {row : Row F} (hrow : encodeRow F job = some row) :
    row.timeoutMs = milliseconds job.timeout := by
  iterate 11 obtain ⟨_, -, hrow⟩ := Option.bind_eq_some_iff.mp hrow
  obtain rfl := Option.some.inj hrow
  rfl

/-- A timeout of whole milliseconds within 64 bits survives its way through the queue, the
push and the row. -/
theorem hasTimeout_of_milliseconds {job : Job} {ms : Int} (hpos : 0 < ms)
    (hfits : ms * 1000000 < 2 ^ 63) (htimeout : job.timeout = ms * 1000000) :
    HasTimeout F job (ms * 1000000) := by
  have hpositive : 0 < ms * 1000000 := by omega
  have hms : ∀ {d : Duration}, d = ms * 1000000 → Int.tdiv d 1000000 = ms := by
    rintro _ rfl
    exact Int.mul_tdiv_cancel ms (by decide)
  refine ⟨hpositive, htimeout, fun enqueuedAt executionID => ?_, fun startedAt now => ?_,
    fun row hrow => ?_⟩
  · have hsent : (executeJobRequest (queuedJob job enqueuedAt) executionID).timeoutMs = ms := by
      refine hms ?_
      rw [queuedJob, htimeout]
      exact if_neg hpositive.not_ge
    rw [deadlineAfter, executionTimeout, hsent, (wrap64_eq_iff hpositive.le).mpr hfits]
    exact if_neg hpositive.not_ge
  · have heffective : effectiveTimeout
        { job with state := .running, startedAt := some startedAt } = ms * 1000000 := by
      rw [effectiveTimeout, htimeout, if_neg hpositive.not_ge]
    simp [timedOutRunning, heffective]
  · have hrowMs : row.timeoutMs = ms := (encodeRow_timeoutMs hrow).trans (hms htimeout)
    have hmicro : ∀ s n : Int, s + ms * 1000 < n ↔ s * 1000 + ms * 1000000 < n * 1000 := by
      intro s n
      omega
    refine ⟨by rw [scanJob, hrowMs], fun startedAt now => ?_⟩
    simp only [timedOutRow, hrowMs, timestamptz, beq_self_eq_true, Bool.true_or, Bool.true_and,
      Option.any_some, decide_eq_true_eq]
    exact hmicro startedAt now

theorem checkRequest_timeoutSeconds {cron : Cron} {now : Time} {req checked : CreateJobRequest}
    (hvalid : checkRequest cron now req = .ok checked) :
    checked.timeoutSeconds = req.timeoutSeconds := by
  grind [checkRequest]

/-- An accepted request gets one timeout, the one it asks for, if and only if that is a
64-bit number of nanoseconds. -/
theorem one_timeout_iff (F : Format) {cron : Cron} {checkedAt : Time}
    {req checked : CreateJobRequest} (hvalid : checkRequest cron checkedAt req = .ok checked)
    (id : String) (scheduledAt : Time) :
    HasTimeout F (newJob checked id scheduledAt) (requestedTimeout req) ↔
      req.timeoutSeconds * second < 2 ^ 63 := by
  have hseconds := checkRequest_timeoutSeconds hvalid
  constructor
  · intro htimeout
    have hstored := htimeout.stored
    simp only [newJob, hseconds, requestedTimeout] at hstored
    split at hstored
    · exact (wrap64_eq_iff (Int.mul_pos ‹_› (by decide)).le).mp hstored
    · have hnonpos : req.timeoutSeconds * second ≤ 0 :=
        Int.mul_nonpos_of_nonpos_of_nonneg (not_lt.mp ‹_›) (by decide)
      exact hnonpos.trans_lt (by decide)
  · intro hfits
    have hms : requestedTimeout req = requestedTimeout req / 1000000 * 1000000 := by
      refine (Int.ediv_mul_cancel ?_).symm
      unfold requestedTimeout
      split
      · exact Dvd.dvd.mul_left (by decide) _
      · decide
    have hpos := requestedTimeout_pos req
    have hsmall : requestedTimeout req < 2 ^ 63 := by
      unfold requestedTimeout
      split
      · exact hfits
      · decide
    have hjob : (newJob checked id scheduledAt).timeout = requestedTimeout req := by
      simp only [newJob, hseconds, requestedTimeout]
      split
      · exact (wrap64_eq_iff (Int.mul_pos ‹_› (by decide)).le).mpr hfits
      · rfl
    rw [hms] at hpos hsmall hjob ⊢
    exact hasTimeout_of_milliseconds ((mul_pos_iff_of_pos_right (by decide)).mp hpos) hsmall hjob

/-- A request with every default filled in. -/
def timedRequest (seconds : Int) : CreateJobRequest where
  name := "echo"
  type := .builtin
  priority := 5
  schedule := { type := .immediate }
  timeoutSeconds := seconds

def longJob : Job := newJob (timedRequest 9223372037) "job" 0

/-- One second more than 64 bits hold: the record has a negative timeout, a worker and the
memory store take 30 seconds instead, and for Postgres the job is overdue from the start. -/
theorem long_timeout_differs :
    checkRequest utcOnly 0 (timedRequest 9223372037) = .ok (timedRequest 9223372037) ∧
      longJob.timeout < 0 ∧ deadlineAfter longJob 0 "execution" = 30 * second ∧
      effectiveTimeout longJob = 30 * second ∧
      (encodeRow plainFormat longJob).any (fun row =>
        timedOutRow 0 { row with state := .running, startedAt := some 0 }) := by
  decide +kernel

theorem minute_is_one_timeout :
    HasTimeout plainFormat (newJob (timedRequest 60) "job" 0) (60 * second) := by
  have hvalid : checkRequest utcOnly 0 (timedRequest 60) = .ok (timedRequest 60) := rfl
  exact (one_timeout_iff plainFormat hvalid "job" 0).mpr (by decide)

end Chronos.Timeouts
