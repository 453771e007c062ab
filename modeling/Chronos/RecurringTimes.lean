import Chronos.Operations
import Chronos.ResultRecords
import Mathlib.Data.Int.ConditionallyCompleteOrder
import Mathlib.Order.Bounds.Basic

namespace Chronos.RecurringTimes

open Chronos.ApiServer
open Chronos.Domain
open Chronos.Library.CallProgram
open Chronos.Library.CallMachine
open Chronos.MemoryStore
open Chronos.Operations
open Chronos.ResultRecords (nextOccurrence)
open Chronos.SchedulerService
open Chronos.SharedState

/-- What is assumed of robfig/cron for an expression with fields.  `fires` holds the instants
that it matches, and `horizon` is the instant up to which `Next` looks for one, some five years
on. -/
structure Calendar (cron : Cron) (expr : String) where
  fires : cron.Location → Set Time
  horizon : cron.Location → Time → Time
  horizon_mono : ∀ location, Monotone (horizon location)
  next_isLeast : ∀ {next location t}, cron.parse expr = .ok next →
    (∃ u ∈ fires location, t < u ∧ u ≤ horizon location t) →
    IsLeast {u | u ∈ fires location ∧ t < u} (next location t)
  next_zero : ∀ {next location t}, cron.parse expr = .ok next →
    (¬∃ u ∈ fires location, t < u ∧ u ≤ horizon location t) → next location t = zeroTime

/-- The same for `@every`: a delay from the second in which the instant lies. -/
structure ConstantDelay (cron : Cron) (expr : String) where
  delay : Duration
  second_le_delay : second ≤ delay
  next_eq : ∀ {next location t}, cron.parse expr = .ok next →
    next location t = t + (delay - t % second)

inductive Robfig (cron : Cron) (expr : String)
  | fields (calendar : Calendar cron expr)
  | every (constant : ConstantDelay cron expr)

def scheduleLocation (cron : Cron) (s : Schedule) : Except String cron.Location :=
  if s.timezone = "" then .ok cron.utc else cron.loadLocation s.timezone

/-- The expression of the schedule matches an instant after `t` that a search from `t`
comes to.  A constant delay always leads to one. -/
def FiresAfter {cron : Cron} {s : Schedule} : Robfig cron s.cronExpr → Time → Prop
  | .fields calendar, t => ∃ location, scheduleLocation cron s = .ok location ∧
      ∃ u ∈ calendar.fires location, t < u ∧ u ≤ calendar.horizon location t
  | .every _, _ => True

theorem lt_next_of_constant {cron : Cron} {expr : String} (constant : ConstantDelay cron expr)
    {next : cron.Location → Time → Time} (hparse : cron.parse expr = .ok next)
    (location : cron.Location) (t : Time) : t < next location t := by
  rw [constant.next_eq hparse]
  have hfraction : t % second < second := Int.emod_lt_of_pos t (by decide)
  exact lt_add_of_pos_right t (sub_pos.mpr (hfraction.trans_le constant.second_le_delay))

section Accepted

variable {cron : Cron} {s : Schedule} {checkedAt t start now : Time}

theorem nextRunAt_recurring (hrecurring : s.type = .recurring) (hexpr : s.cronExpr ≠ "") :
    nextRunAt cron s start = match scheduleLocation cron s with
      | .error e => .error ("timezone: " ++ e)
      | .ok location =>
          match cron.parse s.cronExpr with
          | .error e => .error ("cron_expr: " ++ e)
          | .ok next => .ok (next location start) := by
  rw [nextRunAt, hrecurring]
  exact if_neg hexpr

/-- A recurring schedule that is accepted has a next time from any instant. -/
theorem nextRunAt_of_accepted (hrecurring : s.type = .recurring)
    (hvalid : validateSchedule cron s checkedAt = .ok ()) :
    ∃ location next, scheduleLocation cron s = .ok location ∧
      cron.parse s.cronExpr = .ok next ∧
      ∀ start, nextRunAt cron s start = .ok (next location start) := by
  simp only [validateSchedule, hrecurring] at hvalid
  split at hvalid
  · cases hvalid
  · rename_i hexpr
    simp only [nextRunAt_recurring hrecurring hexpr] at hvalid ⊢
    cases hlocation : scheduleLocation cron s with
    | error e => simp [hlocation] at hvalid
    | ok location =>
        cases hparse : cron.parse s.cronExpr with
        | error e => simp [hlocation, hparse] at hvalid
        | ok next => exact ⟨location, next, rfl, rfl, fun _ => rfl⟩

variable (robfig : Robfig cron s.cronExpr)

/-- The zero time stands for no next time.  It lies before any instant a clock reads, so
the next time is a later one just if the expression fires. -/
theorem nextRunAt_later_iff (hrecurring : s.type = .recurring)
    (hvalid : validateSchedule cron s checkedAt = .ok ())
    (hnext : nextRunAt cron s start = .ok t) :
    start < t ↔ start < zeroTime ∨ FiresAfter robfig start := by
  obtain ⟨location, next, hlocation, hparse, hok⟩ := nextRunAt_of_accepted hrecurring hvalid
  obtain rfl := Except.ok.inj ((hok start).symm.trans hnext)
  cases robfig with
  | every constant =>
      exact iff_of_true (lt_next_of_constant constant hparse location start) (Or.inr trivial)
  | fields calendar =>
      by_cases hfires :
          ∃ u ∈ calendar.fires location, start < u ∧ u ≤ calendar.horizon location start
      · have hleast := calendar.next_isLeast hparse hfires
        exact iff_of_true hleast.1.2 (Or.inr ⟨location, hlocation, hfires⟩)
      · rw [calendar.next_zero hparse hfires]
        refine ⟨Or.inl, fun h => h.resolve_right ?_⟩
        rintro ⟨location', hlocation', hfires'⟩
        obtain rfl := Except.ok.inj (hlocation.symm.trans hlocation')
        exact hfires hfires'

theorem firesAfter_of_between (hrecurring : s.type = .recurring)
    (hvalid : validateSchedule cron s checkedAt = .ok ())
    (hnext : nextRunAt cron s start = .ok t) (hstart : start ≤ now) (hlater : now < t) :
    now < zeroTime ∨ FiresAfter robfig now := by
  obtain ⟨location, next, hlocation, hparse, hok⟩ := nextRunAt_of_accepted hrecurring hvalid
  obtain rfl := Except.ok.inj ((hok start).symm.trans hnext)
  cases robfig with
  | every constant => exact Or.inr trivial
  | fields calendar =>
      by_cases hfires :
          ∃ u ∈ calendar.fires location, start < u ∧ u ≤ calendar.horizon location start
      · have hleast := calendar.next_isLeast hparse hfires
        obtain ⟨u, hu, hbefore, hwithin⟩ := hfires
        refine Or.inr ⟨location, hlocation, next location start, hleast.1.1, hlater, ?_⟩
        calc next location start ≤ u := hleast.2 ⟨hu, hbefore⟩
          _ ≤ calendar.horizon location start := hwithin
          _ ≤ calendar.horizon location now := calendar.horizon_mono location hstart
      · rw [calendar.next_zero hparse hfires] at hlater
        exact Or.inl hlater

/-- `createJob` starts its search one nanosecond early, and again from the instant itself
if that leads to no later time. -/
theorem firstRunAt_later_iff (hrecurring : s.type = .recurring)
    (hvalid : validateSchedule cron s checkedAt = .ok ())
    (hfirst : firstRunAt cron s now = .ok t) :
    now < t ↔ now < zeroTime ∨ FiresAfter robfig now := by
  simp only [firstRunAt, hrecurring] at hfirst
  split at hfirst
  · cases hfirst
  · rename_i next hnext
    split at hfirst
    · exact nextRunAt_later_iff robfig hrecurring hvalid hfirst
    · rename_i hlater
      obtain rfl := Except.ok.inj hfirst
      have hafter := not_le.mp hlater
      refine iff_of_true hafter ?_
      exact firesAfter_of_between robfig hrecurring hvalid hnext (Int.sub_le_self _ (by decide))
        hafter

end Accepted

/-- The job is stored with a time after `t`, so neither the API server nor the promotion
loop takes it for due at `t`. -/
structure ScheduledAfter (t : Time) (job : Job) : Prop where
  later : ∃ next, job.scheduledAt = some next ∧ t < next
  notDue : jobDue job t = false
  notListed : dueScheduled t job = false

theorem scheduledAfter_of_later {t next : Time} {job : Job} (hstate : job.state = .scheduled)
    (hscheduledAt : job.scheduledAt = some next) (hlater : t < next) : ScheduledAfter t job where
  later := ⟨next, hscheduledAt, hlater⟩
  notDue := by simp [jobDue, hscheduledAt, hlater]
  notListed := by simp [dueScheduled, hstate, hscheduledAt, hlater]

/-- What a schedule is computed to at the instant `t` lies after it: in a request that
`createJob` takes at `t`, and in a successor of an occurrence completed at `t`. -/
structure AdvancesFrom (cron : Cron) (s : Schedule) (t : Time) : Prop where
  created : ∀ {req w w' d₀ d₁ trace job d}, req.schedule = s →
    failing.Halts (createJob cron (some req)) w ((.timeNow, d₀) :: (.timeNow, d₁) :: trace) w' →
    d₁.now = t → (Call.createJob job, d) ∈ trace → ScheduledAfter t job
  spawned : ∀ {job : Job}, job.schedule = s →
    (maybeRescheduleRecurring cron job t).CallsOnly fun c =>
      ∀ child, c = .createJob child → ScheduledAfter t child

theorem checkRequest_recurring {cron : Cron} {checkedAt : Time} {req checked : CreateJobRequest}
    (hchecked : checkRequest cron checkedAt req = .ok checked)
    (hrecurring : req.schedule.type = .recurring) : checked.schedule = req.schedule := by
  have hkept : { req.schedule with type := .recurring } = req.schedule := by rw [← hrecurring]
  simp only [checkRequest, hrecurring, reduceCtorEq, if_false, hkept] at hchecked
  grind

theorem submitJob_creates (job : Job) (now : Time) :
    (submitJob job now).CallsOnly fun c => ∀ created, c = .createJob created → created = job := by
  refine (callsOnly_perform ..).mpr ⟨fun _ h => (Call.createJob.inj h).symm, fun answer => ?_⟩
  cases answer with
  | error e => trivial
  | ok stored =>
      refine callsOnly_mono (announceJob_calls stored now) ?_
      rintro _ hc created rfl
      exact hc.elim

/-- The call that stores the job of a request carries what `firstRunAt` computes from the
second clock reading. -/
theorem createJob_stores {cron : Cron} {req : CreateJobRequest} {w w' : World} {d₀ d₁ d : Draw}
    {trace : List (Call × Draw)} {job : Job}
    (hrun : failing.Halts (createJob cron (some req)) w
      ((.timeNow, d₀) :: (.timeNow, d₁) :: trace) w')
    (hcall : (Call.createJob job, d) ∈ trace) :
    ∃ checked id t, checkRequest cron d₀.now req = .ok checked ∧
      firstRunAt cron checked.schedule d₁.now = .ok t ∧ job = newJob checked id t := by
  obtain ⟨_, heq, -, hrun⟩ := halts_perform hrun
  obtain ⟨-, rfl⟩ := Prod.mk.inj heq
  simp only [failing_step, step] at hrun
  split at hrun
  · cases (halts_ret hrun).1
  · rename_i checked hchecked
    obtain ⟨_, heq, -, hrun⟩ := halts_perform hrun
    obtain ⟨-, rfl⟩ := Prod.mk.inj heq
    cases trace with
    | nil => exact absurd hcall List.not_mem_nil
    | cons entry trace =>
        obtain ⟨d₂, rfl, -, hrun⟩ := halts_perform hrun
        have hlater : (Call.createJob job, d) ∈ trace :=
          (List.mem_cons.mp hcall).resolve_left fun h => by cases h
        simp only [failing_step, step] at hrun
        split at hrun
        · rw [(halts_ret hrun).1] at hlater
          exact absurd hlater List.not_mem_nil
        · rename_i t hfirst
          refine ⟨checked, d₂.uuid, t, hchecked, hfirst, ?_⟩
          exact calls_of_halts (submitJob_creates _ _) hrun hlater job rfl

theorem maybeRescheduleRecurring_creates (cron : Cron) (job : Job) (start : Time)
    (allowed : Job → Prop) :
    (maybeRescheduleRecurring cron job start).CallsOnly (fun c =>
        ∀ child, c = .createJob child → allowed child) ↔
      ∀ child ∈ nextOccurrence cron job start, allowed child := by
  unfold maybeRescheduleRecurring nextOccurrence
  split
  · exact iff_of_true trivial fun _ h => absurd h.symm (Option.some_ne_none _)
  · cases nextRunAt cron job.schedule start with
    | error e => exact iff_of_true trivial fun _ h => absurd h.symm (Option.some_ne_none _)
    | ok next =>
        refine (callsOnly_perform ..).trans ⟨fun h => ?_, fun h => ⟨?_, fun answer => ?_⟩⟩
        · rintro child ⟨⟩
          exact h.1 _ rfl
        · rintro child ⟨⟩
          exact h _ rfl
        · cases answer with
          | error e => trivial
          | ok child =>
              exact (callsOnly_perform ..).mpr ⟨fun _ => Call.noConfusion, fun _ => trivial⟩

theorem nextOccurrence_of_next {cron : Cron} {job : Job} {start next : Time}
    (hrecurring : job.schedule.type = .recurring)
    (hnext : nextRunAt cron job.schedule start = .ok next) :
    ∃ child, nextOccurrence cron job start = some child ∧ child.state = .scheduled ∧
      child.scheduledAt = some next := by
  rw [nextOccurrence, if_neg (not_not_intro hrecurring), hnext]
  exact ⟨_, rfl, rfl, rfl⟩

/-- The times of an accepted recurring schedule advance from an instant just if its
expression fires after it. -/
theorem recurring_times_advance_iff {cron : Cron} {s : Schedule}
    (robfig : Robfig cron s.cronExpr) {checkedAt : Time} (hrecurring : s.type = .recurring)
    (hvalid : validateSchedule cron s checkedAt = .ok ()) (t : Time) :
    AdvancesFrom cron s t ↔ t < zeroTime ∨ FiresAfter robfig t := by
  obtain ⟨location, next, -, -, hnext⟩ := nextRunAt_of_accepted hrecurring hvalid
  constructor
  · intro hadvances
    let job : Job := { echoJob .running with schedule := s }
    have hnextJob : nextRunAt cron job.schedule t = .ok _ := hnext t
    obtain ⟨child, hchild, -, hscheduledAt⟩ := nextOccurrence_of_next hrecurring hnextJob
    obtain ⟨later, hlater, hafter⟩ := ((maybeRescheduleRecurring_creates ..).mp
      (hadvances.spawned rfl) child hchild).later
    obtain rfl := Option.some.inj (hscheduledAt.symm.trans hlater)
    exact (nextRunAt_later_iff robfig hrecurring hvalid (hnext t)).mp hafter
  · intro hfires
    constructor
    · rintro req w w' d₀ d₁ trace job d rfl hrun rfl hcall
      obtain ⟨checked, id, first, hchecked, hfirst, rfl⟩ := createJob_stores hrun hcall
      rw [checkRequest_recurring hchecked hrecurring] at hfirst
      refine scheduledAfter_of_later rfl rfl ?_
      exact (firstRunAt_later_iff robfig hrecurring hvalid hfirst).mpr hfires
    · rintro job rfl
      refine (maybeRescheduleRecurring_creates ..).mpr fun child hchild => ?_
      obtain ⟨_, hnew, hstate, hscheduledAt⟩ := nextOccurrence_of_next hrecurring (hnext t)
      obtain rfl := Option.some.inj (hnew.symm.trans hchild)
      refine scheduledAfter_of_later hstate hscheduledAt ?_
      exact (nextRunAt_later_iff robfig hrecurring hvalid (hnext t)).mpr hfires

/-- Every expression is one that matches no instant. -/
def neverFires : Cron where
  Location := Unit
  utc := ()
  loadLocation := fun name => .error ("unknown time zone " ++ name)
  parse := fun _ => .ok fun _ _ => zeroTime

def neverFires_calendar (expr : String) : Calendar neverFires expr where
  fires := fun _ => ∅
  horizon := fun _ t => t
  horizon_mono := fun _ => monotone_id
  next_isLeast := by
    rintro next location t - ⟨u, hu, -⟩
    exact hu.elim
  next_zero := by
    rintro next location t ⟨⟩ -
    rfl

def february30 : Schedule := { type := .recurring, cronExpr := "0 0 30 2 *" }

/-- A job for the thirtieth of February is accepted, stored for the zero time and queued
at once.  When it completes, its successor is due at once again. -/
theorem impossible_date_due_at_once :
    Nonempty (Calendar neverFires february30.cronExpr) ∧
    validateSchedule neverFires february30 1 = .ok () ∧
    ∃ w₁ w₂ w₃ : World,
      Performs neverFires smallConfig memory
        (.createJob (some { echoRequest with schedule := february30 })) idleWorker w₁ ∧
      (w₁.store.jobs.get? "job").map Job.scheduledAt = some (some zeroTime) ∧
      w₁.jobState "job" = some .queued ∧
      Performs neverFires smallConfig memory (.handleQueuedJob echoMessage) w₁ w₂ ∧
      Performs neverFires smallConfig memory
        (.handleResult "job" "first" "worker" 1 succeeded) w₂ w₃ ∧
      (w₃.store.jobs.get? "next").map (dueScheduled 3) = some true := by
  refine ⟨⟨neverFires_calendar _⟩, rfl, ?_⟩
  let w₁ := (perform neverFires smallConfig memory
    (.createJob (some { echoRequest with schedule := february30 })) (createDraws 1 "job")
    idleWorker).get (by decide +kernel)
  let w₂ := (perform neverFires smallConfig memory (.handleQueuedJob echoMessage)
    (handleDraws 2 "first") w₁).get (by decide +kernel)
  let w₃ := (perform neverFires smallConfig memory
    (.handleResult "job" "first" "worker" 1 succeeded)
    (List.replicate 7 { now := 3 } ++ [{ now := 3, uuid := "next" }, { now := 3 }]) w₂).get
    (by decide +kernel)
  exact ⟨w₁, w₂, w₃, performs_of_get _ _ _, by decide +kernel, by decide +kernel,
    performs_of_get _ _ _, performs_of_get _ _ _, by decide +kernel⟩

def everyMinute : Cron where
  Location := Unit
  utc := ()
  loadLocation := fun name => .error ("unknown time zone " ++ name)
  parse := fun _ => .ok fun _ t => (t / (60 * second) + 1) * (60 * second)

theorem everyMinute_isLeast (t : Time) :
    IsLeast {u | 60 * second ∣ u ∧ t < u} ((t / (60 * second) + 1) * (60 * second)) := by
  have hminute : 0 < 60 * second := by decide
  refine ⟨⟨Int.dvd_mul_left _ _, Int.lt_ediv_add_one_mul_self t hminute⟩, ?_⟩
  rintro u ⟨⟨minutes, rfl⟩, hlater⟩
  rw [mul_comm (60 * second)] at hlater ⊢
  have hless := (Int.ediv_lt_iff_lt_mul hminute).mpr hlater
  exact Int.mul_le_mul_of_nonneg_right hless hminute.le

def everyMinute_calendar (expr : String) : Calendar everyMinute expr where
  fires := fun _ => {u | 60 * second ∣ u}
  horizon := fun _ t => t + 60 * second
  horizon_mono := fun _ _ _ h => Int.add_le_add_right h _
  next_isLeast := by
    rintro next location t ⟨⟩ -
    exact everyMinute_isLeast t
  next_zero := by
    rintro next location t ⟨⟩ hnone
    obtain ⟨hfires, hlater⟩ := (everyMinute_isLeast t).1
    refine absurd ⟨_, hfires, hlater, ?_⟩ hnone
    have hfloor := Int.ediv_mul_le t (b := 60 * second) (by decide)
    rw [add_mul, one_mul]
    exact Int.add_le_add_right hfloor _

theorem every_minute_advances :
    validateSchedule everyMinute { type := .recurring, cronExpr := "* * * * *" } 1 = .ok () ∧
      AdvancesFrom everyMinute { type := .recurring, cronExpr := "* * * * *" } 1 := by
  have hvalid : validateSchedule everyMinute
      { type := .recurring, cronExpr := "* * * * *" } 1 = .ok () := rfl
  refine ⟨hvalid, (recurring_times_advance_iff (.fields (everyMinute_calendar _)) rfl hvalid
    1).mpr ?_⟩
  exact Or.inr ⟨(), rfl, 60 * second, Int.dvd_refl _, by decide, by decide⟩

end Chronos.RecurringTimes
