import Chronos.InformedRuns
import Chronos.ServiceSteps

namespace Chronos.EventAgreement

open Chronos.ApiServer (cancelRefused)
open Chronos.Domain
open Chronos.InformedRuns
open Chronos.JobWrites
open Chronos.Library.CallProgram
open Chronos.Library.CallMachine
open Chronos.Library.KeyedTable
open Chronos.MemoryStore
open Chronos.Operations
open Chronos.SchedulerService
open Chronos.ServiceSteps
open Chronos.SharedState
open Relation

/-- The outbox holds, or has held, a completion event of the job. -/
def Announced (w : World) (id : String) : Prop :=
  ∃ event ∈ w.events, event.eventType = .jobCompleted ∧ event.jobID = id

instance (w : World) (id : String) : Decidable (Announced w id) :=
  inferInstanceAs (Decidable (∃ event ∈ w.events, _))

/-- The stored states and the outbox agree on which jobs are completed. -/
def Agree (w : World) : Prop :=
  ∀ id, w.jobState id = some .completed ↔ Announced w id

/-- What comes after a COMPLETED write that drew `write`: an insert that shares its fate,
or nothing if the write has failed. -/
def EventFollows (write : Draw) : List (Call × Draw) → Prop
  | [] => write.fault.isSome
  | (_, insert) :: _ => insert.fault.isSome = write.fault.isSome

def completes : Call → Bool
  | .updateJobStateIf _ .completed _ _ => true
  | _ => false

/-- Every COMPLETED write of the run and the insert of its event both go through, or
neither does. -/
def Paired : List (Call × Draw) → Prop
  | [] => True
  | (c, d) :: trace => (completes c → EventFollows d trace) ∧ Paired trace

instance (write : Draw) : (trace : List (Call × Draw)) → Decidable (EventFollows write trace)
  | [] => inferInstanceAs (Decidable (_ = true))
  | (_, _) :: _ => inferInstanceAs (Decidable (_ = _))

instance : (trace : List (Call × Draw)) → Decidable (Paired trace)
  | [] => inferInstanceAs (Decidable True)
  | (_, _) :: trace =>
      have : Decidable (Paired trace) := instDecidablePaired trace
      inferInstanceAs (Decidable (_ ∧ _))

/-- A create request does not repeat the key of a COMPLETED job. -/
def KeyFree (task : Task) (w : World) : Prop :=
  match task with
  | .createJob (some req) => req.idempotencyKey ≠ "" →
      ∀ id ∈ w.store.byIdem.lookup req.idempotencyKey, w.jobState id ≠ some .completed
  | _ => True

variable {task : Task} {φ : Told} {w : World} {c : Call} {d : Draw}

theorem writes_live {id : String} {job : Job} {state : JobState} {fields : Fields}
    {onlyFrom : List JobState} (hwrites : Writes task id job state fields onlyFrom) :
    (state = .queued ∧ onlyFrom = []) ∨ job.state ≠ .completed := by
  have hsettles : ∀ {attempt result}, Settles job attempt result state fields →
      job.state ≠ .completed := by
    rintro attempt result hsettles hcompleted
    have hlive := hsettles.1
    rw [hcompleted] at hlive
    exact absurd hlive.symm Bool.false_ne_true
  have hother : ∀ {found : JobState}, job.state = found → found ≠ .completed →
      job.state ≠ .completed := fun hfound hne => hfound ▸ hne
  cases task with
  | createJob body => exact Or.inl ⟨hwrites.1, hwrites.2.2⟩
  | cancelJob target =>
      refine Or.inr fun hcompleted => ?_
      have hrefused := hwrites.2.1
      rw [hcompleted] at hrefused
      exact absurd hrefused.symm Bool.false_ne_true
  | promoteDueJobs =>
      rcases hwrites.2.1 with hstate | hstate
      · exact Or.inr (hother hstate JobState.noConfusion)
      · exact Or.inr (hother hstate JobState.noConfusion)
  | handleQueuedJob message =>
      rcases hwrites.2.2 with ⟨-, hqueueable⟩ | ⟨-, hstate⟩
      · refine Or.inr fun hcompleted => ?_
        rw [hcompleted] at hqueueable
        exact absurd hqueueable Bool.false_ne_true
      · exact Or.inr (hother hstate JobState.noConfusion)
  | handleResult jobID executionID workerID attempt result => exact Or.inr (hsettles hwrites.2.2)
  | pushPendingCancels => exact Or.inr (hother hwrites.1 JobState.noConfusion)
  | watchdogTimeouts => exact Or.inr (hsettles hwrites.2.2)
  | checkWorkers => exact Or.inr (hsettles hwrites.2.2)

/-- What is needed beyond the discipline of the operations: the job that a request was
answered with is not COMPLETED. -/
structure Unfinished (task : Task) (φ : Told) (w : World) : Prop where
  keyFree : KeyFree task w
  created : ∀ id ∈ φ.created, w.jobState id ≠ some .completed

theorem not_completed_of_admits {id : String} {state : JobState} {fields : Fields}
    {onlyFrom : List JobState} (hholds : Holds φ w) (hunfinished : Unfinished task φ w)
    (hadmits : φ.Admits task (.updateJobStateIf id state fields onlyFrom)) :
    w.jobState id ≠ some .completed := by
  obtain ⟨job, hjob, hwrites⟩ := informed_of_admits hholds hadmits
  rcases writes_live hwrites with ⟨hqueued, hunguarded⟩ | hlive
  · exact hunfinished.created id ((hadmits.2.2.1 hqueued).2 hunguarded)
  · rw [World.jobState, hjob, Option.map_some, ne_eq, Option.some.injEq]
    exact hlive

/-- Only a COMPLETED write changes which jobs are completed. -/
theorem completed_step (hholds : Holds φ w) (hunfinished : Unfinished task φ w)
    (hadmits : φ.Admits task c) (hsound : Sound w c d)
    (hc : ∀ id fields onlyFrom, c ≠ .updateJobStateIf id .completed fields onlyFrom)
    (id : String) :
    (step c w d).2.jobState id = some .completed ↔ w.jobState id = some .completed := by
  rcases jobState_step c w d id with hsame | ⟨job, rfl, hid, hnew⟩ |
    ⟨state, fields, onlyFrom, before, rfl, hbefore, -, hnew⟩
  · rw [hsame]
  · have hinformed := informed_of_admits hholds hadmits
    have hnone : w.jobState id = none := by
      rw [World.jobState, Option.map_eq_none_iff, ← hid]
      exact get?_stamped hinformed hsound
    rw [hnew, hnone, hinformed.1.1]
    simp
  · refine iff_of_false ?_ (not_completed_of_admits hholds hunfinished hadmits)
    rw [hnew, Option.some.injEq]
    rintro rfl
    exact hc id fields onlyFrom rfl

theorem not_completed_stamped {job : Job} (hholds : Holds φ w)
    (hadmits : φ.Admits task (.createJob job)) (hsound : Sound w (.createJob job) d) :
    w.jobState (stampJob job d.uuid d.now).id ≠ some .completed := by
  have hnone := get?_stamped (informed_of_admits hholds hadmits) hsound
  rw [World.jobState, hnone]
  exact (Option.some_ne_none _).symm

theorem keyFree_step (hholds : Holds φ w) (hunfinished : Unfinished task φ w)
    (hadmits : φ.Admits task c) (hsound : Sound w c d) : KeyFree task (step c w d).2 := by
  have hkeyFree := hunfinished.keyFree
  cases task with
  | createJob body =>
      cases body with
      | none => trivial
      | some req =>
          intro hkey id hbound
          rw [ne_eq, completed_step hholds hunfinished hadmits hsound]
          · by_cases hcreate : ∃ job, c = .createJob job
            · obtain ⟨job, rfl⟩ := hcreate
              rcases lookup_createJob hbound with hold | rfl
              · exact hkeyFree hkey id hold
              · exact not_completed_stamped hholds hadmits hsound
            · rw [byIdem_step (fun job hc => hcreate ⟨job, hc⟩)] at hbound
              exact hkeyFree hkey id hbound
          · rintro id fields onlyFrom rfl
            obtain ⟨job, -, hwrites⟩ := informed_of_admits hholds hadmits
            exact JobState.noConfusion hwrites.1
  | _ => trivial

theorem created_step (hholds : Holds φ w) (hunfinished : Unfinished task φ w)
    (hadmits : φ.Admits task c) (hsound : Sound w c d) {id : String}
    (hid : id ∈ (φ.after c (step c w d).1).created) :
    (step c w d).2.jobState id ≠ some .completed := by
  have hc : ∀ id fields onlyFrom, c ≠ .updateJobStateIf id .completed fields onlyFrom := by
    rintro _ _ _ rfl
    exact absurd hid.symm (Option.some_ne_none id)
  rw [ne_eq, completed_step hholds hunfinished hadmits hsound hc]
  by_cases hcreate : ∃ job, c = .createJob job
  · obtain ⟨job, rfl⟩ := hcreate
    cases hanswer : (step (.createJob job) w d).1 with
    | error e =>
        rw [hanswer] at hid
        exact hunfinished.created id hid
    | ok answer =>
        rw [hanswer] at hid
        obtain rfl := Option.some.inj hid
        rcases createJob_answered hanswer with hnew | ⟨hkey, hbound⟩
        · rw [hnew]
          exact not_completed_stamped hholds hadmits hsound
        · -- Only a request names a key.
          have hcreates := hadmits.2.1.2.2.2.2
          cases task with
          | createJob body =>
              cases body with
              | none => exact hcreates.elim
              | some req =>
                  rw [hcreates] at hkey hbound
                  exact hunfinished.keyFree hkey _ hbound
          | handleResult jobID executionID workerID attempt result =>
              exact absurd hcreates.2.2 hkey
          | _ => exact hcreates.elim
  · exact hunfinished.created id (created_after hid fun job hc => hcreate ⟨job, hc⟩)

/-- The job's COMPLETED write is in, its event is not, and the others agree. -/
structure Unannounced (id : String) (w : World) : Prop where
  own : w.jobState id = some .completed ∧ ¬ Announced w id
  others : ∀ other, other ≠ id → (w.jobState other = some .completed ↔ Announced w other)

/-- Before the rest of the trace: the state agrees, or the event of a COMPLETED write is
next. -/
def Awaiting (φ : Told) (w : World) (trace : List (Call × Draw)) : Prop :=
  match φ.completing with
  | none => Agree w
  | some id => ∃ write : Draw, EventFollows write trace ∧
      if write.fault.isSome then Agree w else Unannounced id w

theorem announced_step (hc : ∀ event, c = .emit event → event.eventType ≠ .jobCompleted)
    (id : String) : Announced (step c w d).2 id ↔ Announced w id := by
  rcases events_step c w d with hsame | ⟨event, rfl, -, hevents⟩
  · rw [Announced, hsame, Announced]
  · rw [Announced, hevents, Announced]
    constructor
    · rintro ⟨found, hfound, htype, hid⟩
      rcases List.mem_append.mp hfound with hold | hnew
      · exact ⟨found, hold, htype, hid⟩
      · rw [List.mem_singleton.mp hnew] at htype
        exact absurd htype (hc event rfl)
    · rintro ⟨found, hfound, hevent⟩
      exact ⟨found, List.mem_append_left _ hfound, hevent⟩

theorem admits_calm (hadmits : φ.Admits task c) :
    φ.completing = none ∨ ∃ event, c = .emit event := by
  cases c with
  | emit event => exact Or.inr ⟨event, rfl⟩
  | updateJobStateIf id state fields onlyFrom => exact Or.inl hadmits.1
  | createJob job => exact Or.inl hadmits.1
  | enqueue message => exact Or.inl hadmits.1
  | cancelJob workerID jobID executionID => exact Or.inl hadmits.1
  | addPendingCancel workerID jobID => exact Or.inl hadmits.1
  | createExecution ex => exact Or.inl hadmits.1
  | _ => exact Or.inl hadmits

/-- The insert that a COMPLETED write awaits restores the agreement. -/
theorem agree_insert {id : String} {event : Event} {trace : List (Call × Draw)}
    (hcompleting : φ.completing = some id) (hadmits : φ.Admits task (.emit event))
    (hawaiting : Awaiting φ w ((.emit event, d) :: trace)) :
    Agree (step (.emit event) w d).2 := by
  have hstate : ∀ other, (step (.emit event) w d).2.jobState other = w.jobState other := by
    intro other
    rw [World.jobState, (quiet_step rfl w d).1]
    rfl
  rw [Told.Admits, hcompleting] at hadmits
  obtain ⟨htype, rfl⟩ := hadmits
  rw [Awaiting, hcompleting] at hawaiting
  obtain ⟨write, hfollows, hwritten⟩ := hawaiting
  have hshared : d.fault.isSome = write.fault.isSome := hfollows
  split at hwritten
  · rename_i hfailed
    rw [hfailed] at hshared
    obtain ⟨e, hfault⟩ := Option.isSome_iff_exists.mp hshared
    intro other
    simpa [step, guarded, hfault] using hwritten other
  · rename_i hdone
    have hfault : d.fault = none := by
      rw [← Option.not_isSome_iff_eq_none, hshared]
      exact hdone
    have hevents : (step (.emit event) w d).2.events = w.events ++ [event] := by
      simp [step, guarded, hfault]
    intro other
    rw [hstate, Announced, hevents]
    by_cases hother : other = event.jobID
    · rw [hother]
      refine iff_of_true hwritten.own.1 ⟨event, ?_, htype, rfl⟩
      exact List.mem_append_right _ (List.mem_singleton.mpr rfl)
    · rw [hwritten.others other hother]
      constructor
      · rintro ⟨found, hfound, hannounces⟩
        exact ⟨found, List.mem_append_left _ hfound, hannounces⟩
      · rintro ⟨found, hfound, hfoundType, hid⟩
        rcases List.mem_append.mp hfound with hold | hnew
        · exact ⟨found, hold, hfoundType, hid⟩
        · rw [List.mem_singleton.mp hnew] at hid
          exact absurd hid.symm hother

theorem awaiting_write {id : String} {fields : Fields} {onlyFrom : List JobState}
    {trace : List (Call × Draw)} (hholds : Holds φ w) (hunfinished : Unfinished task φ w)
    (hadmits : φ.Admits task (.updateJobStateIf id .completed fields onlyFrom))
    (hagree : Agree w) (hfollows : EventFollows d trace) :
    Awaiting (φ.wrote id .completed
      (step (.updateJobStateIf id .completed fields onlyFrom) w d).1)
      (step (.updateJobStateIf id .completed fields onlyFrom) w d).2 trace := by
  refine ⟨d, hfollows, ?_⟩
  obtain ⟨job, hjob, hwrites⟩ := informed_of_admits hholds hadmits
  obtain rfl := onlyFrom_of_writes hwrites JobState.noConfusion
  have hannounced : ∀ other,
      Announced (step (.updateJobStateIf id .completed fields []) w d).2 other ↔
        Announced w other := fun other => announced_step (fun _ => Call.noConfusion) other
  have hlive := not_completed_of_admits hholds hunfinished hadmits
  split
  · rename_i hfailed
    obtain ⟨e, hfault⟩ := Option.isSome_iff_exists.mp hfailed
    intro other
    simpa [step, guarded, hfault] using hagree other
  · rename_i hdone
    have hfault := Option.not_isSome_iff_eq_none.mp hdone
    refine ⟨⟨?_, ?_⟩, fun other hother => ?_⟩
    · rw [jobState_update hfault, World.jobState, hjob]
      rfl
    · rw [hannounced, ← hagree]
      exact hlive
    · rw [hannounced, ← hagree]
      rcases jobState_step (.updateJobStateIf id .completed fields []) w d other with
        hsame | ⟨_, hc, -⟩ | ⟨_, _, _, _, hc, -⟩
      · rw [hsame]
      · cases hc
      · cases hc
        exact absurd rfl hother

theorem completing_after {answer : Answer c} (hcalm : φ.completing = none)
    (hc : ∀ id fields onlyFrom, c ≠ .updateJobStateIf id .completed fields onlyFrom) :
    (φ.after c answer).completing = none := by
  cases c with
  | updateJobStateIf id state fields onlyFrom =>
      refine if_neg ?_
      rintro rfl
      exact hc id fields onlyFrom rfl
  | listJobs state limit => cases state <;> cases answer <;> exact hcalm
  | emit event => rfl
  | _ => first | exact hcalm | (cases answer <;> exact hcalm)

theorem awaiting_step {trace : List (Call × Draw)} (hholds : Holds φ w)
    (hunfinished : Unfinished task φ w) (hadmits : φ.Admits task c) (hsound : Sound w c d)
    (hawaiting : Awaiting φ w ((c, d) :: trace)) (hpaired : Paired ((c, d) :: trace)) :
    Awaiting (φ.after c (step c w d).1) (step c w d).2 trace ∧ Paired trace := by
  by_cases hwrite : ∃ id fields onlyFrom, c = .updateJobStateIf id .completed fields onlyFrom
  · obtain ⟨id, fields, onlyFrom, rfl⟩ := hwrite
    rw [Awaiting, hadmits.1] at hawaiting
    exact ⟨awaiting_write hholds hunfinished hadmits hawaiting (hpaired.1 rfl), hpaired.2⟩
  · have hc : ∀ id fields onlyFrom, c ≠ .updateJobStateIf id .completed fields onlyFrom :=
      fun id fields onlyFrom hc => hwrite ⟨id, fields, onlyFrom, hc⟩
    have hcalm : φ.completing = none → Agree w →
        Awaiting (φ.after c (step c w d).1) (step c w d).2 trace := by
      intro hnone hagree
      rw [Awaiting, completing_after hnone hc]
      intro id
      rw [completed_step hholds hunfinished hadmits hsound hc, hagree, announced_step]
      rintro event rfl
      rwa [Told.Admits, hnone] at hadmits
    refine ⟨?_, hpaired.2⟩
    cases hcompleting : φ.completing with
    | none =>
        rw [Awaiting, hcompleting] at hawaiting
        exact hcalm hcompleting hawaiting
    | some id =>
        obtain ⟨event, rfl⟩ := (admits_calm hadmits).resolve_left fun hnone =>
          Option.some_ne_none id (hcompleting.symm.trans hnone)
        exact agree_insert hcompleting hadmits hawaiting

theorem agree_of_halts {α : Type} {p : Prog α} {final : Told → α → Prop} {w' : World}
    {trace : List (Call × Draw)} (hrun : failing.Halts p w trace w')
    (hp : p.Follows (informed task) final φ) (hholds : Holds φ w)
    (hunfinished : Unfinished task φ w) (hawaiting : Awaiting φ w trace)
    (hpaired : Paired trace) : Agree w' := by
  induction hrun generalizing φ with
  | stop p w =>
      rw [Awaiting] at hawaiting
      split at hawaiting
      · exact hawaiting
      · obtain ⟨write, hfollows, hagree⟩ := hawaiting
        have hfailed : write.fault.isSome := hfollows
        rwa [if_pos hfailed] at hagree
  | call hsound _ ih =>
      obtain ⟨hawaiting', hpaired'⟩ :=
        awaiting_step hholds hunfinished hp.1 hsound hawaiting hpaired
      exact ih (hp.2 _) (holds_step hholds hp.1 hsound)
        ⟨keyFree_step hholds hunfinished hp.1 hsound,
          fun _ hid => created_step hholds hunfinished hp.1 hsound hid⟩ hawaiting' hpaired'

theorem agree_workers {w w' : World} (hagree : Agree w) (hchange : WorkersChange w w') :
    Agree w' := by
  obtain ⟨registry, workers, news, hnews⟩ := hchange
  intro id
  refine (hagree id).trans ⟨?_, ?_⟩
  · rintro ⟨event, hevent, hcompleted⟩
    exact ⟨event, List.mem_append_left news hevent, hcompleted⟩
  · rintro ⟨event, hevent, hcompleted⟩
    rcases List.mem_append.mp hevent with hold | hnew
    · exact ⟨event, hold, hcompleted⟩
    · cases hnews event hnew <;> exact absurd hcompleted.1 EventType.noConfusion

/-- In every run in which each COMPLETED write shares its fate with the insert of its
event, and no request repeats the key of a COMPLETED job, states and events agree. -/
theorem states_and_events_agree (cron : Cron) (cfg : SchedulerConfig) {w w' : World}
    (hstart : Agree w)
    (hrun : Reaches (Halts cron cfg failing)
      (fun task trace w => Paired trace ∧ KeyFree task w) w w') : Agree w' := by
  induction hrun with
  | refl => exact hstart
  | tail _ hlast ih =>
      obtain ⟨operation, hstep, hcondition⟩ := hlast
      cases hstep with
      | workers hchange => exact agree_workers ih hchange
      | @task task _ _ trace hhalts =>
          obtain ⟨hpaired, hkeyFree⟩ := hcondition
          exact agree_of_halts hhalts (body_follows cron cfg task) (holds_start _)
            ⟨hkeyFree, fun _ hid => absurd hid.symm (Option.some_ne_none _)⟩ ih hpaired

def reportSuccess : Task := .handleResult "job" "execution" "worker" 1 succeeded

/-- The draws of the report of a success in which the call at `index` fails. -/
def failingAt (index : Nat) : List Draw :=
  (sweepDraws 7 3).modify index fun d => { d with fault := some (.external "connection reset") }

/-- One failed call is enough: the job is COMPLETED without an event if it is the insert
that fails, and has an event without being COMPLETED if it is the update. -/
theorem failed_call_breaks_agreement :
    ∃ w₁ w₂ w₃ w₃' : World,
      Performs utcOnly smallConfig memory (.createJob (some echoRequest)) idleWorker w₁ ∧
      Performs utcOnly smallConfig memory (.handleQueuedJob echoMessage) w₁ w₂ ∧
      Performs utcOnly smallConfig failing reportSuccess w₂ w₃ ∧
      w₃.jobState "job" = some .completed ∧ ¬ Announced w₃ "job" ∧
      Performs utcOnly smallConfig failing reportSuccess w₂ w₃' ∧
      w₃'.jobState "job" = some .running ∧ Announced w₃' "job" := by
  let w₁ := (perform utcOnly smallConfig memory (.createJob (some echoRequest))
    (createDraws 1 "job") idleWorker).get (by decide +kernel)
  let w₂ := (perform utcOnly smallConfig memory (.handleQueuedJob echoMessage)
    (handleDraws 2 "execution") w₁).get (by decide +kernel)
  let w₃ := (perform utcOnly smallConfig failing reportSuccess (failingAt 6) w₂).get
    (by decide +kernel)
  let w₃' := (perform utcOnly smallConfig failing reportSuccess (failingAt 5) w₂).get
    (by decide +kernel)
  exact ⟨w₁, w₂, w₃, w₃', performs_of_get _ _ _, performs_of_get _ _ _, performs_of_get _ _ _,
    by decide +kernel, by decide +kernel, performs_of_get _ _ _, by decide +kernel,
    by decide +kernel⟩

theorem agree_empty {w : World} (hjobs : w.store.jobs = .empty) (hevents : w.events = []) :
    Agree w := by
  intro id
  rw [World.jobState, hjobs, get?_empty, Announced, hevents]
  simp

/-- A report whose process stops at a COMPLETED write that has failed, and its repetition
that goes through. -/
theorem repeated_report_agrees :
    ∃ w' : World, Reaches (Halts utcOnly smallConfig failing)
        (fun task trace w => Paired trace ∧ KeyFree task w) idleWorker w' ∧
      w'.jobState "job" = some .completed ∧ Announced w' "job" ∧ Agree w' := by
  let run := fun (task : Task) (ds : List Draw) (w : World) =>
    failing.cut (task.body utcOnly smallConfig) w ds
  let created := (run (.createJob (some echoRequest)) (createDraws 1 "job") idleWorker).get
    (by decide +kernel)
  let handled := (run (.handleQueuedJob echoMessage) (handleDraws 2 "execution") created.2).get
    (by decide +kernel)
  let stopped := (run reportSuccess ((failingAt 5).take 6) handled.2).get (by decide +kernel)
  let repeated := (run reportSuccess (sweepDraws 7 4) stopped.2).get (by decide +kernel)
  have hreach : Reaches (Halts utcOnly smallConfig failing)
      (fun task trace w => Paired trace ∧ KeyFree task w) idleWorker repeated.2 := by
    refine .head (b := created.2) ?_ (.head (b := handled.2) ?_
      (.head (b := stopped.2) ?_ (.single ?_)))
    · exact ⟨.task (.createJob (some echoRequest)) created.1, .task (halts_of_get _),
        by decide +kernel, fun hkey => absurd rfl hkey⟩
    · exact ⟨.task (.handleQueuedJob echoMessage) handled.1, .task (halts_of_get _),
        by decide +kernel, trivial⟩
    · exact ⟨.task reportSuccess stopped.1, .task (halts_of_get _), by decide +kernel, trivial⟩
    · exact ⟨.task reportSuccess repeated.1, .task (halts_of_get _), by decide +kernel, trivial⟩
  refine ⟨repeated.2, hreach, by decide +kernel, by decide +kernel, ?_⟩
  exact states_and_events_agree utcOnly smallConfig (agree_empty rfl rfl) hreach

end Chronos.EventAgreement
