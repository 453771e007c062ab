import Chronos.MemoryStore
import Chronos.OneJobPerKey.Postgres

namespace Chronos.OneJobPerKey

open Chronos.Domain
open Chronos.Library.CallProgram
open Chronos.Library.CallMachine
open Chronos.Library.Interleaving
open Chronos.Library.KeyedTable
open Chronos.Library.RelyGuarantee

namespace Memory

open Chronos.MemoryStore

def view : KeyView Store where
  Stored := fun s job => s.jobs.get? job.id = some job
  Lookup := fun s key result => result = s.getJobByIdempotencyKey key

structure State where
  store : Store := Store.new
  returned : List (String × String) := []

/-- The calls of the store that create and update jobs, each one critical section. -/
inductive StoreCall
  | createJob (job : Job)
  | updateJobStateIf (id : String) (state : JobState) (fields : Fields)
      (onlyFrom : List JobState)

abbrev StoreAnswer : StoreCall → Type
  | .createJob _ => Job
  | .updateJobStateIf _ _ _ _ => Except Err Unit

structure StoreDraw where
  uuid : String := ""
  now : Time := 0

def sections : Machine StoreCall StoreAnswer State StoreDraw where
  step
    | .createJob job, s, d =>
        ((s.store.createJob job d.uuid d.now).1,
          { s with store := (s.store.createJob job d.uuid d.now).2 })
    | .updateJobStateIf id state fields onlyFrom, s, d =>
        ((s.store.updateJobStateIf id state fields onlyFrom d.now).1,
          { s with store := (s.store.updateJobStateIf id state fields onlyFrom d.now).2 })
  Allowed := fun s c d =>
    match c with
    | .createJob job => s.store.jobs.get? (stampJob job d.uuid d.now).id = none
    | .updateJobStateIf _ _ _ _ => True

instance (s : State) (c : StoreCall) (d : StoreDraw) : Decidable (sections.Allowed s c d) :=
  match c with
  | .createJob job =>
      inferInstanceAs (Decidable (s.store.jobs.get? (stampJob job d.uuid d.now).id = none))
  | .updateJobStateIf _ _ _ _ => inferInstanceAs (Decidable True)

abbrev ask (c : StoreCall) : Program StoreCall StoreAnswer (StoreAnswer c) := perform c

/-- A finished task tells the job its caller was left with, if it was a `CreateJob`. -/
def system : System StoreCall StoreAnswer State StoreDraw StoreCall (Option Job) where
  machine := sections
  body
    | .createJob job => do return some (← ask (.createJob job))
    | .updateJobStateIf id state fields onlyFrom => do
        let _ ← ask (.updateJobStateIf id state fields onlyFrom)
        return none
  start := fun p _ => some p.state
  finish
    | .createJob job, some left, _, s =>
        { s with returned := (job.idempotencyKey, left.id) :: s.returned }
    | _, _, _, s => s

instance (s : State) (c : StoreCall) (d : StoreDraw) :
    Decidable (system.machine.Allowed s c d) :=
  inferInstanceAs (Decidable (sections.Allowed s c d))

/-- The map of keys is in step with the jobs. -/
structure Indexed (s : Store) : Prop where
  key : ∀ {key id job}, s.byIdem.lookup key = some id → s.jobs.get? id = some job →
    job.idempotencyKey = key
  bound : ∀ {job}, s.jobs.get? job.id = some job → job.idempotencyKey ≠ "" →
    s.byIdem.lookup job.idempotencyKey = some job.id

structure Held (s : State) : Prop where
  indexed : Indexed s.store
  left : ∀ {key id}, (key, id) ∈ s.returned → key ≠ "" → s.store.byIdem.lookup key = some id

def KeepsKeys (s s' : Store) : Prop :=
  ∀ key id, s.byIdem.lookup key = some id → s'.byIdem.lookup key = some id

/-- After the call, the key and the id of the job that the caller has. -/
def creating : Protocol StoreCall StoreAnswer (Option (String × String)) where
  Admits := fun _ _ => True
  after
    | _, .createJob job, left => some (job.idempotencyKey, left.id)
    | phase, _, _ => phase

def Knows (s : State) : Option (String × String) → Prop
  | none => True
  | some (key, id) => key ≠ "" → s.store.byIdem.lookup key = some id

def Returns : StoreCall → Option (String × String) → Option Job → Prop
  | .createJob job, phase, some left => phase = some (job.idempotencyKey, left.id)
  | _, _, _ => True

/-- A key is bound to a stored job only. -/
theorem bound_ne {s : Store} {key id : String} {job : Job} (hbound : s.byIdem.lookup key = some id)
    (habsent : s.jobs.get? job.id = none) : id ≠ job.id := by
  rintro rfl
  obtain ⟨old, hold⟩ := s.bound hbound
  rw [habsent] at hold
  exact absurd hold.symm (Option.some_ne_none old)

theorem indexed_put {s : Store} {job : Job} (hs : Indexed s)
    (habsent : s.jobs.get? job.id = none) (hkey : job.idempotencyKey = "") :
    Indexed (s.putJob job) where
  key := by
    intro key id stored hbound hstored
    rw [putJob_byIdem] at hbound
    rw [putJob_jobs, get?_put_of_ne _ (bound_ne hbound habsent)] at hstored
    exact hs.key hbound hstored
  bound := by
    intro stored hstored hne
    rcases (get?_put_iff_of_absent habsent stored).mp hstored with hold | rfl
    · exact hs.bound hold hne
    · exact absurd hkey hne

theorem indexed_bind {s : Store} {job : Job} (hs : Indexed s)
    (habsent : s.jobs.get? job.id = none)
    (hfree : s.byIdem.lookup job.idempotencyKey = none) : Indexed (s.bindJob job) where
  key := by
    intro key id stored hbound hstored
    change (s.byIdem.insert job.idempotencyKey job.id).lookup key = some id at hbound
    change (s.jobs.put job).get? id = some stored at hstored
    by_cases hkey : key = job.idempotencyKey
    · subst hkey
      rw [Finmap.lookup_insert] at hbound
      obtain rfl := Option.some.inj hbound
      rw [get?_put_self] at hstored
      rw [← Option.some.inj hstored]
    · rw [Finmap.lookup_insert_of_ne _ hkey] at hbound
      rw [get?_put_of_ne _ (bound_ne hbound habsent)] at hstored
      exact hs.key hbound hstored
  bound := by
    intro stored hstored hne
    change (s.byIdem.insert job.idempotencyKey job.id).lookup stored.idempotencyKey = _
    rcases (get?_put_iff_of_absent habsent stored).mp hstored with hold | rfl
    · have hbound := hs.bound hold hne
      rw [Finmap.lookup_insert_of_ne]
      · exact hbound
      · intro hsame
        rw [hsame, hfree] at hbound
        exact absurd hbound.symm (Option.some_ne_none _)
    · exact Finmap.lookup_insert _

/-- What `CreateJob` does to a store whose keys are in step, with a fresh id. -/
theorem createJob_spec {s : Store} {job : Job} {uuid : String} {now : Time} (hs : Indexed s)
    (habsent : s.jobs.get? (stampJob job uuid now).id = none) :
    Indexed (s.createJob job uuid now).2 ∧ KeepsKeys s (s.createJob job uuid now).2 ∧
      (job.idempotencyKey ≠ "" → (s.createJob job uuid now).2.byIdem.lookup job.idempotencyKey =
        some (s.createJob job uuid now).1.id) := by
  have hsame : (stampJob job uuid now).idempotencyKey = job.idempotencyKey := rfl
  unfold Store.createJob
  dsimp only
  split
  · rename_i hkey
    exact ⟨indexed_put hs habsent hkey, fun _ _ hbound => hbound, fun hne => absurd hkey hne⟩
  · split
    · rename_i id hbound
      obtain ⟨stored, hstored⟩ := s.bound hbound
      refine ⟨hs, fun _ _ hold => hold, fun _ => ?_⟩
      rw [hstored, Option.getD_some, key_of_get? hstored]
      exact hbound
    · rename_i hfree
      refine ⟨indexed_bind hs habsent hfree, ?_, fun _ => Finmap.lookup_insert _⟩
      intro key id hold
      change (s.byIdem.insert _ _).lookup key = some id
      rw [Finmap.lookup_insert_of_ne]
      · exact hold
      · rintro rfl
        rw [hfree] at hold
        exact absurd hold.symm (Option.some_ne_none id)

theorem updateJobStateIf_indexed {s : Store} (hs : Indexed s) (id : String) (state : JobState)
    (fields : Fields) (onlyFrom : List JobState) (now : Time) :
    Indexed (s.updateJobStateIf id state fields onlyFrom now).2 ∧
      KeepsKeys s (s.updateJobStateIf id state fields onlyFrom now).2 := by
  rcases updateJobStateIf_jobs s id state fields onlyFrom now with hsame | ⟨job, hjob, -, hput⟩
  · rw [hsame]
    exact ⟨hs, fun _ _ hold => hold⟩
  · rw [hput]
    obtain rfl := key_of_get? hjob
    have hkeys : ∀ {stored id}, (s.jobs.put (applyUpdate job state fields now)).get? id =
        some stored → ∃ old, s.jobs.get? id = some old ∧
          stored.idempotencyKey = old.idempotencyKey := by
      intro stored id hstored
      rw [get?_put] at hstored
      split at hstored
      · rename_i hid
        obtain rfl := Option.some.inj hstored
        exact ⟨job, hid ▸ hjob, rfl⟩
      · exact ⟨stored, hstored, rfl⟩
    refine ⟨⟨?_, ?_⟩, fun _ _ hold => hold⟩
    · intro key id stored hbound hstored
      obtain ⟨old, hold, hsame⟩ := hkeys hstored
      rw [hsame]
      exact hs.key hbound hold
    · intro stored hstored hne
      obtain ⟨old, hold, hsame⟩ := hkeys hstored
      have hid := key_of_get? hold
      rw [hsame] at hne ⊢
      rw [← hid]
      exact hs.bound (hid ▸ hold) hne

theorem sections_call {s : State} {phase : Option (String × String)} {c : StoreCall}
    {d : StoreDraw} (hs : Held s) (hknows : Knows s phase) (hallowed : sections.Allowed s c d) :
    Held (sections.step c s d).2 ∧ KeepsKeys s.store (sections.step c s d).2.store ∧
      Knows (sections.step c s d).2 (creating.after phase c (sections.step c s d).1) := by
  cases c with
  | createJob job =>
      obtain ⟨hindexed, hkeeps, hbound⟩ := createJob_spec hs.indexed hallowed
      exact ⟨⟨hindexed, fun hmem hne => hkeeps _ _ (hs.left hmem hne)⟩, hkeeps, hbound⟩
  | updateJobStateIf id state fields onlyFrom =>
      obtain ⟨hindexed, hkeeps⟩ :=
        updateJobStateIf_indexed hs.indexed id state fields onlyFrom d.now
      refine ⟨⟨hindexed, fun hmem hne => hkeeps _ _ (hs.left hmem hne)⟩, hkeeps, ?_⟩
      cases phase with
      | none => trivial
      | some held => exact fun hne => hkeeps _ _ (hknows hne)

def outline : Outline system creating where
  Inv := Held
  Holds := fun phase s => Knows s phase
  Rely := fun s s' => KeepsKeys s.store s'.store
  Final := Returns
  stable := by
    intro s s' phase hkeeps hknows
    cases phase with
    | none => trivial
    | some held => exact fun hne => hkeeps _ _ (hknows hne)
  start := by
    rintro p task _ hinv ⟨⟩
    refine ⟨hinv, fun _ _ hold => hold, none, trivial, ?_⟩
    cases task with
    | createJob job => exact ⟨trivial, fun _ => rfl⟩
    | updateJobStateIf id state fields onlyFrom => exact ⟨trivial, fun _ => trivial⟩
  call := fun hinv hknows _ hallowed => sections_call hinv hknows hallowed
  finish := by
    intro s phase task value d hinv hknows hreturns
    cases task with
    | updateJobStateIf id state fields onlyFrom => exact ⟨hinv, fun _ _ hold => hold⟩
    | createJob job =>
        cases value with
        | none => exact ⟨hinv, fun _ _ hold => hold⟩
        | some left =>
            obtain rfl : phase = some (job.idempotencyKey, left.id) := hreturns
            refine ⟨⟨hinv.indexed, fun {key id} hmem hne => ?_⟩, fun _ _ hold => hold⟩
            rcases List.mem_cons.mp hmem with hnew | hold
            · obtain ⟨rfl, rfl⟩ := Prod.mk.inj hnew
              exact hknows hne
            · exact hinv.left hold hne

theorem keysHeld_of_held {s : State} (hs : Held s) : KeysHeld view s.store s.returned where
  unique := by
    intro job job' hjob hjob' hne hsame
    have hbound := hs.indexed.bound hjob hne
    have hbound' := hs.indexed.bound hjob' (hsame ▸ hne)
    rw [hsame, hbound] at hbound'
    have hid := Option.some.inj hbound'
    change s.store.jobs.get? job'.id = some job' at hjob'
    rw [← hid, hjob] at hjob'
    exact (Option.some.inj hjob').symm
  found := by
    rintro job _ hjob hne rfl
    rw [Store.getJobByIdempotencyKey, hs.indexed.bound hjob hne]
    exact getJob_of_some hjob
  absent := by
    intro key job hlookup
    change _ = s.store.getJobByIdempotencyKey key at hlookup
    unfold Store.getJobByIdempotencyKey at hlookup
    split at hlookup
    · cases hlookup
    · rename_i id hbound
      have hjob := getJob_eq_ok_iff.mp hlookup.symm
      obtain rfl := key_of_get? hjob
      exact ⟨hjob, hs.indexed.key hbound hjob⟩
  left := by
    intro key id hmem hne
    have hbound := hs.left hmem hne
    obtain ⟨job, hjob⟩ := s.store.bound hbound
    obtain rfl := key_of_get? hjob
    exact ⟨job, hjob, hs.indexed.key hbound hjob, rfl⟩

theorem createJob_adds {s : Store} {job : Job} {uuid : String} {now : Time}
    (hkey : job.idempotencyKey = "")
    (habsent : s.jobs.get? (stampJob job uuid now).id = none) :
    AddsJob view s (s.createJob job uuid now).2 (s.createJob job uuid now).1 := by
  have hstamped : (stampJob job uuid now).idempotencyKey = "" := hkey
  unfold Store.createJob
  simp only [hstamped, if_true]
  refine ⟨?_, fun stored => get?_put_iff_of_absent habsent stored⟩
  intro stored hstored hsame
  change s.jobs.get? stored.id = some stored at hstored
  rw [hsame, habsent] at hstored
  exact absurd hstored.symm (Option.some_ne_none stored)

end Memory

/-- One job for each key in both stores, whatever creators and updates interleave,
and a new job for each call without a key. -/
theorem one_job_per_key (F : PostgresStore.Format)
    {p : Pool PostgresStore.Statement PostgresStore.StatementAnswer (Postgres.State F)
      Postgres.StoreTask (Except Err Unit × Option Job)}
    {q : Pool Memory.StoreCall Memory.StoreAnswer Memory.State Memory.StoreCall (Option Job)}
    (hp : (Postgres.system F).Reaches (fun _ _ => True) ⟨{}, []⟩ p)
    (hq : Memory.system.Reaches (fun _ _ => True) ⟨{}, []⟩ q) :
    KeysHeld (Postgres.view F) p.state.rows p.state.returned ∧
      KeysHeld Memory.view q.state.store q.state.returned ∧
      (∀ job uuid now s ds left s', job.idempotencyKey = "" →
        (Postgres.statements F).Runs (PostgresStore.createJob job uuid now) s ds
          (.ok (), left) s' →
        ∃ new, AddsJob (Postgres.view F) s.rows s'.rows new ∧
          F.uuid.encode new.id = F.uuid.encode left.id) ∧
      (∀ (s : MemoryStore.Store) job uuid now, job.idempotencyKey = "" →
        s.jobs.get? (MemoryStore.stampJob job uuid now).id = none →
        AddsJob Memory.view s (s.createJob job uuid now).2 (s.createJob job uuid now).1) := by
  refine ⟨Postgres.keysHeld_of_held ?_, Memory.keysHeld_of_held ?_,
    fun job uuid now s ds left s' hkey hrun => Postgres.createJob_adds hkey hrun,
    fun s job uuid now hkey habsent => Memory.createJob_adds hkey habsent⟩
  · refine (valid_reaches (Postgres.outline F) hp ⟨⟨?_, by simp⟩, by simp⟩).1
    intro row row' hrow
    exact absurd (hrow.symm.trans (get?_empty row.id)) (Option.some_ne_none row)
  · refine (valid_reaches Memory.outline hq ⟨⟨⟨?_, ?_⟩, by simp⟩, by simp⟩).1
    · intro key id job hbound
      exact absurd (hbound.symm.trans (Finmap.lookup_empty key)) (Option.some_ne_none id)
    · intro job hjob
      exact absurd (hjob.symm.trans (get?_empty job.id)) (Option.some_ne_none job)

def keyedJob (id : String) : Job where
  id := id
  name := "echo"
  type := .builtin
  payload := none
  priority := 5
  state := .created
  schedule := { type := .immediate }
  retryPolicy := defaultRetryPolicy
  timeout := 30 * second
  idempotencyKey := "key"
  maxAttempts := 3

/-- Two creators with one key: both insert before either looks the key up. -/
theorem racing_creators_share_job :
    ∃ (p : Pool PostgresStore.Statement PostgresStore.StatementAnswer
        (Postgres.State PostgresStore.plainFormat) Postgres.StoreTask
        (Except Err Unit × Option Job))
      (q : Pool Memory.StoreCall Memory.StoreAnswer Memory.State Memory.StoreCall (Option Job)),
      p.state.returned = [("key", "job-1"), ("key", "job-1")] ∧
      q.state.returned = [("key", "job-1"), ("key", "job-1")] ∧
      KeysHeld (Postgres.view PostgresStore.plainFormat) p.state.rows p.state.returned ∧
      KeysHeld Memory.view q.state.store q.state.returned := by
  let create := fun id => Postgres.StoreTask.createJob (keyedJob id) "" 0
  let scan : PostgresStore.StatementDraw PostgresStore.plainFormat :=
    { order := [⟨"job-1", by decide⟩] }
  let p := ((Postgres.system PostgresStore.plainFormat).follow (fun _ _ => true) ⟨{}, []⟩
    [.start (create "job-1"), .start (create "job-2"), .advance 0 {}, .advance 1 {},
      .advance 1 scan, .finish 1 {}, .advance 0 scan, .finish 0 {}]).get (by decide +kernel)
  let q := (Memory.system.follow (fun _ _ => true) ⟨{}, []⟩
    [.start (.createJob (keyedJob "job-1")), .start (.createJob (keyedJob "job-2")),
      .advance 0 {}, .advance 1 {}, .finish 1 {}, .finish 0 {}]).get (by decide +kernel)
  have hkeys := one_job_per_key PostgresStore.plainFormat (p := p) (q := q)
    (reaches_of_follow (fun _ _ _ => trivial) (Option.some_get _).symm)
    (reaches_of_follow (fun _ _ _ => trivial) (Option.some_get _).symm)
  exact ⟨p, q, by decide +kernel, by decide +kernel, hkeys.1, hkeys.2.1⟩

end Chronos.OneJobPerKey
