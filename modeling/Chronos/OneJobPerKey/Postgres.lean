import Chronos.OneJobPerKey

namespace Chronos.OneJobPerKey

open Chronos.Domain
open Chronos.Library.CallProgram
open Chronos.Library.CallMachine
open Chronos.Library.KeyedTable
open Chronos.Library.RelyGuarantee

namespace Postgres

open Chronos.PostgresStore

variable {F : Format}

/-- What a call knows of its key: that it is taken once the insert has gone through,
and by which job once it has been looked up. -/
inductive Phase
  | ready
  | present (key : String)
  | found (key id : String)
  | impossible

def creating : Protocol Statement StatementAnswer Phase where
  Admits
    | .ready, .selectJobByKey _ => False
    | .ready, _ => True
    | .present key, .selectJobByKey key' => key' = key ∧ key ≠ ""
    | _, _ => False
  after
    | .ready, .insertJob job, .ok _ => .present job.idempotencyKey
    | .present key, .selectJobByKey _, .ok job => .found key job.id
    | .present _, .selectJobByKey _, .error _ => .impossible
    | phase, _, _ => phase

def Knows (s : State F) : Phase → Prop
  | .ready => True
  | .present key => ∃ id, HeldBy s.rows key id
  | .found key id => HeldBy s.rows key id
  | .impossible => False

/-- A call with a key returns nil only with the job that it found under the key. -/
def LeftWith (key : String) (phase : Phase) (result : Except Err Unit × Job) : Prop :=
  result.1 = .ok () → key ≠ "" → phase = .found key result.2.id ∨ phase = .impossible

theorem createJob_follows (job : Job) (uuid : String) (now : Time) :
    (createJob job uuid now).Follows creating (LeftWith job.idempotencyKey) .ready := by
  refine (follows_perform ..).mpr ⟨trivial, fun inserted => ?_⟩
  cases inserted with
  | error e => exact fun herror => by cases herror
  | ok _ =>
      dsimp only
      split
      · rename_i hkey
        exact fun _ hne => absurd hkey hne
      · rename_i hkey
        refine (follows_perform ..).mpr ⟨⟨rfl, hkey⟩, fun found => ?_⟩
        cases found with
        | error e => exact fun _ _ => Or.inr rfl
        | ok existing =>
            refine fun _ _ => Or.inl ?_
            change Phase.found job.idempotencyKey existing.id = _
            dsimp only
            split
            · rename_i hid
              rw [hid]
            · rfl

theorem updateJobStateIf_follows (id : String) (u : Update) :
    (updateJobStateIf id u).Follows creating (fun _ _ => True) .ready := by
  refine (follows_perform ..).mpr ⟨trivial, fun read => ?_⟩
  cases read with
  | error e => trivial
  | ok job =>
      dsimp only
      split
      · trivial
      · exact ⟨trivial, fun _ => trivial⟩

def Returns : StoreTask → Phase → Except Err Unit × Option Job → Prop
  | .createJob job _ _, phase, (result, some left) =>
      LeftWith job.idempotencyKey phase (result, left)
  | _, _, _ => True

theorem body_follows (task : StoreTask) :
    ((system F).body task).Follows creating (Returns task) .ready := by
  cases task with
  | createJob job uuid now =>
      exact follows_bind (createJob_follows job uuid now) fun _ _ hleft => hleft
  | updateJobStateIf id u =>
      exact follows_bind (updateJobStateIf_follows id u) fun _ _ _ => trivial

/-- The rows with the key, found in any order of the scan. -/
theorem selectJobByKey_of_held {t : JobRows F} {order : List F.UUID} {row : Row F}
    (horder : t.Enumerates order) (hrow : t.get? row.id = some row)
    (hkey : nullText.decode row.idempotencyKey ≠ "") :
    ∃ found : Row F, t.get? found.id = some found ∧
      found.idempotencyKey = row.idempotencyKey ∧
      selectJobByKey t order (nullText.decode row.idempotencyKey) = .ok (scanJob found) := by
  obtain ⟨key, hsome⟩ := Option.isSome_iff_exists.mp (isSome_of_decode_ne hkey)
  have hencode : nullText.encode (nullText.decode row.idempotencyKey) = some (some key) := by
    rw [nullText.encode_decode, hsome]
  have hexists : ((t.inOrder order).find? fun row => row.hasKey key).isSome := by
    rw [List.find?_isSome]
    exact ⟨row, (Enumerates.mem_inOrder horder).mpr hrow, beq_iff_eq.mpr hsome⟩
  obtain ⟨found, hfound⟩ := Option.isSome_iff_exists.mp hexists
  refine ⟨found, (mem_inOrder.mp (List.mem_of_find?_eq_some hfound)).2, ?_, ?_⟩
  · have hhas := List.find?_some hfound
    rw [hsome]
    exact beq_iff_eq.mp hhas
  · simp only [selectJobByKey, hencode, hfound]

theorem heldBy_of_insert {t : JobRows F} {job : Job} (hok : (insertJob t job).1 = .ok ()) :
    ∃ id, HeldBy (insertJob t job).2 job.idempotencyKey id := by
  rcases insertJob_cases t job with ⟨hfailed, -⟩ | ⟨row, hrow, hcases⟩
  · exact absurd hok hfailed
  have hdecode := nullText_decode_of_encode (encodeRow_spec hrow).2
  rcases hcases with ⟨htaken, hsame⟩ | ⟨-, -, hput⟩
  · obtain ⟨-, old, hold, hkey⟩ := keyTaken_iff.mp htaken
    rw [hsame]
    exact ⟨_, old, hold, hkey ▸ hdecode, rfl⟩
  · rw [hput]
    exact ⟨_, row, get?_put_self t row, hdecode, rfl⟩

theorem knows_step {s : State F} {phase : Phase} {q : Statement} {d : StatementDraw F}
    (hknows : Knows s phase) (hadmits : creating.Admits phase q)
    (hallowed : (statements F).Allowed s q d) :
    Knows ((statements F).step q s d).2
      (creating.after phase q ((statements F).step q s d).1) := by
  cases phase with
  | ready =>
      cases q with
      | insertJob job =>
          change Knows _ (creating.after .ready (.insertJob job)
            (attempted d s.rows (insertJob s.rows job)).1)
          cases hfault : d.fault with
          | some e => simp only [attempted, hfault, creating, Knows]
          | none =>
              have hstep : ((statements F).step (.insertJob job) s d).2.rows =
                  (insertJob s.rows job).2 := by
                simp only [statements, execute, attempted, hfault]
              simp only [attempted, hfault]
              cases hok : (insertJob s.rows job).1 with
              | error e => trivial
              | ok _ =>
                  obtain ⟨id, hheld⟩ := heldBy_of_insert hok
                  exact ⟨id, hstep ▸ hheld⟩
      | _ => trivial
  | present key =>
      cases q with
      | selectJobByKey key' =>
          obtain ⟨rfl, hne⟩ := hadmits
          obtain ⟨hfault, horder⟩ := hallowed
          obtain ⟨id, row, hrow, rfl, -⟩ := hknows
          obtain ⟨found, hfound, hkey, hselect⟩ := selectJobByKey_of_held horder hrow hne
          have hstep : (statements F).step (.selectJobByKey (nullText.decode row.idempotencyKey)) s
              d = (.ok (scanJob found), s) := by
            simp only [statements, execute, attempted, hfault, hselect]
          rw [hstep]
          exact ⟨found, hfound, congrArg nullText.decode hkey, rfl⟩
      | _ => exact hadmits.elim
  | found key id => exact hadmits.elim
  | impossible => exact hadmits.elim

structure Held (s : State F) : Prop where
  unique : UniqueKeys s.rows
  left : ∀ {key id}, (key, id) ∈ s.returned → key ≠ "" → HeldBy s.rows key id

theorem knows_of_keepsKeys {s s' : State F} {phase : Phase} (hkeeps : KeepsKeys s.rows s'.rows)
    (hknows : Knows s phase) : Knows s' phase := by
  cases phase with
  | ready => trivial
  | present key =>
      obtain ⟨id, hheld⟩ := hknows
      exact ⟨id, heldBy_of_keepsKeys hkeeps hheld⟩
  | found key id => exact heldBy_of_keepsKeys hkeeps hknows
  | impossible => exact hknows

theorem held_finish {s : State F} {phase : Phase} {task : StoreTask}
    {value : Except Err Unit × Option Job} (d : StatementDraw F) (hs : Held s)
    (hknows : Knows s phase) (hreturns : Returns task phase value) :
    Held ((system F).finish task value d s) ∧
      KeepsKeys s.rows ((system F).finish task value d s).rows := by
  cases task with
  | updateJobStateIf id u => exact ⟨hs, keepsKeys_refl _⟩
  | createJob job uuid now =>
      obtain ⟨_ | _, _ | left⟩ := value
      · exact ⟨hs, keepsKeys_refl _⟩
      · exact ⟨hs, keepsKeys_refl _⟩
      · exact ⟨hs, keepsKeys_refl _⟩
      · refine ⟨⟨hs.unique, fun {key id} hmem hne => ?_⟩, keepsKeys_refl _⟩
        rcases List.mem_cons.mp hmem with hnew | hold
        · obtain ⟨rfl, rfl⟩ := Prod.mk.inj hnew
          rcases hreturns rfl hne with rfl | rfl
          · exact hknows
          · exact hknows.elim
        · exact hs.left hold hne

def outline (F : Format) : Outline (system F) creating where
  Inv := Held
  Holds := fun phase s => Knows s phase
  Rely := fun s s' => KeepsKeys s.rows s'.rows
  Final := Returns
  stable := knows_of_keepsKeys
  start := by
    rintro p task _ hinv ⟨⟩
    exact ⟨hinv, keepsKeys_refl _, .ready, trivial, body_follows task⟩
  call := by
    intro s phase q d hinv hknows hadmits hallowed
    have heffect : Effect s.rows ((system F).machine.step q s d).2.rows :=
      execute_effect q s.rows d
    have hkeeps := effect_keepsKeys heffect
    refine ⟨⟨effect_uniqueKeys hinv.unique heffect, fun hmem hne => ?_⟩, hkeeps,
      knows_step hknows hadmits hallowed⟩
    exact heldBy_of_keepsKeys hkeeps (hinv.left hmem hne)
  finish := fun d hinv hknows hreturns => held_finish d hinv hknows hreturns

theorem keysHeld_of_held {s : State F} (hs : Held s) : KeysHeld (view F) s.rows s.returned where
  unique := by
    rintro _ _ ⟨row, hrow, rfl⟩ ⟨row', hrow', rfl⟩ hne hsame
    have hkey := nullText_decode_inj hsame
    rw [hs.unique row row' hrow hrow' (isSome_of_decode_ne hne) hkey]
  found := by
    rintro _ _ ⟨row, hrow, rfl⟩ hne ⟨order, horder, rfl⟩
    obtain ⟨found, hfound, hkey, hselect⟩ := selectJobByKey_of_held horder hrow hne
    rw [hs.unique row found hrow hfound (isSome_of_decode_ne hne) hkey] at hselect
    exact hselect
  absent := by
    rintro key job ⟨order, horder, hselect⟩
    unfold selectJobByKey at hselect
    split at hselect
    · cases hselect
    · cases hselect
    · rename_i v hencode
      split at hselect
      · cases hselect
      · rename_i row hfind
        cases hselect
        refine ⟨⟨row, (mem_inOrder.mp (List.mem_of_find?_eq_some hfind)).2, rfl⟩, ?_⟩
        have hhas := List.find?_some hfind
        rw [← nullText_decode_of_encode hencode, ← beq_iff_eq.mp hhas]
        rfl
  left := by
    intro key id hmem hne
    obtain ⟨row, hrow, hkey, hid⟩ := hs.left hmem hne
    exact ⟨scanJob row, ⟨row, hrow, rfl⟩, hkey, hid⟩

theorem insertJob_adds {t : JobRows F} {job : Job} (hkey : job.idempotencyKey = "")
    (hok : (insertJob t job).1 = .ok ()) :
    ∃ new, AddsJob (view F) t (insertJob t job).2 new ∧
      F.uuid.encode new.id = F.uuid.encode job.id := by
  rcases insertJob_cases t job with ⟨hfailed, -⟩ | ⟨row, hrow, hcases⟩
  · exact absurd hok hfailed
  obtain ⟨hid, hencode⟩ := encodeRow_spec hrow
  rw [hkey] at hencode
  have hnull : row.idempotencyKey = none := (Option.some.inj hencode).symm
  rcases hcases with ⟨htaken, -⟩ | ⟨-, habsent, hput⟩
  · rw [hnull] at htaken
    exact htaken.elim
  refine ⟨scanJob row, ⟨?_, ?_⟩, (F.uuid.encode_decode row.id).trans hid.symm⟩
  · rintro _ ⟨old, hold, rfl⟩ hsame
    have hencoded := congrArg F.uuid.encode hsame
    rw [scanJob, scanJob, F.uuid.encode_decode, F.uuid.encode_decode] at hencoded
    rw [Option.some.inj hencoded, habsent] at hold
    exact absurd hold.symm (Option.some_ne_none old)
  · intro job
    rw [hput]
    constructor
    · rintro ⟨stored, hstored, rfl⟩
      rcases (get?_put_iff_of_absent habsent stored).mp hstored with hold | rfl
      · exact Or.inl ⟨stored, hold, rfl⟩
      · exact Or.inr rfl
    · rintro (⟨stored, hstored, rfl⟩ | rfl)
      · exact ⟨stored, (get?_put_iff_of_absent habsent stored).mpr (Or.inl hstored), rfl⟩
      · exact ⟨row, get?_put_self t row, rfl⟩

/-- A call without a key is its insert. -/
theorem createJob_adds {job left : Job} {uuid : String} {now : Time} {s s' : State F}
    {ds : List (StatementDraw F)} (hkey : job.idempotencyKey = "")
    (hrun : (statements F).Runs (createJob job uuid now) s ds (.ok (), left) s') :
    ∃ new, AddsJob (view F) s.rows s'.rows new ∧
      F.uuid.encode new.id = F.uuid.encode left.id := by
  obtain ⟨d, rest, -, -, hrest⟩ := runs_perform_iff.mp hrun
  cases hanswer : ((statements F).step (.insertJob (stampJob job uuid now)) s d).1 with
  | error e =>
      simp only [hanswer, runs_ret_iff] at hrest
      exact absurd (congrArg Prod.fst hrest.2.1) (by simp)
  | ok _ =>
      have hstamped : (stampJob job uuid now).idempotencyKey = "" := hkey
      simp only [hanswer, hstamped, if_true, runs_ret_iff, Prod.mk.injEq] at hrest
      obtain ⟨-, ⟨-, rfl⟩, rfl⟩ := hrest
      have hinsert : d.fault = none ∧ (insertJob s.rows (stampJob job uuid now)).1 = .ok () := by
        simp only [statements, execute, attempted] at hanswer
        split at hanswer
        · exact ⟨‹_›, hanswer⟩
        · cases hanswer
      obtain ⟨hfault, hok⟩ := hinsert
      have hrows : ((statements F).step (.insertJob (stampJob job uuid now)) s d).2.rows =
          (insertJob s.rows (stampJob job uuid now)).2 := by
        simp only [statements, execute, attempted, hfault]
      rw [hrows]
      exact insertJob_adds hstamped hok

end Postgres

end Chronos.OneJobPerKey
