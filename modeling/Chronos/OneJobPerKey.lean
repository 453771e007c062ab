import Chronos.Library.RelyGuarantee
import Chronos.PostgresStore

namespace Chronos.OneJobPerKey

open Chronos.Domain
open Chronos.Library.CallMachine
open Chronos.Library.Interleaving
open Chronos.Library.KeyedTable

/-- What a store shows of its jobs: the stored ones, and the results that
`GetJobByIdempotencyKey` can have. -/
structure KeyView (σ : Type) where
  Stored : σ → Job → Prop
  Lookup : σ → String → Except Err Job → Prop

/-- At most one job for each key, found by its key and known to every caller of
`CreateJob`; `returned` lists the keys of the calls that returned nil, each with the
id that the caller was left with. -/
structure KeysHeld {σ : Type} (V : KeyView σ) (s : σ) (returned : List (String × String)) :
    Prop where
  unique : ∀ {job job'}, V.Stored s job → V.Stored s job' → job.idempotencyKey ≠ "" →
    job'.idempotencyKey = job.idempotencyKey → job' = job
  found : ∀ {job result}, V.Stored s job → job.idempotencyKey ≠ "" →
    V.Lookup s job.idempotencyKey result → result = .ok job
  absent : ∀ {key job}, V.Lookup s key (.ok job) → V.Stored s job ∧ job.idempotencyKey = key
  left : ∀ {key id}, (key, id) ∈ returned → key ≠ "" →
    ∃ job, V.Stored s job ∧ job.idempotencyKey = key ∧ job.id = id

/-- The store gains one job. -/
structure AddsJob {σ : Type} (V : KeyView σ) (s s' : σ) (new : Job) : Prop where
  fresh : ∀ job, V.Stored s job → job.id ≠ new.id
  added : ∀ job, V.Stored s' job ↔ V.Stored s job ∨ job = new

namespace Postgres

open Chronos.PostgresStore

variable {F : Format}

def view (F : Format) : KeyView (JobRows F) where
  Stored := fun t job => ∃ row : Row F, t.get? row.id = some row ∧ scanJob row = job
  Lookup := fun t key result => ∃ order, t.Enumerates order ∧ result = selectJobByKey t order key

structure State (F : Format) where
  rows : JobRows F := Table.empty
  returned : List (String × String) := []

inductive StoreTask
  | createJob (job : Job) (uuid : String) (now : Time)
  | updateJobStateIf (id : String) (u : Update)

/-- A statement can fail, except the lookup. -/
def statements (F : Format) : Machine Statement StatementAnswer (State F) (StatementDraw F) where
  step := fun q s d => ((execute q s.rows d).1, { s with rows := (execute q s.rows d).2 })
  Allowed := fun s q d =>
    match q with
    | .selectJobByKey _ => d.fault = none ∧ s.rows.Enumerates d.order
    | _ => True

instance (s : State F) (q : Statement) (d : StatementDraw F) :
    Decidable ((statements F).Allowed s q d) :=
  match q with
  | .selectJobByKey _ => inferInstanceAs (Decidable (d.fault = none ∧ s.rows.Enumerates d.order))
  | .selectJob _ => inferInstanceAs (Decidable True)
  | .insertJob _ => inferInstanceAs (Decidable True)
  | .updateJob _ => inferInstanceAs (Decidable True)

def system (F : Format) :
    System Statement StatementAnswer (State F) (StatementDraw F) StoreTask
      (Except Err Unit × Option Job) where
  machine := statements F
  body
    | .createJob job uuid now => do
        let r ← createJob job uuid now
        return (r.1, some r.2)
    | .updateJobStateIf id u => do return (← updateJobStateIf id u, none)
  start := fun p _ => some p.state
  finish
    | .createJob job _ _, (.ok _, some left), _, s =>
        { s with returned := (job.idempotencyKey, left.id) :: s.returned }
    | _, _, _, s => s

instance (s : State F) (q : Statement) (d : StatementDraw F) :
    Decidable ((system F).machine.Allowed s q d) :=
  inferInstanceAs (Decidable ((statements F).Allowed s q d))

/-- The job under the key has the id. -/
def HeldBy (t : JobRows F) (key id : String) : Prop :=
  ∃ row : Row F, t.get? row.id = some row ∧ nullText.decode row.idempotencyKey = key ∧
    F.uuid.decode row.id = id

def UniqueKeys (t : JobRows F) : Prop :=
  ∀ row row' : Row F, t.get? row.id = some row → t.get? row'.id = some row' →
    row.idempotencyKey.isSome → row'.idempotencyKey = row.idempotencyKey → row' = row

/-- Jobs stay, and keep their keys. -/
def KeepsKeys (t t' : JobRows F) : Prop :=
  ∀ row : Row F, t.get? row.id = some row →
    ∃ row', t'.get? row.id = some row' ∧ row'.idempotencyKey = row.idempotencyKey

theorem keepsKeys_refl (t : JobRows F) : KeepsKeys t t :=
  fun row hrow => ⟨row, hrow, rfl⟩

theorem heldBy_of_keepsKeys {t t' : JobRows F} {key id : String} (hkeeps : KeepsKeys t t')
    (hheld : HeldBy t key id) : HeldBy t' key id := by
  obtain ⟨row, hrow, hkey, hid⟩ := hheld
  obtain ⟨row', hrow', hkey'⟩ := hkeeps row hrow
  have hsame := key_of_get? hrow'
  exact ⟨row', hsame ▸ hrow', hkey' ▸ hkey, hsame ▸ hid⟩

theorem nullText_decode_of_encode {s : String} {v : Option NonemptyText}
    (hencode : nullText.encode s = some v) : nullText.decode v = s := by
  simp only [nullText, nullStr, guardedColumn] at hencode ⊢
  split at hencode
  · rename_i hs
    obtain rfl := Option.some.inj hencode
    exact hs.symm
  · split at hencode
    · obtain rfl := Option.some.inj hencode
      rfl
    · exact absurd hencode.symm (Option.some_ne_none v)

theorem nullText_decode_inj {v v' : Option NonemptyText}
    (hdecode : nullText.decode v = nullText.decode v') : v = v' := by
  have hencode := congrArg nullText.encode hdecode
  rw [nullText.encode_decode, nullText.encode_decode] at hencode
  exact Option.some.inj hencode

theorem isSome_of_decode_ne {v : Option NonemptyText} (hne : nullText.decode v ≠ "") :
    v.isSome := by
  cases v with
  | none => exact absurd rfl hne
  | some v => rfl

theorem encodeRow_spec {job : Job} {row : Row F} (hrow : encodeRow F job = some row) :
    F.uuid.encode job.id = some row.id ∧
      nullText.encode job.idempotencyKey = some row.idempotencyKey := by
  obtain ⟨id, hid, hrow⟩ := Option.bind_eq_some_iff.mp hrow
  iterate 4 obtain ⟨_, -, hrow⟩ := Option.bind_eq_some_iff.mp hrow
  obtain ⟨key, hkey, hrow⟩ := Option.bind_eq_some_iff.mp hrow
  iterate 5 obtain ⟨_, -, hrow⟩ := Option.bind_eq_some_iff.mp hrow
  obtain rfl := Option.some.inj hrow
  exact ⟨hid, hkey⟩

theorem keyTaken_iff {t : JobRows F} {key : Option NonemptyText} :
    keyTaken t key ↔
      key.isSome ∧ ∃ row : Row F, t.get? row.id = some row ∧ row.idempotencyKey = key := by
  cases key with
  | none => simp [keyTaken]
  | some key =>
      simp only [keyTaken, Option.isSome_some, true_and, Option.any_eq_true]
      constructor
      · rintro ⟨id, -, row, hrow, hkey⟩
        obtain rfl := key_of_get? hrow
        exact ⟨row, hrow, beq_iff_eq.mp hkey⟩
      · rintro ⟨row, hrow, hkey⟩
        exact ⟨row.id, mem_keys.mpr ⟨row, hrow⟩, row, hrow, beq_iff_eq.mpr hkey⟩

theorem attempted_rows {α : Type} (t : JobRows F) (d : StatementDraw F)
    (r : Except Err α × JobRows F) :
    (attempted d t r).2 = t ∨ (attempted d t r).2 = r.2 := by
  unfold attempted
  split
  · exact Or.inr rfl
  · dsimp only
    split
    · exact Or.inr rfl
    · exact Or.inl rfl

/-- What a statement can do to the table: nothing, add a row, or set the columns of a
stored row. -/
inductive Effect (t : JobRows F) : JobRows F → Prop
  | same : Effect t t
  | inserted {row : Row F} (hkey : ¬ keyTaken t row.idempotencyKey)
      (habsent : t.get? row.id = none) : Effect t (t.put row)
  | updated {row : Row F} (hrow : t.get? row.id = some row) (columns : JobColumns F) :
      Effect t (t.put (row.withColumns columns))

/-- An insert fails and leaves the table as it is, finds its key in the table, or adds its
row. -/
theorem insertJob_cases (t : JobRows F) (job : Job) :
    ((insertJob t job).1 ≠ .ok () ∧ (insertJob t job).2 = t) ∨
      ∃ row, encodeRow F job = some row ∧
        (keyTaken t row.idempotencyKey ∧ (insertJob t job).2 = t ∨
          ¬keyTaken t row.idempotencyKey ∧ t.get? row.id = none ∧
            (insertJob t job).2 = t.put row) := by
  unfold insertJob
  split
  · exact Or.inl ⟨nofun, rfl⟩
  · rename_i row hrow
    split
    · rename_i htaken
      exact Or.inr ⟨row, hrow, Or.inl ⟨htaken, rfl⟩⟩
    · rename_i hfree
      split
      · exact Or.inl ⟨nofun, rfl⟩
      · rename_i habsent
        rw [Option.not_isSome_iff_eq_none] at habsent
        exact Or.inr ⟨row, hrow, Or.inr ⟨hfree, habsent, rfl⟩⟩

theorem insertJob_effect (t : JobRows F) (job : Job) : Effect t (insertJob t job).2 := by
  rcases insertJob_cases t job with ⟨-, hsame⟩ | ⟨row, -, ⟨-, hsame⟩ | ⟨hfree, habsent, hput⟩⟩
  · rw [hsame]
    exact .same
  · rw [hsame]
    exact .same
  · rw [hput]
    exact .inserted hfree habsent

theorem updateJob_effect (t : JobRows F) (job : Job) : Effect t (updateJob t job).2 := by
  unfold updateJob
  split
  · split
    · exact .same
    · rename_i row hrow
      obtain rfl := key_of_get? hrow
      exact .updated hrow _
  · exact .same

theorem execute_effect (q : Statement) (t : JobRows F) (d : StatementDraw F) :
    Effect t (execute q t d).2 := by
  have hfrom : ∀ {α : Type} (r : Except Err α × JobRows F), Effect t r.2 →
      Effect t (attempted d t r).2 := by
    intro α r heffect
    rcases attempted_rows t d r with hsame | hdone
    · rw [hsame]
      exact .same
    · rw [hdone]
      exact heffect
  cases q with
  | selectJob id => exact hfrom _ .same
  | selectJobByKey key => exact hfrom _ .same
  | insertJob job => exact hfrom _ (insertJob_effect t job)
  | updateJob job => exact hfrom _ (updateJob_effect t job)

theorem effect_keepsKeys {t t' : JobRows F} (heffect : Effect t t') : KeepsKeys t t' := by
  cases heffect with
  | same => exact keepsKeys_refl t
  | @inserted new hkey habsent =>
      intro row hrow
      refine ⟨row, ?_, rfl⟩
      rw [get?_put_of_ne]
      · exact hrow
      · rintro hid
        rw [hid, habsent] at hrow
        exact absurd hrow.symm (Option.some_ne_none row)
  | @updated old hold columns =>
      intro row hrow
      rw [get?_put]
      split
      · rename_i hid
        have hid : row.id = old.id := hid
        rw [hid, hold] at hrow
        obtain rfl := Option.some.inj hrow
        exact ⟨_, rfl, rfl⟩
      · exact ⟨row, hrow, rfl⟩

theorem uniqueKeys_put {t : JobRows F} {new : Row F} (ht : UniqueKeys t)
    (hnew : ∀ row : Row F, t.get? row.id = some row → row.id ≠ new.id →
      new.idempotencyKey.isSome → row.idempotencyKey ≠ new.idempotencyKey) :
    UniqueKeys (t.put new) := by
  have hcases : ∀ row : Row F, (t.put new).get? row.id = some row →
      row = new ∨ row.id ≠ new.id ∧ t.get? row.id = some row := by
    intro row hrow
    rw [get?_put] at hrow
    split at hrow
    · exact Or.inl (Option.some.inj hrow).symm
    · exact Or.inr ⟨‹_›, hrow⟩
  intro row row' hrow hrow' hsome hsame
  rcases hcases row hrow with rfl | ⟨hne, hold⟩ <;>
    rcases hcases row' hrow' with rfl | ⟨hne', hold'⟩
  · rfl
  · exact absurd hsame (hnew row' hold' hne' hsome)
  · exact absurd hsame.symm (hnew row hold hne (hsame ▸ hsome))
  · exact ht row row' hold hold' hsome hsame

theorem effect_uniqueKeys {t t' : JobRows F} (ht : UniqueKeys t) (heffect : Effect t t') :
    UniqueKeys t' := by
  cases heffect with
  | same => exact ht
  | @inserted new hkey habsent =>
      refine uniqueKeys_put ht fun row hrow _ hsome hsame => hkey ?_
      exact keyTaken_iff.mpr ⟨hsome, row, hrow, hsame⟩
  | @updated old hold columns =>
      refine uniqueKeys_put ht fun row hrow hne hsome hsame => hne ?_
      rw [ht old row hold hrow hsome hsame]
      rfl

end Postgres

end Chronos.OneJobPerKey
