import Chronos.Library.Interleaving
import Chronos.PostgresStore

namespace Chronos.ConditionalUpdate

open Chronos.Domain
open Chronos.Library.CallProgram
open Chronos.Library.CallMachine
open Chronos.Library.Interleaving
open Chronos.Library.KeyedTable
open Chronos.PostgresStore

variable {F : Format}

/-- Statements do not fail from outside. -/
def reliable (F : Format) : Machine Statement StatementAnswer (JobRows F) (StatementDraw F) where
  step := execute
  Allowed := fun _ _ d => d.fault = none

instance (t : JobRows F) (q : Statement) (d : StatementDraw F) :
    Decidable ((reliable F).Allowed t q d) :=
  inferInstanceAs (Decidable (d.fault = none))

/-- The row after the call, when nothing comes between its two statements. -/
def updatedRow (u : Update) (row : Row F) : Row F :=
  if u.admits row.state then
    match encodeFields F u.fields with
    | none => row
    | some f => row.withColumns (f.apply u row.toJobColumns)
  else row

theorem updatedRow_id (u : Update) (row : Row F) : (updatedRow u row).id = row.id := by
  unfold updatedRow
  split
  · split <;> rfl
  · rfl

/-- The table after the call alone. -/
def updated (id : String) (u : Update) (t : JobRows F) : JobRows F :=
  match F.uuid.encode id with
  | none => t
  | some key =>
      match t.get? key with
      | none => t
      | some row => t.put (updatedRow u row)

theorem put_of_get? {t : JobRows F} {key : F.UUID} {row : Row F}
    (hrow : t.get? key = some row) : t.put row = t := by
  apply table_ext
  intro k
  rw [get?_put]
  split
  · rename_i hk
    obtain rfl := key_of_get? hrow
    rw [hk, hrow]
  · rfl

/-- The call after its read. -/
def afterRead (u : Update) : Except Err Job → Sql (Except Err Unit)
  | .error e => .ret (.error e)
  | .ok job =>
      if u.onlyFrom ≠ [] ∧ job.state ∉ u.onlyFrom then .ret (.ok ())
      else ask (.updateJob (applyFields job u))

theorem updateJobStateIf_eq (id : String) (u : Update) :
    updateJobStateIf id u = .call (.selectJob id) (afterRead u) := rfl

/-- The call reads the row and goes on to write it. -/
structure Pending (id : String) (u : Update) (t : JobRows F) (key : F.UUID) (row : Row F) :
    Prop where
  encoded : F.uuid.encode id = some key
  stored : t.get? key = some row
  admitted : u.admits row.state

section Single

variable {id : String} {u : Update} {t : JobRows F} {key : F.UUID} {row : Row F}
  {d : StatementDraw F}

theorem step_select (hd : d.fault = none) :
    (reliable F).step (.selectJob id) t d = (selectJob t id, t) := by
  simp [reliable, execute, attempted, hd]

theorem step_update (job : Job) (hd : d.fault = none) :
    (reliable F).step (.updateJob job) t d = updateJob t job := by
  simp [reliable, execute, attempted, hd]

theorem admits_iff (u : Update) (state : JobState) :
    u.admits state ↔ ¬ (u.onlyFrom ≠ [] ∧ state ∉ u.onlyFrom) := by
  unfold Update.admits
  tauto

theorem afterRead_pending (hpending : Pending id u t key row) :
    afterRead u (selectJob t id) = .call (.updateJob (applyFields (scanJob row) u)) .ret := by
  simp only [selectJob, hpending.encoded, hpending.stored, afterRead]
  exact if_neg ((admits_iff u _).mp hpending.admitted)

theorem pending_or_skips (id : String) (u : Update) (t : JobRows F) :
    (∃ key row, Pending id u t key row) ∨
      (∃ value, afterRead u (selectJob t id) = .ret value) ∧ updated id u t = t := by
  cases hkey : F.uuid.encode id with
  | none => exact Or.inr ⟨⟨.error invalidValue, by simp [selectJob, hkey, afterRead]⟩,
      by simp [updated, hkey]⟩
  | some key =>
      cases hrow : t.get? key with
      | none => exact Or.inr ⟨⟨.error .notFound, by simp [selectJob, hkey, hrow, afterRead]⟩,
          by simp [updated, hkey, hrow]⟩
      | some row =>
          by_cases hadmits : u.admits row.state
          · exact Or.inl ⟨key, row, hkey, hrow, hadmits⟩
          · refine Or.inr ⟨⟨.ok (), ?_⟩, ?_⟩
            · simp only [selectJob, hkey, hrow, afterRead]
              rw [admits_iff, not_not] at hadmits
              exact if_pos hadmits
            · simp only [updated, hkey, hrow, updatedRow, if_neg hadmits]
              exact put_of_get? hrow

/-- The write of a call that read `row`, on a table where the row may have changed
since. -/
theorem updateJob_applyFields {now : Row F} (hnow : t.get? row.id = some now) (u : Update) :
    updateJob t (applyFields (scanJob row) u) =
      match encodeFields F u.fields with
      | none => (.error invalidValue, t)
      | some f => (.ok (), t.put (now.withColumns (f.apply u row.toJobColumns))) := by
  have hid : F.uuid.encode (applyFields (scanJob row) u).id = some row.id :=
    F.uuid.encode_decode row.id
  simp only [updateJob, hid, encodeColumns_applyFields]
  cases encodeFields F u.fields with
  | none => rfl
  | some f => simp only [Option.map_some, hnow]

theorem updateJob_pending (hpending : Pending id u t key row) :
    (updateJob t (applyFields (scanJob row) u)).2 = updated id u t := by
  obtain ⟨hkey, hrow, hadmits⟩ := hpending
  obtain rfl := key_of_get? hrow
  rw [updateJob_applyFields hrow]
  simp only [updated, hkey, hrow, updatedRow, if_pos hadmits]
  split
  · exact (put_of_get? hrow).symm
  · rfl

theorem runs_updateJobStateIf_iff {t' : JobRows F} :
    (∃ ds value, (reliable F).Runs (updateJobStateIf id u) t ds value t') ↔
      t' = updated id u t := by
  simp only [updateJobStateIf_eq, runs_call_iff]
  rcases pending_or_skips id u t with ⟨key, row, hpending⟩ | ⟨⟨value, hvalue⟩, hskip⟩
  · constructor
    · rintro ⟨_, value, d, ds, -, hd, hrest⟩
      rw [step_select hd, afterRead_pending hpending, runs_call_iff] at hrest
      obtain ⟨d', ds', -, hd', hret⟩ := hrest
      rw [step_update _ hd', runs_ret_iff] at hret
      rw [hret.2.2, updateJob_pending hpending]
    · rintro rfl
      refine ⟨[{}, {}], (updateJob t (applyFields (scanJob row) u)).1, {}, [{}], rfl, rfl, ?_⟩
      rw [step_select rfl, afterRead_pending hpending, runs_call_iff]
      refine ⟨{}, [], rfl, rfl, ?_⟩
      rw [step_update _ rfl, updateJob_pending hpending]
      exact .ret _ _
  · rw [hskip]
    constructor
    · rintro ⟨_, _, d, ds, -, hd, hrest⟩
      rw [step_select hd, hvalue, runs_ret_iff] at hrest
      exact hrest.2.2
    · rintro rfl
      refine ⟨_, value, {}, [], rfl, rfl, ?_⟩
      rw [step_select rfl, hvalue]
      exact .ret _ _

end Single

/-- A write that goes through finds the row in a state that its guard admits. -/
def GuardHeld (id : String) (u : Bool → Update) (programs : Bool → Sql (Except Err Unit))
    (t : JobRows F) (i : Bool) (_ : StatementDraw F) : Prop :=
  ∀ job next key row, programs i = .call (.updateJob job) next →
    (updateJob t job).1 = .ok () → F.uuid.encode id = some key → t.get? key = some row →
    (u i).admits row.state

/-- The table is one that the two calls leave when they run one after the other. -/
def Serialises (id : String) (u : Bool → Update) (t t' : JobRows F) : Prop :=
  ∃ i ds value middle ds' value',
    (reliable F).Runs (updateJobStateIf id (u i)) t ds value middle ∧
      (reliable F).Runs (updateJobStateIf id (u (!i))) middle ds' value' t'

/-- Both calls have read the same row before either writes it; `x` writes first. -/
structure Overlap (id : String) (u : Bool → Update) (t : JobRows F)
    (schedule : List (Bool × StatementDraw F)) (x : Bool) (row : Row F) : Prop where
  order : ∃ w rest, schedule.map Prod.fst = w :: (!w) :: x :: rest
  pending : ∀ i, Pending id (u i) t row.id row

section Pair

variable {id : String} {u : Bool → Update} {v : Update} {t t' : JobRows F} {key : F.UUID}
  {row : Row F} {schedule : List (Bool × StatementDraw F)}
  {programs programs' : Bool → Sql (Except Err Unit)}

theorem serialises_iff :
    Serialises id u t t' ↔ ∃ i, t' = updated id (u (!i)) (updated id (u i) t) := by
  constructor
  · rintro ⟨i, ds, value, middle, ds', value', hfirst, hsecond⟩
    refine ⟨i, ?_⟩
    rw [← runs_updateJobStateIf_iff.mp ⟨ds, value, hfirst⟩]
    exact runs_updateJobStateIf_iff.mp ⟨ds', value', hsecond⟩
  · rintro ⟨i, rfl⟩
    obtain ⟨ds, value, hfirst⟩ := runs_updateJobStateIf_iff.mpr (Eq.refl (updated id (u i) t))
    obtain ⟨ds', value', hsecond⟩ := runs_updateJobStateIf_iff.mpr
      (Eq.refl (updated id (u (!i)) (updated id (u i) t)))
    exact ⟨i, ds, value, _, ds', value', hfirst, hsecond⟩

theorem guardHeld_select {i : Bool} {d : StatementDraw F}
    {next : Except Err Job → Sql (Except Err Unit)}
    (hcall : programs i = .call (.selectJob id) next) : GuardHeld id u programs t i d := by
  intro job next' key row hupdate
  rw [hcall] at hupdate
  cases hupdate

theorem guardHeld_pending {i : Bool} {d : StatementDraw F} (hpending : Pending id (u i) t key row) :
    GuardHeld id u programs t i d := by
  intro job next key' row' _ _ hkey hrow
  obtain rfl := Option.some.inj (hpending.encoded.symm.trans hkey)
  obtain rfl := Option.some.inj (hpending.stored.symm.trans hrow)
  exact hpending.admitted

theorem throughout_returned (P : (Bool → Sql (Except Err Unit)) → JobRows F → Bool →
      StatementDraw F → Prop)
    (hreturned : ∀ i, ∃ value, programs i = .ret value)
    (hrun : interleave (reliable F) programs t schedule = some (programs', t')) :
    Throughout (reliable F) P programs t schedule := by
  cases schedule with
  | nil => trivial
  | cons move schedule =>
      obtain ⟨c, next, hcall, -⟩ := interleave_cons hrun
      obtain ⟨value, hvalue⟩ := hreturned move.1
      rw [hcall] at hvalue
      cases hvalue

theorem exists_move {i : Bool} {c : Statement}
    {next : StatementAnswer c → Sql (Except Err Unit)} (hcall : programs i = .call c next)
    (hrun : interleave (reliable F) programs t schedule = some (programs', t'))
    (hdone : ∃ value, programs' i = .ret value) :
    ∃ move rest, schedule = move :: rest := by
  cases schedule with
  | cons move rest => exact ⟨move, rest, rfl⟩
  | nil =>
      obtain ⟨rfl, rfl⟩ := Prod.mk.inj (Option.some.inj hrun)
      obtain ⟨value, hvalue⟩ := hdone
      rw [hcall] at hvalue
      cases hvalue

theorem update_other (programs : Bool → Sql (Except Err Unit)) (w : Bool)
    (program : Sql (Except Err Unit)) :
    Function.update programs w program (!w) = programs (!w) :=
  Function.update_of_ne (Bool.not_ne_self w) ..

/-- One call is left, right before its write. -/
theorem throughout_write_iff {i : Bool} (hother : ∃ value, programs (!i) = .ret value)
    {job : Job} (hcall : programs i = .call (.updateJob job) .ret)
    (hrun : interleave (reliable F) programs t schedule = some (programs', t'))
    (hdone : ∃ value, programs' i = .ret value) :
    Throughout (reliable F) (GuardHeld id u) programs t schedule ↔
      GuardHeld id u programs t i {} := by
  obtain ⟨⟨j, d⟩, schedule, rfl⟩ := exists_move hcall hrun hdone
  obtain ⟨c, next, hnext, hd, hrest⟩ := interleave_cons hrun
  obtain rfl : j = i := by
    by_contra hj
    obtain ⟨value, hvalue⟩ := hother
    rw [← Bool.eq_not.mpr hj, hnext] at hvalue
    cases hvalue
  rw [throughout_call hcall]
  refine and_iff_left ?_
  rw [hcall] at hnext
  cases hnext
  refine throughout_returned _ (fun k => ?_) hrest
  by_cases hk : k = j
  · subst hk
    exact ⟨_, Function.update_self ..⟩
  · rw [Function.update_of_ne hk, Bool.eq_not.mpr hk]
    exact hother

theorem read_move {i : Bool} {d : StatementDraw F}
    {result : (Bool → Sql (Except Err Unit)) × JobRows F}
    (hcall : programs i = updateJobStateIf id (u i))
    (hrun : interleave (reliable F) programs t ((i, d) :: schedule) = some result) :
    interleave (reliable F) (Function.update programs i (afterRead (u i) (selectJob t id))) t
        schedule = some result ∧
      (Throughout (reliable F) (GuardHeld id u) programs t ((i, d) :: schedule) ↔
        Throughout (reliable F) (GuardHeld id u)
          (Function.update programs i (afterRead (u i) (selectJob t id))) t schedule) := by
  rw [updateJobStateIf_eq] at hcall
  obtain ⟨c, next, hnext, hd, hrest⟩ := interleave_cons hrun
  rw [hcall] at hnext
  cases hnext
  rw [throughout_call hcall]
  rw [step_select hd] at hrest ⊢
  exact ⟨hrest, and_iff_right (guardHeld_select hcall)⟩

variable (id) in
theorem write_move {i : Bool} {d : StatementDraw F} {job : Job}
    {result : (Bool → Sql (Except Err Unit)) × JobRows F}
    (hcall : programs i = .call (.updateJob job) .ret)
    (hrun : interleave (reliable F) programs t ((i, d) :: schedule) = some result) :
    interleave (reliable F) (Function.update programs i (.ret (updateJob t job).1))
        (updateJob t job).2 schedule = some result ∧
      (Throughout (reliable F) (GuardHeld id u) programs t ((i, d) :: schedule) ↔
        GuardHeld id u programs t i d ∧ Throughout (reliable F) (GuardHeld id u)
          (Function.update programs i (.ret (updateJob t job).1)) (updateJob t job).2
          schedule) := by
  obtain ⟨c, next, hnext, hd, hrest⟩ := interleave_cons hrun
  rw [hcall] at hnext
  cases hnext
  rw [throughout_call hcall]
  rw [step_update _ hd] at hrest ⊢
  exact ⟨hrest, Iff.rfl⟩

theorem others_returned {i : Bool} (hother : ∃ value, programs (!i) = .ret value) :
    ∀ j, j ≠ i → ∃ value, programs j = .ret value := by
  intro j hj
  rwa [Bool.eq_not.mpr hj]

theorem write_result {i : Bool} {job : Job} (hother : ∃ value, programs (!i) = .ret value)
    (hcall : programs i = .call (.updateJob job) .ret)
    (hrun : interleave (reliable F) programs t schedule = some (programs', t'))
    (hdone : ∃ value, programs' i = .ret value) : t' = (updateJob t job).2 := by
  obtain ⟨ds, value, hruns⟩ := runs_of_interleave hrun (others_returned hother) hdone
  rw [hcall, runs_call_iff] at hruns
  obtain ⟨d, rest, -, hd, hret⟩ := hruns
  rw [step_update _ hd, runs_ret_iff] at hret
  exact hret.2.2

/-- One call is left, from its beginning. -/
theorem alone_result {i : Bool} (hother : ∃ value, programs (!i) = .ret value)
    (hcall : programs i = updateJobStateIf id (u i))
    (hrun : interleave (reliable F) programs t schedule = some (programs', t'))
    (hdone : ∃ value, programs' i = .ret value) :
    t' = updated id (u i) t ∧
      Throughout (reliable F) (GuardHeld id u) programs t schedule := by
  constructor
  · obtain ⟨ds, value, hruns⟩ := runs_of_interleave hrun (others_returned hother) hdone
    rw [hcall] at hruns
    exact runs_updateJobStateIf_iff.mp ⟨ds, value, hruns⟩
  · obtain ⟨⟨j, d⟩, schedule, rfl⟩ := exists_move (hcall.trans (updateJobStateIf_eq ..)) hrun hdone
    obtain ⟨c, next, hnext, -⟩ := interleave_cons hrun
    obtain rfl : j = i := by
      by_contra hj
      obtain ⟨value, hvalue⟩ := hother
      rw [← Bool.eq_not.mpr hj, hnext] at hvalue
      cases hvalue
    obtain ⟨hrun, hguard⟩ := read_move hcall hrun
    rw [hguard]
    have hother' : ∃ value, Function.update programs j (afterRead (u j) (selectJob t id)) (!j) =
        .ret value := by
      rw [update_other]
      exact hother
    rcases pending_or_skips id (u j) t with ⟨key, row, hpending⟩ | ⟨⟨value, hvalue⟩, -⟩
    · have hwrite := Function.update_self j (afterRead (u j) (selectJob t id)) programs
      rw [afterRead_pending hpending] at hwrite hother' hrun ⊢
      exact (throughout_write_iff hother' hwrite hrun hdone).mpr (guardHeld_pending hpending)
    · refine throughout_returned _ (fun k => ?_) hrun
      rcases Bool.eq_or_eq_not k j with rfl | rfl
      · exact ⟨value, (Function.update_self ..).trans hvalue⟩
      · exact hother'

theorem pending_row {v v' : Update} {key' : F.UUID} {row' : Row F}
    (hpending : Pending id v t key row) (hpending' : Pending id v' t key' row') :
    row' = row := by
  obtain rfl := Option.some.inj (hpending.encoded.symm.trans hpending'.encoded)
  exact Option.some.inj (hpending'.stored.symm.trans hpending.stored)

theorem update_returned (programs : Bool → Sql (Except Err Unit)) (w : Bool)
    (value : Except Err Unit) :
    ∃ result, Function.update programs w (.ret value) (!(!w)) = .ret result := by
  rw [Bool.not_not, Function.update_self]
  exact ⟨value, rfl⟩

/-- Both calls have read, and have their writes still to make. -/
def bothRead (u : Bool → Update) (row : Row F) : Bool → Sql (Except Err Unit) :=
  fun i => .call (.updateJob (applyFields (scanJob row) (u i))) .ret

variable (u row) in
theorem update_bothRead (w : Bool) (programs : Bool → Sql (Except Err Unit)) :
    Function.update (Function.update programs w (bothRead u row w)) (!w) (bothRead u row (!w)) =
      bothRead u row := by
  funext i
  rcases Bool.eq_or_eq_not i w with rfl | rfl
  · rw [Function.update_of_ne (Bool.not_ne_self i).symm, Function.update_self]
  · rw [Function.update_self]

/-- Without an overlap the calls run one after the other. -/
theorem serial_of_no_overlap
    (hrun : interleave (reliable F) (fun i => updateJobStateIf id (u i)) t schedule =
      some (programs', t'))
    (hdone : ∀ i, ∃ value, programs' i = .ret value)
    (hoverlap : ∀ x row, ¬ Overlap id u t schedule x row) :
    (∃ i, t' = updated id (u (!i)) (updated id (u i) t)) ∧
      Throughout (reliable F) (GuardHeld id u) (fun i => updateJobStateIf id (u i)) t
        schedule := by
  obtain ⟨⟨w, d⟩, schedule, rfl⟩ :=
    exists_move (i := true) (updateJobStateIf_eq id (u true)) hrun (hdone true)
  obtain ⟨hrun, hguard⟩ := read_move (u := u) rfl hrun
  rw [hguard]
  have hnot := update_other (fun i => updateJobStateIf id (u i)) w
  rcases pending_or_skips id (u w) t with ⟨key, row, hpending⟩ | ⟨⟨value, hvalue⟩, hskip⟩
  · rw [afterRead_pending hpending] at hrun ⊢
    obtain ⟨⟨w', d'⟩, schedule, rfl⟩ := exists_move (Function.update_self ..) hrun (hdone w)
    by_cases hw : w' = w
    · -- The first call also writes before the second one reads.
      subst hw
      obtain ⟨hrun, hguard⟩ := write_move id (u := u) (Function.update_self ..) hrun
      rw [hguard]
      rw [Function.update_idem, updateJob_pending hpending] at hrun ⊢
      obtain ⟨ht', hthroughout⟩ := alone_result (update_returned _ _ _) (hnot _) hrun (hdone _)
      exact ⟨⟨w', ht'⟩, guardHeld_pending hpending, hthroughout⟩
    · obtain rfl : w' = !w := Bool.eq_not.mpr hw
      obtain ⟨hrun, hguard⟩ := read_move (u := u) (hnot _) hrun
      rw [hguard]
      rcases pending_or_skips id (u (!w)) t with
        ⟨key', row', hpending'⟩ | ⟨⟨value, hvalue⟩, hskip⟩
      · -- Both have read, and whoever writes next makes the calls overlap.
        obtain rfl := pending_row hpending hpending'
        obtain rfl := key_of_get? hpending.stored
        obtain rfl := key_of_get? hpending'.stored
        rw [afterRead_pending hpending'] at hrun
        obtain ⟨⟨x, d''⟩, schedule, rfl⟩ := exists_move (Function.update_self ..) hrun (hdone _)
        refine absurd ⟨⟨w, schedule.map Prod.fst, rfl⟩, fun i => ?_⟩ (hoverlap x row')
        rcases Bool.eq_or_eq_not i w with rfl | rfl
        · exact hpending
        · exact hpending'
      · rw [hvalue] at hrun ⊢
        have hwrite := update_other (Function.update (fun i => updateJobStateIf id (u i)) w
          (.call (.updateJob (applyFields (scanJob row) (u w))) .ret)) (!w) (.ret value)
        rw [Bool.not_not, Function.update_self] at hwrite
        have hreturned : ∃ result, Function.update (Function.update
            (fun i => updateJobStateIf id (u i)) w
            (.call (.updateJob (applyFields (scanJob row) (u w))) .ret)) (!w) (.ret value) (!w) =
            .ret result := ⟨value, Function.update_self ..⟩
        refine ⟨⟨!w, ?_⟩, ?_⟩
        · rw [hskip, Bool.not_not, write_result hreturned hwrite hrun (hdone w)]
          exact updateJob_pending hpending
        · exact (throughout_write_iff hreturned hwrite hrun (hdone w)).mpr
            (guardHeld_pending hpending)
  · rw [hvalue] at hrun ⊢
    obtain ⟨ht', hthroughout⟩ := alone_result (update_returned _ _ _) (hnot _) hrun (hdone _)
    refine ⟨⟨w, ?_⟩, hthroughout⟩
    rw [hskip]
    exact ht'

theorem get?_updated (hpending : Pending id v t row.id row) :
    (updated id v t).get? row.id = some (updatedRow v row) := by
  simp only [updated, hpending.encoded, hpending.stored]
  rw [← updatedRow_id v row]
  exact get?_put_self _ _

theorem updateJob_ok_iff {now : Row F} (hnow : t.get? row.id = some now) (v : Update) :
    (updateJob t (applyFields (scanJob row) v)).1 = .ok () ↔
      (encodeFields F v.fields).isSome := by
  rw [updateJob_applyFields hnow]
  cases encodeFields F v.fields with
  | none => simp
  | some f => simp

theorem guardHeld_second_iff {x : Bool} {d : StatementDraw F}
    (hpending : Pending id (u x) t row.id row)
    (hcall : programs (!x) = .call (.updateJob (applyFields (scanJob row) (u (!x)))) .ret) :
    GuardHeld id u programs (updated id (u x) t) (!x) d ↔
      ((encodeFields F (u (!x)).fields).isSome →
        (u (!x)).admits (updatedRow (u x) row).state) := by
  have hrow := get?_updated hpending
  constructor
  · intro hheld hencoded
    exact hheld _ _ _ _ hcall ((updateJob_ok_iff hrow _).mpr hencoded) hpending.encoded hrow
  · intro hadmits job next key now hjob hok hkey hnow
    rw [hcall] at hjob
    cases hjob
    obtain rfl := Option.some.inj (hpending.encoded.symm.trans hkey)
    obtain rfl := Option.some.inj (hrow.symm.trans hnow)
    exact hadmits ((updateJob_ok_iff hrow _).mp hok)

/-- With an overlap the second write is made from the row before the first. -/
theorem overlap_result {x : Bool}
    (hrun : interleave (reliable F) (fun i => updateJobStateIf id (u i)) t schedule =
      some (programs', t'))
    (hdone : ∀ i, ∃ value, programs' i = .ret value)
    (hoverlap : Overlap id u t schedule x row) :
    t' = (updateJob (updated id (u x) t) (applyFields (scanJob row) (u (!x)))).2 ∧
      (Throughout (reliable F) (GuardHeld id u) (fun i => updateJobStateIf id (u i)) t
          schedule ↔
        ((encodeFields F (u (!x)).fields).isSome →
          (u (!x)).admits (updatedRow (u x) row).state)) := by
  obtain ⟨⟨w, rest, hschedule⟩, hpending⟩ := hoverlap
  obtain ⟨d, d', d'', schedule, rfl⟩ : ∃ d d' d'' rest,
      schedule = (w, d) :: (!w, d') :: (x, d'') :: rest := by
    obtain ⟨⟨_, d⟩, tail, rfl, rfl, htail⟩ := List.map_eq_cons_iff.mp hschedule
    obtain ⟨⟨_, d'⟩, tail', rfl, hw, htail'⟩ := List.map_eq_cons_iff.mp htail
    obtain ⟨⟨_, d''⟩, rest, rfl, rfl, -⟩ := List.map_eq_cons_iff.mp htail'
    obtain rfl := hw
    exact ⟨d, d', d'', rest, rfl⟩
  obtain ⟨hrun, hguard⟩ := read_move (u := u) rfl hrun
  rw [hguard]
  obtain ⟨hrun, hguard⟩ := read_move (u := u) (update_other _ w _) hrun
  rw [hguard]
  have hboth := update_bothRead u row w fun i => updateJobStateIf id (u i)
  simp only [bothRead] at hboth
  rw [afterRead_pending (hpending w), afterRead_pending (hpending (!w)), hboth] at hrun ⊢
  obtain ⟨hrun, hguard⟩ := write_move id (u := u) (i := x) rfl hrun
  rw [hguard, and_iff_right (guardHeld_pending (hpending x))]
  rw [updateJob_pending (hpending x)] at hrun ⊢
  have hlast := update_other (bothRead u row) x
    (.ret (updateJob t (applyFields (scanJob row) (u x))).1)
  refine ⟨write_result (update_returned _ _ _) hlast hrun (hdone _), ?_⟩
  rw [← guardHeld_second_iff (hpending x) hlast]
  exact throughout_write_iff (update_returned _ _ _) hlast hrun (hdone _)

end Pair

/-- Every column that `f` changes in the row is set by `g`. -/
structure Covers (g f : ColumnFields F) (old : JobColumns F) : Prop where
  workerID : g.workerID.isSome ∨ f.workerID.getD old.workerID = old.workerID
  executionID : g.executionID.isSome ∨ f.executionID.getD old.executionID = old.executionID
  lastError : g.lastError.isSome ∨ f.lastError.getD old.lastError = old.lastError
  attempt : g.attempt.isSome ∨ f.attempt.getD old.attempt = old.attempt
  queuedAt : g.queuedAt.isSome ∨ f.queuedAt.getD old.queuedAt = old.queuedAt
  startedAt : g.startedAt.isSome ∨ f.startedAt.getD old.startedAt = old.startedAt
  completedAt : g.completedAt.isSome ∨ f.completedAt.getD old.completedAt = old.completedAt
  nextRetryAt : g.nextRetryAt.isSome ∨ f.nextRetryAt.getD old.nextRetryAt = old.nextRetryAt
  scheduledAt : g.scheduledAt.isSome ∨ f.scheduledAt.getD old.scheduledAt = old.scheduledAt

/-- The call `u` with fields `f` asks for nothing that `v` with fields `g` does not
already ask for. -/
structure Repeats (u v : Update) (f g : ColumnFields F) (old : JobColumns F) : Prop where
  state : u.state = v.state
  updatedAt : microsecond u.now = microsecond v.now
  workerID : f.workerID.getD (g.workerID.getD old.workerID) = g.workerID.getD old.workerID
  executionID : f.executionID.getD (g.executionID.getD old.executionID) =
    g.executionID.getD old.executionID
  lastError : f.lastError.getD (g.lastError.getD old.lastError) = g.lastError.getD old.lastError
  attempt : f.attempt.getD (g.attempt.getD old.attempt) = g.attempt.getD old.attempt
  queuedAt : f.queuedAt.getD (g.queuedAt.getD old.queuedAt) = g.queuedAt.getD old.queuedAt
  startedAt : f.startedAt.getD (g.startedAt.getD old.startedAt) = g.startedAt.getD old.startedAt
  completedAt : f.completedAt.getD (g.completedAt.getD old.completedAt) =
    g.completedAt.getD old.completedAt
  nextRetryAt : f.nextRetryAt.getD (g.nextRetryAt.getD old.nextRetryAt) =
    g.nextRetryAt.getD old.nextRetryAt
  scheduledAt : f.scheduledAt.getD (g.scheduledAt.getD old.scheduledAt) =
    g.scheduledAt.getD old.scheduledAt

theorem getD_getD_eq_iff {α : Type} (g f : Option α) (old : α) :
    g.getD (f.getD old) = g.getD old ↔ g.isSome ∨ f.getD old = old := by
  cases g <;> simp

theorem apply_apply_eq_iff (u v : Update) (f g : ColumnFields F) (old : JobColumns F) :
    g.apply v (f.apply u old) = g.apply v old ↔ Covers g f old := by
  simp only [JobColumns.ext_iff, ColumnFields.apply, getD_getD_eq_iff, true_and, and_true]
  constructor
  · rintro ⟨h1, h2, h3, h4, h5, h6, h7, h8, h9⟩
    exact ⟨h1, h2, h3, h4, h5, h6, h7, h8, h9⟩
  · rintro ⟨h1, h2, h3, h4, h5, h6, h7, h8, h9⟩
    exact ⟨h1, h2, h3, h4, h5, h6, h7, h8, h9⟩

theorem apply_apply_eq_apply_iff (u v : Update) (f g : ColumnFields F) (old : JobColumns F) :
    f.apply u (g.apply v old) = g.apply v old ↔ Repeats u v f g old := by
  simp only [JobColumns.ext_iff, ColumnFields.apply]
  constructor
  · rintro ⟨h1, h2, h3, h4, h5, h6, h7, h8, h9, h10, h11⟩
    exact ⟨h1, h11, h2, h3, h4, h5, h6, h7, h8, h9, h10⟩
  · rintro ⟨h1, h11, h2, h3, h4, h5, h6, h7, h8, h9, h10⟩
    exact ⟨h1, h2, h3, h4, h5, h6, h7, h8, h9, h10, h11⟩

theorem put_withColumns_eq_iff {t : JobRows F} {row : Row F} {columns columns' : JobColumns F} :
    t.put (row.withColumns columns) = t.put (row.withColumns columns') ↔
      columns = columns' := by
  constructor
  · intro hput
    have hget := congrArg (fun t => t.get? row.id) hput
    have hself : ∀ c, (t.put (row.withColumns c)).get? row.id =
        some (row.withColumns c) := fun c => get?_put_self t (row.withColumns c)
    simp only [hself, Option.some.injEq] at hget
    exact congrArg Row.toJobColumns hget
  · rintro rfl
    rfl

section Outcome

variable {id : String} {u : Bool → Update} {t t' : JobRows F} {row : Row F}
  {schedule : List (Bool × StatementDraw F)} {programs' : Bool → Sql (Except Err Unit)}

theorem updated_of_encoded {v : Update} {f : ColumnFields F} {now : JobColumns F}
    (hid : F.uuid.encode id = some row.id) (hf : encodeFields F v.fields = some f)
    (hrow : t.get? row.id = some (row.withColumns now)) :
    updated id v t = t.put (row.withColumns
      (if v.admits now.state then f.apply v now else now)) := by
  simp only [updated, hid, hrow, updatedRow, hf]
  change t.put (if v.admits now.state then _ else _) = _
  split <;> rfl

theorem updated_of_refused {v : Update} (hf : encodeFields F v.fields = none)
    (t : JobRows F) : updated id v t = t := by
  unfold updated
  split
  · rfl
  · split
    · rfl
    · rename_i row hrow
      simp only [updatedRow, hf, ite_self]
      exact put_of_get? hrow

theorem updatedRow_of_refused {v : Update} (hf : encodeFields F v.fields = none)
    (row : Row F) : updatedRow v row = row := by
  simp only [updatedRow, hf, ite_self]

/-- Both writes go through, `u x` first. -/
theorem overlap_serialises_iff {x : Bool} {f g : ColumnFields F}
    (hpending : ∀ i, Pending id (u i) t row.id row)
    (hf : encodeFields F (u x).fields = some f) (hg : encodeFields F (u (!x)).fields = some g)
    (ht' : t' = (updateJob (updated id (u x) t) (applyFields (scanJob row) (u (!x)))).2)
    (hadmits : (u (!x)).admits (u x).state) :
    (∃ i, t' = updated id (u (!i)) (updated id (u i) t)) ↔
      Covers g f row.toJobColumns ∨ ¬ (u x).admits (u (!x)).state ∨
        Repeats (u x) (u (!x)) f g row.toJobColumns := by
  have hid := (hpending x).encoded
  have hstored : t.get? row.id = some (row.withColumns row.toJobColumns) :=
    (hpending x).stored
  have hself : ∀ c, (t.put (row.withColumns c)).get? row.id =
      some (row.withColumns c) := fun c => get?_put_self t (row.withColumns c)
  have hput : ∀ c c', (t.put (row.withColumns c)).put (row.withColumns c') =
      t.put (row.withColumns c') := fun c c' => put_put rfl
  have hfirst : updated id (u x) t =
      t.put (row.withColumns (f.apply (u x) row.toJobColumns)) := by
    rw [updated_of_encoded hid hf hstored, if_pos (hpending x).admitted]
  have hsecond : updated id (u (!x)) t =
      t.put (row.withColumns (g.apply (u (!x)) row.toJobColumns)) := by
    rw [updated_of_encoded hid hg hstored, if_pos (hpending (!x)).admitted]
  have hresult : t' = t.put (row.withColumns (g.apply (u (!x)) row.toJobColumns)) := by
    rw [ht', hfirst, updateJob_applyFields (hself _), hg]
    exact hput _ _
  have hforth : updated id (u (!x)) (updated id (u x) t) = t.put (row.withColumns
      (g.apply (u (!x)) (f.apply (u x) row.toJobColumns))) := by
    rw [hfirst, updated_of_encoded hid hg (hself _), hput]
    exact congrArg (fun c => t.put (row.withColumns c)) (if_pos hadmits)
  have hback : updated id (u x) (updated id (u (!x)) t) = t.put (row.withColumns
      (if (u x).admits (u (!x)).state then
        f.apply (u x) (g.apply (u (!x)) row.toJobColumns)
      else g.apply (u (!x)) row.toJobColumns)) := by
    rw [hsecond, updated_of_encoded hid hf (hself _), hput]
    rfl
  have hcases : (∃ i, t' = updated id (u (!i)) (updated id (u i) t)) ↔
      t' = updated id (u (!x)) (updated id (u x) t) ∨
        t' = updated id (u x) (updated id (u (!x)) t) := by
    constructor
    · rintro ⟨i, hi⟩
      rcases Bool.eq_or_eq_not i x with rfl | rfl
      · exact Or.inl hi
      · rw [Bool.not_not] at hi
        exact Or.inr hi
    · rintro (hi | hi)
      · exact ⟨x, hi⟩
      · refine ⟨!x, ?_⟩
        rw [Bool.not_not]
        exact hi
  rw [hcases, hforth, hback, hresult, put_withColumns_eq_iff, put_withColumns_eq_iff, eq_comm,
    apply_apply_eq_iff]
  refine or_congr_right ?_
  by_cases hrejects : (u x).admits (u (!x)).state
  · rw [if_pos hrejects, eq_comm, apply_apply_eq_apply_iff]
    exact (or_iff_right (not_not_intro hrejects)).symm
  · rw [if_neg hrejects]
    exact iff_of_true rfl (Or.inl hrejects)

theorem overlap_unique {x y : Bool} {row' : Row F} (h : Overlap id u t schedule x row)
    (h' : Overlap id u t schedule y row') : y = x ∧ row' = row := by
  obtain ⟨w, rest, hw⟩ := h.order
  obtain ⟨w', rest', hw'⟩ := h'.order
  rw [hw] at hw'
  simp only [List.cons.injEq] at hw'
  exact ⟨hw'.2.2.1.symm, pending_row (h.pending x) (h'.pending y)⟩

/-- Two conditional updates of one job behave as if run one after the other, and
write only over states that their guards admit, exactly when an overlap in which
both writes go through does no harm: the second guard admits the state that the
first call writes, and the second call overrides all the first one wrote, or the
first call would have done nothing after the second. -/
theorem conditional_update_atomic_iff (id : String) (u : Bool → Update) (t t' : JobRows F)
    (schedule : List (Bool × StatementDraw F)) (programs' : Bool → Sql (Except Err Unit))
    (hrun : interleave (reliable F) (fun i => updateJobStateIf id (u i)) t schedule =
      some (programs', t'))
    (hdone : ∀ i, ∃ value, programs' i = .ret value) :
    Serialises id u t t' ∧
        Throughout (reliable F) (GuardHeld id u) (fun i => updateJobStateIf id (u i)) t schedule ↔
      ∀ x row f g, Overlap id u t schedule x row → encodeFields F (u x).fields = some f →
        encodeFields F (u (!x)).fields = some g →
        (u (!x)).admits (u x).state ∧
          (Covers g f row.toJobColumns ∨ ¬ (u x).admits (u (!x)).state ∨
            Repeats (u x) (u (!x)) f g row.toJobColumns) := by
  rw [serialises_iff]
  by_cases hoverlap : ∃ x row, Overlap id u t schedule x row
  · obtain ⟨x, row, hoverlap⟩ := hoverlap
    have hpending := hoverlap.pending
    obtain ⟨ht', hguard⟩ := overlap_result hrun hdone hoverlap
    rw [hguard]
    have honly : (∀ y row' f g, Overlap id u t schedule y row' →
        encodeFields F (u y).fields = some f → encodeFields F (u (!y)).fields = some g →
        (u (!y)).admits (u y).state ∧
          (Covers g f row'.toJobColumns ∨ ¬ (u y).admits (u (!y)).state ∨
            Repeats (u y) (u (!y)) f g row'.toJobColumns)) ↔
        ∀ f g, encodeFields F (u x).fields = some f → encodeFields F (u (!x)).fields = some g →
          (u (!x)).admits (u x).state ∧
            (Covers g f row.toJobColumns ∨ ¬ (u x).admits (u (!x)).state ∨
              Repeats (u x) (u (!x)) f g row.toJobColumns) := by
      constructor
      · intro hall f g hf hg
        exact hall x row f g hoverlap hf hg
      · intro hall y row' f g hoverlap' hf hg
        obtain ⟨rfl, rfl⟩ := overlap_unique hoverlap hoverlap'
        exact hall f g hf hg
    rw [honly]
    cases hg : encodeFields F (u (!x)).fields with
    | none =>
        refine iff_of_true ⟨⟨!x, ?_⟩, by simp⟩ (by simp)
        rw [ht', Bool.not_not, updated_of_refused hg,
          updateJob_applyFields (get?_updated (hpending x)), hg]
    | some g =>
        cases hf : encodeFields F (u x).fields with
        | none =>
            refine iff_of_true ⟨⟨x, ?_⟩, fun _ => ?_⟩ (by simp)
            · rw [ht', updated_of_refused hf, updateJob_pending (hpending (!x))]
            · rw [updatedRow_of_refused hf]
              exact (hpending (!x)).admitted
        | some f =>
            have hstate : (updatedRow (u x) row).state = (u x).state := by
              simp only [updatedRow, if_pos (hpending x).admitted, hf]
              rfl
            have hserial := overlap_serialises_iff hpending hf hg ht'
            simp only [hstate, Option.isSome_some, forall_const, Option.some.injEq]
            constructor
            · rintro ⟨hi, hadmits⟩ _ _ rfl rfl
              exact ⟨hadmits, (hserial hadmits).mp hi⟩
            · intro hall
              obtain ⟨hadmits, hharmless⟩ := hall f g rfl rfl
              exact ⟨(hserial hadmits).mpr hharmless, hadmits⟩
  · rw [not_exists] at hoverlap
    refine iff_of_true ?_ ?_
    · exact serial_of_no_overlap hrun hdone fun x row h => hoverlap x ⟨row, h⟩
    · intro x row f g h
      exact absurd ⟨row, h⟩ (hoverlap x)

end Outcome

def retryingRow : Row plainFormat where
  id := ⟨"job", by decide⟩
  name := ⟨"echo", by decide⟩
  type := ⟨.builtin, Or.inl rfl⟩
  payload := [123, 125]
  priority := ⟨5, by decide⟩
  schedule := { type := .immediate }
  retryPolicy := defaultRetryPolicy
  timeoutMs := 30000
  idempotencyKey := none
  maxAttempts := ⟨3, by decide⟩
  metadata := ∅
  createdAt := 0
  state := .retrying
  attempt := ⟨1, by decide⟩
  nextRetryAt := some 0
  updatedAt := 0

def retryingTable : JobRows plainFormat := Table.empty.put retryingRow

/-- A promotion, and a cancellation by the API. -/
def promoteAndCancel : Bool → Update
  | false =>
      { state := .queued, fields := { queuedAt := some (some 1000) }, now := 1000
        onlyFrom := [.scheduled, .retrying] }
  | true => { state := .cancelled, fields := { completedAt := some (some 2000) }, now := 2000 }

/-- The cancellation comes between the read and the write of the promotion. -/
def cancelInside : List (Bool × StatementDraw plainFormat) :=
  [(false, {}), (true, {}), (true, {}), (false, {})]

def finalState (id : String) (t : JobRows plainFormat) : Option JobState :=
  (plainFormat.uuid.encode id).bind fun key => (t.get? key).map (·.state)

theorem promotion_overwrites_cancellation :
    ∃ programs' t', interleave (reliable plainFormat)
        (fun i => updateJobStateIf "job" (promoteAndCancel i)) retryingTable cancelInside =
          some (programs', t') ∧
      (∀ i, ∃ value, programs' i = .ret value) ∧ finalState "job" t' = some .queued ∧
      ¬ (Serialises "job" promoteAndCancel retryingTable t' ∧
        Throughout (reliable plainFormat) (GuardHeld "job" promoteAndCancel)
          (fun i => updateJobStateIf "job" (promoteAndCancel i)) retryingTable cancelInside) := by
  let result := (interleave (reliable plainFormat)
    (fun i => updateJobStateIf "job" (promoteAndCancel i)) retryingTable cancelInside).get
      (by decide +kernel)
  have hqueued : finalState "job" result.2 = some .queued := by decide +kernel
  refine ⟨result.1, result.2, (Option.some_get (by decide +kernel)).symm, fun i => ?_,
    hqueued, ?_⟩
  · cases i <;> exact ⟨.ok (), rfl⟩
  · rintro ⟨hserial, -⟩
    obtain ⟨i, hi⟩ := serialises_iff.mp hserial
    rw [hi] at hqueued
    revert hqueued
    cases i <;> decide +kernel

/-- A request to cancel that the final cancellation overtakes. -/
def requestAndCancel : Bool → Update
  | false => { state := .cancelRequested, now := 1000 }
  | true => { state := .cancelled, fields := { completedAt := some (some 2000) }, now := 2000 }

def requestFirst : List (Bool × StatementDraw plainFormat) :=
  [(true, {}), (false, {}), (false, {}), (true, {})]

theorem overtaken_request_serialises :
    ∃ t', finalState "job" t' = some .cancelled ∧
      Serialises "job" requestAndCancel retryingTable t' := by
  let result := (interleave (reliable plainFormat)
    (fun i => updateJobStateIf "job" (requestAndCancel i)) retryingTable requestFirst).get
      (by decide +kernel)
  refine ⟨result.2, by decide +kernel, ?_⟩
  refine ((conditional_update_atomic_iff "job" requestAndCancel retryingTable result.2
    requestFirst result.1 (Option.some_get (by decide +kernel)).symm fun i => ?_).mpr ?_).1
  · cases i <;> exact ⟨.ok (), rfl⟩
  · intro x row f g hoverlap hf hg
    obtain ⟨w, rest, horder⟩ := hoverlap.order
    obtain rfl : x = false := by
      simp only [requestFirst, List.map_cons, List.cons.injEq] at horder
      exact horder.2.2.1.symm
    obtain rfl := Option.some.inj hf
    exact ⟨Or.inl rfl, Or.inl ⟨Or.inr rfl, Or.inr rfl, Or.inr rfl, Or.inr rfl, Or.inr rfl,
      Or.inr rfl, Or.inr rfl, Or.inr rfl, Or.inr rfl⟩⟩

end Chronos.ConditionalUpdate
