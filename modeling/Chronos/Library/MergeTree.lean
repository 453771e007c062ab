import Mathlib.Data.List.Nodup
import Mathlib.Tactic.Common

namespace Chronos.Library.MergeTree

variable {ρ κ V : Type} [DecidableEq κ] [LE V] [DecidableLE V]

/-- Of two rows of one key the one of the higher version, and the later one where the versions
are equal. -/
def newer (version : ρ → V) : Option ρ → Option ρ → Option ρ
  | none, later => later
  | some r, none => some r
  | some r, some r' => if version r ≤ version r' then some r' else some r

/-- What a query with FINAL sees under a key of a table that keeps the newest row of every
key.  The rows are in the order of their insertion. -/
def view (key : ρ → κ) (version : ρ → V) : List ρ → κ → Option ρ
  | [], _ => none
  | r :: rows, k => newer version (if key r = k then some r else none) (view key version rows k)

/-- The rows that a merge leaves. -/
def collapse (key : ρ → κ) (version : ρ → V) : List ρ → List ρ
  | [] => []
  | r :: rows =>
      match view key version rows (key r) with
      | none => r :: collapse key version rows
      | some r' =>
          if version r ≤ version r' then collapse key version rows
          else r :: (collapse key version rows).filter fun row => key row ≠ key r

variable {key : ρ → κ} {version : ρ → V}

@[simp] theorem newer_none (a : Option ρ) : newer version a none = a := by
  cases a <;> rfl

@[simp] theorem none_newer (a : Option ρ) : newer version none a = a := rfl

theorem newer_eq_none {a b : Option ρ} : newer version a b = none ↔ a = none ∧ b = none := by
  rcases a with _ | a <;> rcases b with _ | b <;> simp [newer]
  split <;> simp

theorem view_eq_none_iff {rows : List ρ} {k : κ} :
    view key version rows k = none ↔ k ∉ rows.map key := by
  induction rows with
  | nil => simp [view]
  | cons first rows ih =>
      rw [view, newer_eq_none, ih, List.map_cons, List.mem_cons, not_or]
      refine and_congr_left' ?_
      rw [ite_eq_right_iff]
      simp [eq_comm]

theorem view_filter_ne (rows : List ρ) (k k' : κ) :
    view key version (rows.filter fun row => key row ≠ k') k =
      if k = k' then none else view key version rows k := by
  induction rows with
  | nil => simp [view]
  | cons first rows ih =>
      by_cases hfirst : key first = k'
      · rw [List.filter_cons_of_neg (by simpa using hfirst), ih]
        by_cases hk : k = k'
        · rw [if_pos hk, if_pos hk]
        · rw [if_neg hk, if_neg hk, view, if_neg (by rw [hfirst]; exact Ne.symm hk), none_newer]
      · rw [List.filter_cons_of_pos (by simpa using hfirst), view, ih]
        by_cases hk : k = k'
        · rw [if_pos hk, if_pos hk, if_neg (by rw [hk]; exact hfirst), none_newer]
        · rw [if_neg hk, if_neg hk, view]

/-- A merge does not change what a query sees. -/
theorem view_collapse (rows : List ρ) (k : κ) :
    view key version (collapse key version rows) k = view key version rows k := by
  induction rows generalizing k with
  | nil => rfl
  | cons r rows ih =>
      rw [collapse]
      split
      · rw [view, view, ih]
      · rename_i r' hr'
        split
        · rename_i hversion
          rw [ih, view]
          split
          · rename_i hk
            rw [← hk, hr', newer, if_pos hversion]
          · rfl
        · rename_i hversion
          rw [view, view, view_filter_ne, ih]
          split
          · rename_i hk
            rw [if_pos hk.symm, ← hk, hr', newer, newer, if_neg hversion]
          · rename_i hk
            rw [if_neg (Ne.symm hk)]

theorem nodup_collapse (rows : List ρ) : ((collapse key version rows).map key).Nodup := by
  induction rows with
  | nil => exact List.nodup_nil
  | cons r rows ih =>
      rw [collapse]
      split
      · rename_i hnone
        rw [List.map_cons, List.nodup_cons]
        exact ⟨view_eq_none_iff.mp ((view_collapse rows (key r)).trans hnone), ih⟩
      · split
        · exact ih
        · rw [List.map_cons, List.nodup_cons]
          refine ⟨by simp, ?_⟩
          exact ih.sublist (List.filter_sublist.map key)

theorem mem_keys_collapse (rows : List ρ) (k : κ) :
    k ∈ (collapse key version rows).map key ↔ k ∈ rows.map key := by
  have hnone : view key version (collapse key version rows) k = none ↔
      view key version rows k = none := by rw [view_collapse]
  exact not_iff_not.mp (view_eq_none_iff.symm.trans (hnone.trans view_eq_none_iff))

theorem mem_of_mem_collapse {rows : List ρ} {r : ρ} (h : r ∈ collapse key version rows) :
    r ∈ rows := by
  induction rows with
  | nil => exact h
  | cons first rows ih =>
      rw [collapse] at h
      split at h
      · exact (List.mem_cons.mp h).elim (fun hr => hr ▸ List.mem_cons_self)
          fun hr => List.mem_cons_of_mem _ (ih hr)
      · split at h
        · exact List.mem_cons_of_mem _ (ih h)
        · exact (List.mem_cons.mp h).elim (fun hr => hr ▸ List.mem_cons_self)
            fun hr => List.mem_cons_of_mem _ (ih (List.mem_of_mem_filter hr))

end Chronos.Library.MergeTree
