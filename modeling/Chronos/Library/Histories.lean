import Mathlib.Tactic.Common

namespace Chronos.Library.Histories

/-- One step of a run with the states around it. -/
structure Entry (σ ι : Type) where
  before : σ
  label : ι
  after : σ

variable {σ ι : Type} {Step : σ → ι → σ → Prop} {start s : σ} {history : List (Entry σ ι)}

/-- A run with its history, the last step first. -/
inductive Run (Step : σ → ι → σ → Prop) (start : σ) : List (Entry σ ι) → σ → Prop
  | start : Run Step start [] start
  | next {history : List (Entry σ ι)} {s s' : σ} {label : ι}
      (hrun : Run Step start history s) (hstep : Step s label s') :
      Run Step start (⟨s, label, s'⟩ :: history) s'

theorem step_of_mem (hrun : Run Step start history s) {entry : Entry σ ι}
    (hentry : entry ∈ history) : Step entry.before entry.label entry.after := by
  induction hrun with
  | start => exact absurd hentry List.not_mem_nil
  | next _ hstep ih =>
      rcases List.mem_cons.mp hentry with rfl | hearlier
      · exact hstep
      · exact ih hearlier

/-- The steps after an entry of the history are a run from the state that the entry leaves. -/
theorem run_after {later earlier : List (Entry σ ι)} {entry : Entry σ ι}
    (hrun : Run Step start (later ++ entry :: earlier) s) : Run Step entry.after later s := by
  induction later generalizing s with
  | nil =>
      cases hrun with
      | next _ _ => exact .start
  | cons last later ih =>
      cases hrun with
      | next hrun hstep => exact .next (ih hrun) hstep

/-- What holds of the empty history, and is carried over by every step that meets the
condition `P`, holds at the end of a run all of whose steps meet it. -/
theorem run_invariant {P : Entry σ ι → Prop} {I : List (Entry σ ι) → σ → Prop}
    (hstart : I [] start)
    (hnext : ∀ {history s label s'}, I history s → Step s label s' → P ⟨s, label, s'⟩ →
      I (⟨s, label, s'⟩ :: history) s')
    (hrun : Run Step start history s) (hsteps : ∀ entry ∈ history, P entry) :
    I history s := by
  induction hrun with
  | start => exact hstart
  | next _ hstep ih =>
      refine hnext (ih fun entry hentry => ?_) hstep (hsteps _ List.mem_cons_self)
      exact hsteps entry (List.mem_cons_of_mem _ hentry)

end Chronos.Library.Histories
