import Chronos.Library.CallMachine

namespace Chronos.Library.Observations

open Chronos.Library.CallMachine

/-- A call with the answer that its caller got. -/
abbrev Observed (C : Type) (Answer : C → Type) := (c : C) × Answer c

variable {C : Type} {Answer : C → Type} {σ δ : Type}

/-- What a client sees of a machine that it calls again and again. -/
inductive Observes (M : Machine C Answer σ δ) : σ → List (Observed C Answer) → σ → Prop
  | start (s : σ) : Observes M s [] s
  | call {s s' : σ} {c : C} {d : δ} {seen : List (Observed C Answer)}
      (hallowed : M.Allowed s c d) (hrest : Observes M (M.step c s d).2 seen s') :
      Observes M s (⟨c, (M.step c s d).1⟩ :: seen) s'

theorem observes_append {M : Machine C Answer σ δ} {s s' s'' : σ}
    {first rest : List (Observed C Answer)} (hfirst : Observes M s first s')
    (hrest : Observes M s' rest s'') : Observes M s (first ++ rest) s'' := by
  induction hfirst with
  | start s => exact hrest
  | call hallowed _ ih => exact .call hallowed (ih hrest)

/-- The simulation rule.  Where every call on `M` is matched by calls on `N` that a client
takes for it and that lead to related states, every client of `M` could be a client of `N`. -/
theorem exists_matched {D : Type} {Reply : D → Type} {τ ε : Type} {M : Machine C Answer σ δ}
    {N : Machine D Reply τ ε} {R : σ → τ → Prop}
    {Like : Observed C Answer → List (Observed D Reply) → Prop}
    (hcall : ∀ {s t c d}, R s t → M.Allowed s c d → ∃ matching t',
      Observes N t matching t' ∧ Like ⟨c, (M.step c s d).1⟩ matching ∧ R (M.step c s d).2 t')
    {s s' : σ} {t : τ} {seen : List (Observed C Answer)} (hrun : Observes M s seen s')
    (hst : R s t) :
    ∃ matched t', Observes N t matched.flatten t' ∧ List.Forall₂ Like seen matched ∧ R s' t' := by
  induction hrun generalizing t with
  | start s => exact ⟨[], t, .start t, .nil, hst⟩
  | call hallowed _ ih =>
      obtain ⟨matching, t₁, hmatching, hlike, hrelated⟩ := hcall hst hallowed
      obtain ⟨matched, t', hmatched, hlikes, hrelated'⟩ := ih hrelated
      exact ⟨matching :: matched, t', observes_append hmatching hmatched, .cons hlike hlikes,
        hrelated'⟩

end Chronos.Library.Observations
