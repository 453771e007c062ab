import Mathlib.Order.WellFounded

namespace Chronos.Library.Settling

variable {σ : Type} {step : σ → σ → Prop} {P : σ → Prop} {s : σ}

def Stuck (step : σ → σ → Prop) (s : σ) : Prop := ∀ s', ¬ step s s'

/-- Whichever steps are taken from the state, there is an end to them, and the condition holds
where no step is left. -/
inductive Settles (step : σ → σ → Prop) (P : σ → Prop) : σ → Prop
  | intro {s : σ} (hend : Stuck step s → P s) (hnext : ∀ s', step s s' → Settles step P s') :
      Settles step P s

/-- Steps that keep an invariant and go down in a well-founded order settle. -/
theorem settles_of_rank {α : Type} [LT α] [WellFoundedLT α] (rank : σ → α) {I : σ → Prop}
    (hkeep : ∀ {s s'}, I s → step s s' → I s')
    (hrank : ∀ {s s'}, I s → step s s' → rank s' < rank s)
    (hend : ∀ {s}, I s → Stuck step s → P s) (hs : I s) : Settles step P s := by
  have hwf : WellFounded fun a b : α => a < b := wellFounded_lt
  induction h : rank s using hwf.induction generalizing s with
  | h a ih =>
      refine .intro (hend hs) fun s' hstep => ?_
      exact ih (rank s') (h ▸ hrank hs hstep) (hkeep hs hstep) rfl

end Chronos.Library.Settling
