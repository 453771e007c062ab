import Mathlib.Data.Set.Basic
import Mathlib.Logic.Function.Basic
import Mathlib.Tactic.Common

namespace Chronos.Library.LeastLoaded

section Choice

variable {α : Type} {free : α → Bool} {load : α → Int}

/-- The first item of least load among those that are free, one item after another. -/
def choose (free : α → Bool) (load : α → Int) (best : Option α) (item : α) : Option α :=
  if free item then
    match best with
    | none => some item
    | some b => if load item < load b then some item else best
  else best

theorem choose_cases (free : α → Bool) (load : α → Int) (best : Option α) (item : α) :
    (free item = false ∧ choose free load best item = best) ∨
      free item ∧ ((∃ b, best = some b ∧ load b ≤ load item ∧
          choose free load best item = best) ∨
        (∀ b ∈ best, load item < load b) ∧ choose free load best item = some item) := by
  unfold choose
  split
  · rename_i hfree
    refine Or.inr ⟨hfree, ?_⟩
    cases best with
    | none => exact Or.inr ⟨fun _ hb => absurd hb (Option.not_mem_none _), rfl⟩
    | some b =>
        dsimp only
        split
        · rename_i hless
          refine Or.inr ⟨?_, rfl⟩
          rintro _ ⟨⟩
          exact hless
        · rename_i hless
          exact Or.inl ⟨b, rfl, not_lt.mp hless, rfl⟩
  · rename_i hfree
    exact Or.inl ⟨by simpa using hfree, rfl⟩

/-- What the choice from `items` comes to when it starts with `best`. -/
theorem foldl_choose_least {items : List α} {best : Option α} {chosen : α}
    (hbest : ∀ b ∈ best, free b) (hfold : items.foldl (choose free load) best = some chosen) :
    free chosen ∧ (∀ b ∈ best, load chosen ≤ load b) ∧
      ∀ item ∈ items, free item → load chosen ≤ load item := by
  induction items generalizing best with
  | nil =>
      have hchosen : best = some chosen := hfold
      subst hchosen
      refine ⟨hbest chosen rfl, ?_, fun _ hitem => absurd hitem List.not_mem_nil⟩
      rintro _ ⟨⟩
      exact le_rfl
  | cons first rest ih =>
      rw [List.foldl_cons] at hfold
      rcases choose_cases free load best first with
        ⟨hfree, hsame⟩ | ⟨hfree, ⟨b, rfl, hle, hsame⟩ | ⟨hless, htaken⟩⟩
      · rw [hsame] at hfold
        obtain ⟨hchosen, hleast, hrest⟩ := ih hbest hfold
        refine ⟨hchosen, hleast, fun item hitem hitemFree => ?_⟩
        rcases List.mem_cons.mp hitem with rfl | hmem
        · rw [hfree] at hitemFree
          cases hitemFree
        · exact hrest item hmem hitemFree
      · rw [hsame] at hfold
        obtain ⟨hchosen, hleast, hrest⟩ := ih hbest hfold
        refine ⟨hchosen, hleast, fun item hitem hitemFree => ?_⟩
        rcases List.mem_cons.mp hitem with rfl | hmem
        · exact (hleast b rfl).trans hle
        · exact hrest item hmem hitemFree
      · rw [htaken] at hfold
        have hfirst : ∀ b ∈ some first, free b := by
          rintro _ ⟨⟩
          exact hfree
        obtain ⟨hchosen, hleast, hrest⟩ := ih hfirst hfold
        refine ⟨hchosen, fun b hb => (hleast first rfl).trans (hless b hb).le, ?_⟩
        intro item hitem hitemFree
        rcases List.mem_cons.mp hitem with rfl | hmem
        · exact hleast item rfl
        · exact hrest item hmem hitemFree

end Choice

section Bins

variable {ι : Type} {bins : Set ι} {capacity load : ι → Int}

/-- No bin holds more than its capacity, and none holds two items more than a bin that has
room. -/
structure Balanced (bins : Set ι) (capacity load : ι → Int) : Prop where
  within : ∀ i ∈ bins, load i ≤ capacity i
  even : ∀ i ∈ bins, ∀ j ∈ bins, load j < capacity j → load i ≤ load j + 1

/-- The bin has room, and no bin with room holds less. -/
structure Least (bins : Set ι) (capacity load : ι → Int) (i : ι) : Prop where
  room : load i < capacity i
  least : ∀ j ∈ bins, load j < capacity j → load i ≤ load j

theorem balanced_empty (hcapacity : ∀ i ∈ bins, 0 ≤ capacity i) (hload : ∀ i ∈ bins, load i = 0) :
    Balanced bins capacity load where
  within := by
    intro i hi
    rw [hload i hi]
    exact hcapacity i hi
  even := by
    intro i hi j hj _
    rw [hload i hi, hload j hj]
    exact Int.zero_le_ofNat 1

/-- One more item in a least loaded bin. -/
theorem balanced_place [DecidableEq ι] (h : Balanced bins capacity load) {i : ι}
    (hi : Least bins capacity load i) :
    Balanced bins capacity (Function.update load i (load i + 1)) where
  within := by
    intro j hj
    by_cases hji : j = i
    · subst hji
      rw [Function.update_self]
      exact hi.room
    · rw [Function.update_of_ne hji]
      exact h.within j hj
  even := by
    intro j hj k hk hroom
    by_cases hki : k = i
    · -- the bin itself still has room: the others were within one of it before
      subst hki
      rw [Function.update_self]
      by_cases hjk : j = k
      · rw [hjk, Function.update_self]
        omega
      · rw [Function.update_of_ne hjk]
        have heven := h.even j hj k hk hi.room
        omega
    · rw [Function.update_of_ne hki] at hroom ⊢
      by_cases hji : j = i
      · rw [hji, Function.update_self]
        have hleast := hi.least k hk hroom
        omega
      · rw [Function.update_of_ne hji]
        exact h.even j hj k hk hroom

end Bins

end Chronos.Library.LeastLoaded
