import Mathlib.Data.List.TakeWhile

namespace Chronos.Library.StableSort

variable {α : Type} {le : α → α → Bool}

/-- A total preorder, given as a comparison. -/
structure Preorders (le : α → α → Bool) : Prop where
  trans : ∀ a b c, le a b → le b c → le a c
  total : ∀ a b, (le a b || le b a) = true

def tied (le : α → α → Bool) (a b : α) : Bool := le a b && le b a

section

variable (hle : Preorders le)

include hle

theorem Preorders.refl (a : α) : le a a := by
  simpa using hle.total a a

theorem Preorders.tied_self (a : α) : tied le a a := by
  simp [tied, hle.refl a]

theorem Preorders.of_not {a b : α} (h : ¬ le a b) : le b a := by
  simpa [h] using hle.total a b

/-- A sorted list is determined by the order within each class of ties. -/
theorem eq_of_pairwise_of_filter {l₁ l₂ : List α} (h₁ : l₁.Pairwise fun a b => le a b)
    (h₂ : l₂.Pairwise fun a b => le a b)
    (hties : ∀ c, l₁.filter (tied le c) = l₂.filter (tied le c)) : l₁ = l₂ := by
  have hmem : ∀ {c}, c ∈ l₁ ↔ c ∈ l₂ := by
    intro c
    have hc := congrArg (c ∈ ·) (hties c)
    simpa [hle.tied_self c] using hc
  induction l₁ generalizing l₂ with
  | nil =>
      refine (List.eq_nil_iff_forall_not_mem.mpr fun c hc => ?_).symm
      exact absurd (hmem.mpr hc) List.not_mem_nil
  | cons a rest ih =>
      cases l₂ with
      | nil => exact absurd (hmem.mp List.mem_cons_self) List.not_mem_nil
      | cons b rest' =>
          have hfirst : ∀ {x y : α} {l : List α}, (x :: l).Pairwise (fun a b => le a b) →
              y ∈ x :: l → le x y := by
            intro x y l hsorted hy
            rcases List.mem_cons.mp hy with rfl | hl
            · exact hle.refl y
            · exact (List.pairwise_cons.mp hsorted).1 y hl
          have hab : tied le a b := by
            rw [tied, Bool.and_eq_true]
            exact ⟨hfirst h₁ (hmem.mpr List.mem_cons_self), hfirst h₂ (hmem.mp List.mem_cons_self)⟩
          obtain ⟨rfl, -⟩ : a = b ∧ _ := by
            have hheads := hties a
            rw [List.filter_cons_of_pos (hle.tied_self a), List.filter_cons_of_pos hab] at hheads
            exact List.cons.inj hheads
          have hrest : ∀ c, rest.filter (tied le c) = rest'.filter (tied le c) := by
            intro c
            have hc := hties c
            rw [List.filter_cons, List.filter_cons] at hc
            split at hc
            · exact (List.cons.inj hc).2
            · exact hc
          refine congrArg (a :: ·) (ih h₁.of_cons h₂.of_cons hrest fun {c} => ?_)
          have hc := congrArg (c ∈ ·) (hrest c)
          simpa [hle.tied_self c] using hc

theorem filter_mergeSort (l : List α) (c : α) :
    (l.mergeSort le).filter (tied le c) = l.filter (tied le c) := by
  have hsorted : (l.filter (tied le c)).Pairwise fun a b => le a b := by
    refine List.pairwise_iff_forall_sublist.mpr fun {a b} hsub => ?_
    have ha := (List.mem_filter.mp (hsub.subset List.mem_cons_self)).2
    have hb := (List.mem_filter.mp
      (hsub.subset (List.mem_cons_of_mem a List.mem_cons_self))).2
    rw [tied, Bool.and_eq_true] at ha hb
    exact hle.trans a c b ha.2 hb.1
  have hsub := List.sublist_mergeSort hle.trans hle.total hsorted List.filter_sublist
  have hfiltered := hsub.filter (tied le c)
  rw [List.filter_filter] at hfiltered
  simp only [Bool.and_self] at hfiltered
  refine (hfiltered.eq_of_length ?_).symm
  exact ((List.mergeSort_perm l le).filter (tied le c)).length_eq.symm

/-- The stable sort of a list: sorted, with ties in the order of the list. -/
theorem eq_mergeSort_of_filter {s l : List α} (hs : s.Pairwise fun a b => le a b)
    (hties : ∀ c, s.filter (tied le c) = l.filter (tied le c)) : s = l.mergeSort le := by
  refine eq_of_pairwise_of_filter hle hs (List.pairwise_mergeSort hle.trans hle.total l) ?_
  intro c
  rw [filter_mergeSort hle, hties]

/-- A new last element goes behind all that come before it or tie with it. -/
theorem mergeSort_concat (l : List α) (a : α) :
    (l ++ [a]).mergeSort le = (l.mergeSort le).takeWhile (fun x => le x a) ++
      a :: (l.mergeSort le).dropWhile (fun x => le x a) := by
  have hsorted := List.pairwise_mergeSort hle.trans hle.total l
  have hties := filter_mergeSort hle l
  generalize l.mergeSort le = s at hsorted hties ⊢
  have hsplit : s.takeWhile (fun x => le x a) ++ s.dropWhile (fun x => le x a) = s :=
    List.takeWhile_append_dropWhile
  have hbefore : ∀ x ∈ s.takeWhile (fun x => le x a), le x a := by
    intro x hx
    exact List.mem_takeWhile_imp (p := fun x => le x a) hx
  have hafter : ∀ x ∈ s.dropWhile (fun x => le x a), ¬ le x a := by
    have hhead := List.head?_dropWhile_not (fun x => le x a) s
    have hdropped := hsorted.sublist (List.dropWhile_sublist fun x => le x a)
    cases hdrop : s.dropWhile (fun x => le x a) with
    | nil => exact fun x hx => absurd hx List.not_mem_nil
    | cons b rest =>
        rw [hdrop] at hhead hdropped
        intro x hx hxa
        rcases List.mem_cons.mp hx with rfl | hrest
        · simp [hxa] at hhead
        · have hbx := (List.pairwise_cons.mp hdropped).1 x hrest
          simp [hle.trans b x a hbx hxa] at hhead
  generalize s.takeWhile (fun x => le x a) = before at hsplit hbefore ⊢
  generalize s.dropWhile (fun x => le x a) = after at hsplit hafter ⊢
  subst hsplit
  obtain ⟨hfirst, hlast, hcross⟩ := List.pairwise_append.mp hsorted
  refine (eq_mergeSort_of_filter hle ?_ fun c => ?_).symm
  · refine List.pairwise_append.mpr ⟨hfirst, List.pairwise_cons.mpr ⟨?_, hlast⟩, ?_⟩
    · exact fun x hx => hle.of_not (hafter x hx)
    · intro x hx y hy
      rcases List.mem_cons.mp hy with rfl | hy
      · exact hbefore x hx
      · exact hcross x hx y hy
  · rw [List.filter_append, List.filter_append, ← hties, List.filter_append, List.append_assoc,
      List.filter_cons]
    split
    · rename_i hca
      rw [tied, Bool.and_eq_true] at hca
      have hnone : after.filter (tied le c) = [] := by
        refine List.filter_eq_nil_iff.mpr fun x hx htied => hafter x hx ?_
        rw [tied, Bool.and_eq_true] at htied
        exact hle.trans x c a htied.2 hca.1
      simp [hnone, tied, hca]
    · rename_i hca
      simp [hca]

/-- The head of the stable sort is the first of its ties, and all before it come strictly
after it; without it the rest is the stable sort. -/
theorem mergeSort_head {l rest : List α} {a : α} (hsort : l.mergeSort le = a :: rest) :
    ∃ before after, l = before ++ a :: after ∧ (∀ x ∈ before, ¬ le x a) ∧
      (∀ x ∈ after, le a x) ∧ (before ++ after).mergeSort le = rest := by
  have hsorted := List.pairwise_mergeSort hle.trans hle.total l
  have hties := filter_mergeSort hle l
  have hleast : ∀ x ∈ l, le a x := by
    intro x hx
    rw [← (List.mergeSort_perm l le).mem_iff, hsort] at hx
    rw [hsort] at hsorted
    rcases List.mem_cons.mp hx with rfl | hrest
    · exact hle.refl x
    · exact (List.pairwise_cons.mp hsorted).1 x hrest
  rw [hsort] at hsorted hties
  have hclass := hties a
  rw [List.filter_cons_of_pos (hle.tied_self a)] at hclass
  obtain ⟨before, after, rfl, hbefore, -, -⟩ := List.filter_eq_cons_iff.mp hclass.symm
  have hstrict : ∀ x ∈ before, ¬ le x a := by
    intro x hx hxa
    refine hbefore x hx ?_
    rw [tied, Bool.and_eq_true]
    exact ⟨hleast x (List.mem_append_left _ hx), hxa⟩
  refine ⟨before, after, rfl, hstrict, fun x hx => ?_, ?_⟩
  · exact hleast x (List.mem_append_right _ (List.mem_cons_of_mem a hx))
  · refine (eq_mergeSort_of_filter hle hsorted.of_cons fun c => ?_).symm
    have hc := hties c
    rw [List.filter_append, List.filter_cons, List.filter_cons] at hc
    rw [List.filter_append]
    split at hc
    · rename_i hca
      rw [tied, Bool.and_eq_true] at hca
      have hnone : before.filter (tied le c) = [] := by
        refine List.filter_eq_nil_iff.mpr fun x hx htied => hstrict x hx ?_
        rw [tied, Bool.and_eq_true] at htied
        exact hle.trans x c a htied.2 hca.1
      rw [hnone, List.nil_append] at hc ⊢
      exact (List.cons.inj hc).2
    · exact hc

end

end Chronos.Library.StableSort
