import Mathlib.Data.Finmap
import Mathlib.Data.List.Nodup

namespace Chronos.Library.KeyedTable

/-- A finite map of records stored under their own key.  The map cannot hold a
record under a key that is not the record's. -/
structure Table {κ α : Type} [DecidableEq κ] (key : α → κ) where
  rows : Finmap (fun _ : κ => α)
  keyed : ∀ {k : κ} {a : α}, rows.lookup k = some a → key a = k

variable {κ α : Type} [DecidableEq κ] {key : α → κ}

def Table.get? (t : Table key) (k : κ) : Option α :=
  t.rows.lookup k

def Table.empty : Table key where
  rows := ∅
  keyed := by
    intro k a h
    simp at h

def Table.put (t : Table key) (a : α) : Table key where
  rows := t.rows.insert (key a) a
  keyed := by
    intro k b h
    by_cases hk : k = key a
    · subst hk
      rw [Finmap.lookup_insert] at h
      rw [Option.some.inj h]
    · rw [Finmap.lookup_insert_of_ne _ hk] at h
      exact t.keyed h

def Table.erase (t : Table key) (k : κ) : Table key where
  rows := t.rows.erase k
  keyed := by
    intro k' b h
    by_cases hk : k' = k
    · subst hk
      simp at h
    · rw [Finmap.lookup_erase_ne hk] at h
      exact t.keyed h

theorem key_of_get? {t : Table key} {k : κ} {a : α} (h : t.get? k = some a) :
    key a = k :=
  t.keyed h

@[simp] theorem get?_empty (k : κ) : (Table.empty : Table key).get? k = none :=
  Finmap.lookup_empty k

theorem get?_put (t : Table key) (a : α) (k : κ) :
    (t.put a).get? k = if k = key a then some a else t.get? k := by
  split
  · subst k
    exact Finmap.lookup_insert _
  · exact Finmap.lookup_insert_of_ne _ ‹_›

@[simp] theorem get?_put_self (t : Table key) (a : α) :
    (t.put a).get? (key a) = some a := by
  rw [get?_put, if_pos rfl]

theorem get?_put_of_ne (t : Table key) {a : α} {k : κ} (h : k ≠ key a) :
    (t.put a).get? k = t.get? k := by
  rw [get?_put, if_neg h]

theorem get?_put_iff_of_absent {t : Table key} {a : α} (habsent : t.get? (key a) = none)
    (b : α) : (t.put a).get? (key b) = some b ↔ t.get? (key b) = some b ∨ b = a := by
  rw [get?_put]
  split
  · rename_i hb
    rw [hb, habsent, Option.some.injEq, eq_comm]
    simp
  · rename_i hb
    constructor
    · exact Or.inl
    · rintro (hold | rfl)
      · exact hold
      · exact absurd rfl hb

theorem get?_erase (t : Table key) (k k' : κ) :
    (t.erase k').get? k = if k = k' then none else t.get? k := by
  split
  · subst k
    exact Finmap.lookup_erase k' t.rows
  · exact Finmap.lookup_erase_ne ‹_›

theorem get?_erase_of_none {t : Table key} {k : κ} (hk : t.get? k = none) (k' : κ) :
    (t.erase k').get? k = none := by
  rw [get?_erase, hk, ite_self]

theorem table_ext {t t' : Table key} (h : ∀ k, t.get? k = t'.get? k) : t = t' := by
  cases t
  cases t'
  congr
  exact Finmap.ext_lookup h

theorem put_put {t : Table key} {a b : α} (h : key a = key b) :
    (t.put a).put b = t.put b := by
  apply table_ext
  intro k
  simp only [get?_put, h]
  split <;> rfl

theorem put_comm {t : Table key} {a b : α} (h : key a ≠ key b) :
    (t.put a).put b = (t.put b).put a := by
  apply table_ext
  intro k
  simp only [get?_put]
  split
  · rename_i hb
    rw [if_neg (hb ▸ h.symm)]
  · rfl

def Table.keys (t : Table key) : Finset κ :=
  t.rows.keys

theorem mem_keys {t : Table key} {k : κ} : k ∈ t.keys ↔ ∃ a, t.get? k = some a := by
  rw [Table.keys, Finmap.mem_keys, Finmap.mem_iff]
  rfl

theorem notMem_keys {t : Table key} {k : κ} : k ∉ t.keys ↔ t.get? k = none := by
  rw [Table.keys, Finmap.mem_keys, ← Finmap.lookup_eq_none]
  rfl

def Table.inOrder (t : Table key) (order : List κ) : List α :=
  order.filterMap t.get?

theorem mem_inOrder {t : Table key} {order : List κ} {a : α} :
    a ∈ t.inOrder order ↔ key a ∈ order ∧ t.get? (key a) = some a := by
  simp only [Table.inOrder, List.mem_filterMap]
  constructor
  · rintro ⟨k, hk, hget⟩
    obtain rfl := key_of_get? hget
    exact ⟨hk, hget⟩
  · rintro ⟨hk, hget⟩
    exact ⟨_, hk, hget⟩

theorem map_key_inOrder_sublist (t : Table key) (order : List κ) :
    ((t.inOrder order).map key).Sublist order := by
  induction order with
  | nil => exact List.Sublist.slnil
  | cons k order ih =>
      rw [Table.inOrder, List.filterMap_cons]
      split
      · exact ih.cons k
      · rename_i a hget
        rw [List.map_cons, key_of_get? hget]
        exact ih.cons_cons k

theorem nodup_map_key_inOrder {t : Table key} {order : List κ} (h : order.Nodup) :
    ((t.inOrder order).map key).Nodup :=
  h.sublist (map_key_inOrder_sublist t order)

/-- The list names every key in use exactly once: an order in which a loop over
the map can visit it. -/
def Table.Enumerates (t : Table key) (order : List κ) : Prop :=
  order.Nodup ∧ order.toFinset = t.keys

instance (t : Table key) (order : List κ) : Decidable (t.Enumerates order) :=
  inferInstanceAs (Decidable (_ ∧ _))

theorem Enumerates.mem_inOrder {t : Table key} {order : List κ}
    (h : t.Enumerates order) {a : α} :
    a ∈ t.inOrder order ↔ t.get? (key a) = some a := by
  rw [KeyedTable.mem_inOrder, and_iff_right_iff_imp]
  intro hget
  rw [← List.mem_toFinset, h.2, mem_keys]
  exact ⟨a, hget⟩

theorem Enumerates.length_inOrder_le {t : Table key} {order : List κ} (h : t.Enumerates order) :
    (t.inOrder order).length ≤ t.keys.card := by
  rw [← h.2, List.toFinset_card_of_nodup h.1]
  exact List.length_filterMap_le _ _

/-- The keys of the records that satisfy `select`. -/
def Table.matching (t : Table key) (select : α → Bool) : Finset κ :=
  t.keys.filter fun k => (t.get? k).any select

theorem mem_matching {t : Table key} {select : α → Bool} {k : κ} :
    k ∈ t.matching select ↔ ∃ a, t.get? k = some a ∧ select a := by
  rw [Table.matching, Finset.mem_filter, mem_keys]
  cases t.get? k with
  | none => simp
  | some a => simp

theorem matching_put (t : Table key) (select : α → Bool) (a : α) :
    (t.put a).matching select =
      if select a then insert (key a) (t.matching select)
      else (t.matching select).erase (key a) := by
  ext k
  rw [mem_matching, get?_put]
  by_cases hk : k = key a
  · subst hk
    cases hselect : select a <;> simp [hselect]
  · cases hselect : select a <;> simp [hk, mem_matching]

theorem Enumerates.length_filter {t : Table key} {order : List κ} (h : t.Enumerates order)
    (select : α → Bool) :
    ((t.inOrder order).filter select).length = (t.matching select).card := by
  have hnodup : (((t.inOrder order).filter select).map key).Nodup :=
    (nodup_map_key_inOrder h.1).sublist (List.filter_sublist.map key)
  rw [← List.length_map (f := key), ← List.toFinset_card_of_nodup hnodup]
  congr 1
  ext k
  simp only [List.mem_toFinset, List.mem_map, List.mem_filter, mem_matching]
  constructor
  · rintro ⟨a, ⟨ha, hselect⟩, rfl⟩
    exact ⟨a, (Enumerates.mem_inOrder h).mp ha, hselect⟩
  · rintro ⟨a, ha, hselect⟩
    obtain rfl := key_of_get? ha
    exact ⟨a, ⟨(Enumerates.mem_inOrder h).mpr ha, hselect⟩, rfl⟩

theorem exists_enumerates_first {t : Table key} {k : κ} (hk : k ∈ t.keys) :
    ∃ rest, t.Enumerates (k :: rest) := by
  refine ⟨(t.keys.erase k).toList, List.nodup_cons.mpr ⟨?_, Finset.nodup_toList _⟩, ?_⟩
  · rw [Finset.mem_toList]
    exact Finset.notMem_erase k _
  · rw [List.toFinset_cons, Finset.toList_toFinset, Finset.insert_erase hk]

theorem exists_enumerates_last {t : Table key} {k : κ} (hk : k ∈ t.keys) :
    ∃ rest, t.Enumerates (rest ++ [k]) ∧ k ∉ rest := by
  obtain ⟨rest, hnodup, hkeys⟩ := exists_enumerates_first hk
  obtain ⟨hfirst, hrest⟩ := List.nodup_cons.mp hnodup
  refine ⟨rest, ⟨?_, ?_⟩, hfirst⟩
  · rw [List.nodup_append]
    refine ⟨hrest, List.nodup_singleton k, ?_⟩
    rintro a ha _ hb rfl
    rw [List.mem_singleton.mp hb] at ha
    exact hfirst ha
  · rw [← hkeys, List.toFinset_append, List.toFinset_cons, List.toFinset_cons,
      List.toFinset_nil, Finset.union_comm]
    rfl

/-- A loop over the map can visit any stored records first. -/
theorem exists_enumerates_append {t : Table key} {items : List α}
    (hnodup : (items.map key).Nodup) (hstored : ∀ a ∈ items, t.get? (key a) = some a) :
    ∃ rest, t.Enumerates (items.map key ++ rest) ∧
      t.inOrder (items.map key ++ rest) = items ++ t.inOrder rest := by
  refine ⟨(t.keys \ (items.map key).toFinset).toList, ⟨?_, ?_⟩, ?_⟩
  · refine List.nodup_append.mpr ⟨hnodup, Finset.nodup_toList _, ?_⟩
    rintro k hk _ hrest rfl
    exact (Finset.mem_sdiff.mp (Finset.mem_toList.mp hrest)).2 (List.mem_toFinset.mpr hk)
  · rw [List.toFinset_append, Finset.toList_toFinset]
    refine Finset.union_sdiff_of_subset fun k hk => ?_
    obtain ⟨a, ha, rfl⟩ := List.mem_map.mp (List.mem_toFinset.mp hk)
    exact mem_keys.mpr ⟨a, hstored a ha⟩
  · rw [Table.inOrder, List.filterMap_append]
    congr 1
    rw [List.filterMap_map]
    exact (List.filterMap_congr fun a ha => hstored a ha).trans (List.filterMap_some)

/-- A loop that stops after `n` records that it selects can find any `n` of them, or all if
there are not more. -/
theorem exists_take_eq {t : Table key} {items : List α} {select : α → Bool} {n : Nat}
    (hnodup : (items.map key).Nodup) (hstored : ∀ a ∈ items, t.get? (key a) = some a)
    (hselect : ∀ a ∈ items, select a)
    (hfull : items.length = n ∨
      items.length ≤ n ∧ ∀ a, t.get? (key a) = some a → select a → a ∈ items) :
    ∃ order, t.Enumerates order ∧ ((t.inOrder order).filter select).take n = items := by
  obtain ⟨rest, horder, hsplit⟩ := exists_enumerates_append hnodup hstored
  refine ⟨_, horder, ?_⟩
  rw [hsplit, List.filter_append, List.filter_eq_self.mpr hselect]
  rcases hfull with hlength | ⟨hlength, hall⟩
  · exact List.take_left' hlength
  · have hnone : (t.inOrder rest).filter select = [] := by
      refine List.filter_eq_nil_iff.mpr fun a ha hsel => ?_
      obtain ⟨hrest, hget⟩ := mem_inOrder.mp ha
      have hitem := List.mem_map_of_mem (f := key) (hall a hget hsel)
      exact (List.nodup_append.mp horder.1).2.2 _ hitem _ hrest rfl
    rw [hnone, List.append_nil, List.take_of_length_le hlength]

section Copies

variable {κ' β : Type} [DecidableEq κ'] {key' : β → κ'}

/-- The second table holds the records of the first one and no others, each as `read` has it
and under the name that its key has there. -/
structure Table.Copies (name : κ → κ') (read : α → β) (t : Table key) (t' : Table key') :
    Prop where
  get : ∀ k, t'.get? (name k) = (t.get? k).map read
  named : ∀ {k' b}, t'.get? k' = some b → ∃ k, name k = k'

variable {name : κ → κ'} {read : α → β} {t : Table key} {t' : Table key'}

theorem copies_empty : (Table.empty : Table key).Copies name read (Table.empty : Table key') where
  get := by
    intro k
    rw [get?_empty, get?_empty, Option.map_none]
  named := by
    intro k' b hb
    rw [get?_empty] at hb
    exact absurd hb.symm (Option.some_ne_none b)

theorem copies_put (h : t.Copies name read t') (hname : Function.Injective name)
    (hkey : ∀ a, key' (read a) = name (key a)) (a : α) :
    (t.put a).Copies name read (t'.put (read a)) where
  get := by
    intro k
    rw [get?_put, get?_put, hkey, h.get]
    by_cases hk : k = key a
    · rw [if_pos hk, if_pos (congrArg name hk), Option.map_some]
    · rw [if_neg hk, if_neg fun heq => hk (hname heq)]
  named := by
    intro k' b hb
    rw [get?_put] at hb
    split at hb
    · rename_i hk
      exact ⟨key a, hk ▸ (hkey a).symm⟩
    · exact h.named hb

theorem Copies.stored_iff (h : t.Copies name read t') (b : β) :
    t'.get? (key' b) = some b ↔ ∃ a, t.get? (key a) = some a ∧ read a = b ∧
      name (key a) = key' b := by
  constructor
  · intro hb
    obtain ⟨k, hk⟩ := h.named hb
    rw [← hk, h.get] at hb
    obtain ⟨a, ha, hread⟩ := Option.map_eq_some_iff.mp hb
    obtain rfl := key_of_get? ha
    exact ⟨a, ha, hread, hk⟩
  · rintro ⟨a, ha, rfl, hname⟩
    rw [← hname, h.get, ha, Option.map_some]

end Copies

theorem get?_foldl_put_of_notMem {items : List α} {k : κ} (hk : k ∉ items.map key)
    (t : Table key) : (items.foldl Table.put t).get? k = t.get? k := by
  induction items generalizing t with
  | nil => rfl
  | cons a items ih =>
      rw [List.map_cons, List.mem_cons, not_or] at hk
      rw [List.foldl_cons, ih hk.2, get?_put_of_ne t hk.1]

theorem get?_foldl_put_of_mem {items : List α} (hitems : (items.map key).Nodup) {a : α}
    (ha : a ∈ items) (t : Table key) : (items.foldl Table.put t).get? (key a) = some a := by
  induction items generalizing t with
  | nil => exact absurd ha List.not_mem_nil
  | cons b items ih =>
      obtain ⟨hfirst, hrest⟩ := List.nodup_cons.mp hitems
      rw [List.foldl_cons]
      rcases List.mem_cons.mp ha with rfl | hmem
      · rw [get?_foldl_put_of_notMem hfirst, get?_put_self]
      · exact ih hrest hmem (t.put b)

/-- An update of the records that satisfy `select`, one after another, changes each of them
once. -/
theorem get?_update {t : Table key} {order : List κ} (h : t.Enumerates order)
    (select : α → Bool) (f : α → α) (hf : ∀ a, key (f a) = key a) (k : κ) :
    ((((t.inOrder order).filter select).map f).foldl Table.put t).get? k =
      (t.get? k).map fun a => if select a then f a else a := by
  have hkeys : ((((t.inOrder order).filter select).map f).map key) =
      ((t.inOrder order).filter select).map key := by
    rw [List.map_map]
    exact List.map_congr_left fun a _ => hf a
  have hnodup : ((((t.inOrder order).filter select).map f).map key).Nodup := by
    rw [hkeys]
    exact (nodup_map_key_inOrder h.1).sublist (List.filter_sublist.map key)
  by_cases hk : ∃ a, t.get? k = some a ∧ select a
  · obtain ⟨a, ha, hselect⟩ := hk
    obtain rfl := key_of_get? ha
    have hmem : f a ∈ ((t.inOrder order).filter select).map f :=
      List.mem_map_of_mem (List.mem_filter.mpr ⟨(Enumerates.mem_inOrder h).mpr ha, hselect⟩)
    rw [ha, Option.map_some, if_pos hselect, ← hf a, get?_foldl_put_of_mem hnodup hmem]
  · have hnotMem : k ∉ (((t.inOrder order).filter select).map f).map key := by
      rw [hkeys, List.mem_map]
      rintro ⟨a, ha, rfl⟩
      obtain ⟨hrow, hselect⟩ := List.mem_filter.mp ha
      exact hk ⟨a, (Enumerates.mem_inOrder h).mp hrow, hselect⟩
    rw [get?_foldl_put_of_notMem hnotMem]
    cases ha : t.get? k with
    | none => rfl
    | some a => rw [Option.map_some, if_neg fun hselect => hk ⟨a, ha, hselect⟩]

/-- The same keys are in use, and every record is as it was or changed as `R`
allows. -/
structure Table.Evolves (R : α → α → Prop) (t t' : Table key) : Prop where
  kept : ∀ {k a}, t.get? k = some a → ∃ a', t'.get? k = some a' ∧ (a' = a ∨ R a a')
  absent : ∀ {k}, t.get? k = none → t'.get? k = none

theorem evolves_refl (R : α → α → Prop) (t : Table key) : t.Evolves R t where
  kept := fun {_ a} h => ⟨a, h, Or.inl rfl⟩
  absent := id

theorem evolves_put {R : α → α → Prop} {t : Table key} {a a' : α}
    (h : t.get? (key a') = some a) (hR : R a a') : t.Evolves R (t.put a') where
  kept := by
    intro k b hb
    rw [get?_put]
    split
    · rename_i hk
      subst hk
      obtain rfl := Option.some.inj (h.symm.trans hb)
      exact ⟨a', rfl, Or.inr hR⟩
    · exact ⟨b, hb, Or.inl rfl⟩
  absent := by
    intro k hk
    rw [get?_put_of_ne]
    · exact hk
    · rintro rfl
      simp [h] at hk

theorem evolves_trans {R : α → α → Prop} (hR : ∀ a b c, R a b → R b c → R a c)
    {t t' t'' : Table key} (h : t.Evolves R t') (h' : t'.Evolves R t'') :
    t.Evolves R t'' where
  kept := by
    intro k a ha
    obtain ⟨b, hb, hab⟩ := h.kept ha
    obtain ⟨c, hc, hbc⟩ := h'.kept hb
    refine ⟨c, hc, ?_⟩
    rcases hbc with rfl | hbc
    · exact hab
    · rcases hab with rfl | hab
      · exact Or.inr hbc
      · exact Or.inr (hR _ _ _ hab hbc)
  absent := fun hk => h'.absent (h.absent hk)

section Grows

variable {γ : Type} {f : α → γ} {t t' t'' : Table key}

/-- No record is dropped, and `f` of every record stays what it is. -/
def Table.Grows (f : α → γ) (t t' : Table key) : Prop :=
  ∀ {k a}, t.get? k = some a → ∃ a', t'.get? k = some a' ∧ f a' = f a

theorem grows_refl (f : α → γ) (t : Table key) : t.Grows f t :=
  fun {_ a} h => ⟨a, h, rfl⟩

theorem grows_trans (h : t.Grows f t') (h' : t'.Grows f t'') : t.Grows f t'' := by
  intro k a ha
  obtain ⟨b, hb, hab⟩ := h ha
  obtain ⟨c, hc, hbc⟩ := h' hb
  exact ⟨c, hc, hbc.trans hab⟩

theorem grows_put {a : α} (h : ∀ b, t.get? (key a) = some b → f a = f b) :
    t.Grows f (t.put a) := by
  intro k b hb
  rw [get?_put]
  split
  · rename_i hk
    exact ⟨a, rfl, h b (hk ▸ hb)⟩
  · exact ⟨b, hb, rfl⟩

theorem grows_keys (h : t.Grows f t') {k : κ} (hk : k ∈ t.keys) : k ∈ t'.keys := by
  obtain ⟨a, ha⟩ := mem_keys.mp hk
  obtain ⟨a', ha', -⟩ := h ha
  exact mem_keys.mpr ⟨a', ha'⟩

theorem mem_keys_put {a : α} {k : κ} : k ∈ (t.put a).keys ↔ k = key a ∨ k ∈ t.keys := by
  rw [mem_keys, mem_keys, get?_put]
  split
  · rename_i hk
    simp [hk]
  · rename_i hk
    simp [hk]

end Grows

end Chronos.Library.KeyedTable
