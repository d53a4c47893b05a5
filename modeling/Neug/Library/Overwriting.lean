import Mathlib.Algebra.Order.Group.Multiset

/-! # Storing items, with changes and overwriting

Items are added to a store.  The store may change an item, may take items that should have
been left out, and may have one place per owner, where the last item overwrites the others.
The rules here say when the store ends up with what it had and the wanted items.
-/

namespace Library

open List

variable {α : Type*}

theorem singleton_eq_add_iff {a : α} {s t : Multiset α} :
    {a} = s + t ↔ s = 0 ∧ t = {a} ∨ s = {a} ∧ t = 0 := by
  constructor
  · intro h
    have hle : s ≤ {a} := h ▸ Multiset.le_add_right s t
    rcases Multiset.le_singleton.mp hle with rfl | rfl
    · exact .inl ⟨rfl, by rw [h, zero_add]⟩
    · exact .inr ⟨rfl, add_left_cancel (h.symm.trans (add_zero _).symm)⟩
  · rintro (⟨rfl, rfl⟩ | ⟨rfl, rfl⟩)
    · rw [zero_add]
    · rw [add_zero]

section Stores

variable (wanted : α → Bool) (keep : α → α)

/-- A store that takes all items has the wanted ones if it changes none and all of them are
wanted. -/
theorem add_map_eq_iff {stored : Multiset α} {items : List α}
    (hkeep : ∀ a ∈ items, keep (keep a) = keep a) :
    stored + ↑(items.map keep) = stored + ↑(items.filter wanted) ↔
      ∀ a ∈ items, wanted a = true ∧ keep a = a := by
  rw [add_right_inj, Multiset.coe_eq_coe]
  constructor
  · intro hperm
    have hlength := hperm.length_eq
    rw [length_map] at hlength
    have hall := length_filter_eq_length_iff.mp hlength.symm
    intro a ha
    have hmem : a ∈ items.map keep :=
      hperm.mem_iff.mpr (mem_filter.mpr ⟨ha, hall a ha⟩)
    obtain ⟨b, hb, rfl⟩ := mem_map.mp hmem
    exact ⟨hall _ ha, hkeep b hb⟩
  · intro hall
    rw [filter_eq_self.mpr fun a ha => (hall a ha).1]
    rw [map_congr_left fun a ha => (hall a ha).2, map_id']

variable (owner : α → Nat)

theorem eq_iff_filter_owner {s t : Multiset α} :
    s = t ↔ ∀ v, s.filter (owner · = v) = t.filter (owner · = v) := by
  classical
  constructor
  · rintro rfl v
    rfl
  · intro h
    ext a
    have hcount := congrArg (Multiset.count a) (h (owner a))
    have hown : owner a = owner a := rfl
    rwa [Multiset.count_filter_of_pos (p := (owner · = owner a)) hown,
      Multiset.count_filter_of_pos (p := (owner · = owner a)) hown] at hcount

/-- The last item of each owner is the only wanted one, kept as it is, and the place was
free; or no item is wanted, and the last one overwrites an equal one. -/
def FairlyOverwritten (stored : Multiset α) (items : List α) : Prop :=
  ∀ v before last, items.filter (owner · = v) = before ++ [last] →
    (∀ a ∈ before, wanted a = false) ∧
      (wanted last = true ∧ keep last = last ∧ stored.filter (owner · = v) = 0 ∨
        wanted last = false ∧ stored.filter (owner · = v) = {keep last})

/-- What a store with one place per owner has afterwards. -/
structure Overwritten (stored : Multiset α) (items : List α) (after : Multiset α) : Prop where
  same : ∀ v, items.filter (owner · = v) = [] →
    after.filter (owner · = v) = stored.filter (owner · = v)
  last : ∀ v before last, items.filter (owner · = v) = before ++ [last] →
    after.filter (owner · = v) = {keep last}

variable {wanted keep owner}

/-- The wanted items of an owner are the last one. -/
theorem filter_eq_singleton_keep_iff {before : List α} {last : α}
    (hwanted : wanted (keep last) = wanted last) :
    (↑((before ++ [last]).filter wanted) : Multiset α) = {keep last} ↔
      (∀ a ∈ before, wanted a = false) ∧ wanted last = true ∧ keep last = last := by
  rw [← Multiset.coe_singleton, Multiset.coe_eq_coe, perm_singleton, filter_append]
  cases hlast : wanted last with
  | false =>
    have hnone : [last].filter wanted = [] := by simp [hlast]
    rw [hnone, append_nil]
    constructor
    · intro heq
      -- the only wanted item would be the one that the last one was changed to
      have hmem : keep last ∈ before.filter wanted := heq ▸ mem_singleton_self _
      rw [mem_filter, hwanted, hlast] at hmem
      exact absurd hmem.2 Bool.false_ne_true
    · rintro ⟨-, h, -⟩
      cases h
  | true =>
    have hone : [last].filter wanted = [last] := by simp [hlast]
    have hnone : before.filter wanted = [] ↔ ∀ a ∈ before, wanted a = false := by
      simp only [filter_eq_nil_iff, Bool.not_eq_true]
    rw [hone, ← hnone]
    constructor
    · intro heq
      have hlength := congrArg List.length heq
      rw [length_append, length_singleton, length_singleton] at hlength
      have hnil : before.filter wanted = [] := length_eq_zero_iff.mp (by omega)
      rw [hnil, nil_append] at heq
      exact ⟨hnil, rfl, (singleton_inj.mp heq).symm⟩
    · rintro ⟨hnil, -, hkeep⟩
      rw [hnil, hkeep, nil_append]

theorem filter_owner_coe (items : List α) (v : Nat) :
    (↑(items.filter wanted) : Multiset α).filter (owner · = v) =
      ↑((items.filter (owner · = v)).filter wanted) := by
  rw [Multiset.filter_coe, filter_comm]

/-- A store with one place per owner has the wanted items if it overwrites fairly. -/
theorem Overwritten.eq_add_iff {stored after : Multiset α} {items : List α}
    (h : Overwritten keep owner stored items after)
    (hwanted : ∀ a ∈ items, wanted (keep a) = wanted a) : after = stored + ↑(items.filter wanted) ↔
      FairlyOverwritten wanted keep owner stored items := by
  have hlastMem : ∀ {v before last}, items.filter (owner · = v) = before ++ [last] →
      last ∈ items := fun {v before last} heq => by
    have hmem : last ∈ items.filter (owner · = v) := by
      rw [heq]
      exact mem_append_right _ (mem_singleton_self last)
    exact (mem_filter.mp hmem).1
  have hnone : ∀ {before : List α} {last : α},
      (↑((before ++ [last]).filter wanted) : Multiset α) = 0 ↔
        (∀ a ∈ before, wanted a = false) ∧ wanted last = false := fun {before last} => by
    rw [Multiset.coe_eq_zero, filter_eq_nil_iff]
    simp only [mem_append, mem_singleton, Bool.not_eq_true, or_imp, forall_and, forall_eq]
  rw [eq_iff_filter_owner owner]
  constructor
  · intro heq v before last hitems
    have hv := heq v
    rw [Multiset.filter_add, filter_owner_coe, h.last v before last hitems, hitems,
      singleton_eq_add_iff, filter_eq_singleton_keep_iff (hwanted last (hlastMem hitems)),
      hnone] at hv
    rcases hv with ⟨hfree, hbefore, hlast, hkeep⟩ | ⟨hsame, hbefore, hlast⟩
    · exact ⟨hbefore, .inl ⟨hlast, hkeep, hfree⟩⟩
    · exact ⟨hbefore, .inr ⟨hlast, hsame⟩⟩
  · intro hfair v
    rw [Multiset.filter_add, filter_owner_coe]
    rcases eq_nil_or_concat' (items.filter (owner · = v)) with hnil | ⟨before, last, hitems⟩
    · rw [h.same v hnil, hnil, filter_nil, Multiset.coe_nil, add_zero]
    · obtain ⟨hbefore, hcases⟩ := hfair v before last hitems
      rw [h.last v before last hitems, hitems, singleton_eq_add_iff,
        filter_eq_singleton_keep_iff (hwanted last (hlastMem hitems)), hnone]
      rcases hcases with ⟨hlast, hkeep, hfree⟩ | ⟨hlast, hsame⟩
      · exact .inl ⟨hfree, hbefore, hlast, hkeep⟩
      · exact .inr ⟨hsame, hbefore, hlast⟩

end Stores

end Library
