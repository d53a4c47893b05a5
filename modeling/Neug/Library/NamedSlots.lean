import Mathlib.Data.List.Nodup

/-! # Slots with names

Names get numbered slots.  A name that is given up leaves its slot to the next new name; until
then the slot keeps the old name but is not found by it.  The index finds exactly the slots
that are in use, so a name stands in one slot at most.
-/

namespace Library

open Function List

/-- Numbered slots, the index of the names in use, and the slots given up, the last one
first. -/
structure NamedSlots (κ : Type*) where
  keys : List κ
  index : κ → Option Nat
  free : List Nat
  index_iff : ∀ k i, index k = some i ↔ keys[i]? = some k ∧ i ∉ free
  free_lt : ∀ i ∈ free, i < keys.length
  free_nodup : free.Nodup

namespace NamedSlots

variable {κ : Type*} {s s' : NamedSlots κ} {k : κ} {i : Nat}

def empty : NamedSlots κ where
  keys := []
  index := fun _ => none
  free := []
  index_iff := by simp
  free_lt := by simp
  free_nodup := nodup_nil

theorem lt_of_index (h : s.index k = some i) : i < s.keys.length :=
  (List.getElem?_eq_some_iff.mp ((s.index_iff k i).mp h).1).1

theorem notMem_free_of_index (h : s.index k = some i) : i ∉ s.free :=
  ((s.index_iff k i).mp h).2

variable {limit : Nat} {k' : κ}

/-- A slot has one name. -/
theorem eq_of_index (h : s.index k = some i) (h' : s.index k' = some i) : k = k' :=
  Option.some.inj (((s.index_iff k i).mp h).1.symm.trans ((s.index_iff k' i).mp h').1)

theorem exists_index (hlt : i < s.keys.length) (hfree : i ∉ s.free) :
    ∃ k, s.keys[i]? = some k ∧ s.index k = some i := by
  have hkey := getElem?_eq_getElem hlt
  exact ⟨s.keys[i], hkey, (s.index_iff _ i).mpr ⟨hkey, hfree⟩⟩

variable [DecidableEq κ]

def reuse (s : NamedSlots κ) (k : κ) (i : Nat) (rest : List Nat) (hfree : s.free = i :: rest)
    (hnew : s.index k = none) : NamedSlots κ where
  keys := s.keys.set i k
  index := update s.index k (some i)
  free := rest
  index_iff := by
    intro k' j
    have hmem : ∀ j, j ∈ s.free ↔ j = i ∨ j ∈ rest := fun j => by rw [hfree, mem_cons]
    have hlt : i < s.keys.length := s.free_lt i ((hmem i).mpr (.inl rfl))
    have hrest : i ∉ rest := (nodup_cons.mp (hfree ▸ s.free_nodup)).1
    by_cases hk : k' = k
    · subst hk
      rw [update_self, Option.some.injEq]
      constructor
      · rintro rfl
        exact ⟨getElem?_set_self hlt, hrest⟩
      · rintro ⟨hkey, hj⟩
        by_contra hne
        rw [getElem?_set_ne hne] at hkey
        have hindex := (s.index_iff k' j).mpr ⟨hkey, fun hfreed =>
          ((hmem j).mp hfreed).elim (fun heq => hne heq.symm) hj⟩
        rw [hnew] at hindex
        cases hindex
    · rw [update_of_ne hk, s.index_iff, hmem]
      by_cases hj : j = i
      · subst hj
        rw [getElem?_set_self hlt]
        simp [Ne.symm hk]
      · rw [getElem?_set_ne (Ne.symm hj)]
        simp [hj]
  free_lt := by
    intro j hj
    rw [length_set]
    exact s.free_lt j (hfree ▸ mem_cons_of_mem i hj)
  free_nodup := (nodup_cons.mp (hfree ▸ s.free_nodup)).2

theorem index_append_iff (s : NamedSlots κ) (k : κ) (hfree : s.free = []) (hnew : s.index k = none)
    (k' : κ) (j : Nat) : update s.index k (some s.keys.length) k' = some j ↔
      (s.keys ++ [k])[j]? = some k' ∧ j ∉ [] := by
  have hold : s.index k' = some j ↔ s.keys[j]? = some k' := by
    rw [s.index_iff, hfree]
    simp
  by_cases hk : k' = k
  · subst hk
    rw [update_self, Option.some.injEq]
    constructor
    · rintro rfl
      simp
    · rintro ⟨hkey, -⟩
      rcases Nat.lt_trichotomy j s.keys.length with hlt | heq | hgt
      · rw [getElem?_append_left hlt, ← hold, hnew] at hkey
        cases hkey
      · exact heq.symm
      · rw [getElem?_eq_none (by simp; omega)] at hkey
        cases hkey
  · rw [update_of_ne hk, hold]
    rcases Nat.lt_or_ge j s.keys.length with hlt | hge
    · rw [getElem?_append_left hlt]
      simp
    · rw [getElem?_eq_none hge, getElem?_append_right hge]
      cases j - s.keys.length with
      | zero => simp [Ne.symm hk]
      | succ n => simp

def append (s : NamedSlots κ) (k : κ) (hfree : s.free = []) (hnew : s.index k = none) :
    NamedSlots κ where
  keys := s.keys ++ [k]
  index := update s.index k (some s.keys.length)
  free := []
  index_iff := s.index_append_iff k hfree hnew
  free_lt := by simp
  free_nodup := nodup_nil

/-- A name gets a slot, the one it has if it has one.  There is none if all slots up to the
limit are in use. -/
def add (limit : Nat) (s : NamedSlots κ) (k : κ) : Option (NamedSlots κ × Nat) :=
  match hk : s.index k with
  | some i => some (s, i)
  | none =>
    match hfree : s.free with
    | i :: rest => some (s.reuse k i rest hfree hk, i)
    | [] =>
      if limit ≤ s.keys.length then none else some (s.append k hfree hk, s.keys.length)

def remove (s : NamedSlots κ) (k : κ) : NamedSlots κ :=
  match hk : s.index k with
  | none => s
  | some i =>
    { keys := s.keys
      index := update s.index k none
      free := i :: s.free
      index_iff := by
        intro k' j
        by_cases hk' : k' = k
        · subst hk'
          rw [update_self]
          constructor
          · intro h
            cases h
          · rintro ⟨hkey, hj⟩
            rw [mem_cons, not_or] at hj
            have hindex := (s.index_iff k' j).mpr ⟨hkey, hj.2⟩
            rw [hk] at hindex
            exact absurd (Option.some.inj hindex).symm hj.1
        · rw [update_of_ne hk', s.index_iff, mem_cons, not_or]
          constructor
          · rintro ⟨hkey, hj⟩
            refine ⟨hkey, ?_, hj⟩
            rintro rfl
            exact hk' (eq_of_index ((s.index_iff k' j).mpr ⟨hkey, hj⟩) hk)
          · rintro ⟨hkey, -, hj⟩
            exact ⟨hkey, hj⟩
      free_lt := forall_mem_cons.mpr ⟨lt_of_index hk, s.free_lt⟩
      free_nodup := nodup_cons.mpr ⟨notMem_free_of_index hk, s.free_nodup⟩ }

structure Added (s s' : NamedSlots κ) (k : κ) (i : Nat) : Prop where
  index_eq : s'.index = update s.index k (some i)
  mem_free : ∀ j, j ∈ s'.free ↔ j ∈ s.free ∧ j ≠ i
  fresh : s.index k = some i ∨ s.index k = none ∧ ∀ k', s.index k' ≠ some i
  le_length : i ≤ s.keys.length
  length_eq : s'.keys.length = max s.keys.length (i + 1)

theorem add_added (h : s.add limit k = some (s', i)) : Added s s' k i := by
  unfold add at h
  split at h
  next j hk =>
    cases h
    have hfree := notMem_free_of_index hk
    have hlt := lt_of_index hk
    refine ⟨?_, ?_, .inl hk, Nat.le_of_lt hlt, (Nat.max_eq_left hlt).symm⟩
    · rw [← hk, update_eq_self]
    · intro j'
      constructor
      · intro hj'
        exact ⟨hj', fun heq => hfree (heq ▸ hj')⟩
      · exact fun h => h.1
  next hk =>
    split at h
    next j rest hfree =>
      cases h
      have hmem : i ∈ s.free := hfree ▸ mem_cons_self
      have hrest : i ∉ rest := (nodup_cons.mp (hfree ▸ s.free_nodup)).1
      have hlt := s.free_lt i hmem
      refine ⟨rfl, ?_, .inr ⟨hk, ?_⟩, Nat.le_of_lt hlt, ?_⟩
      · intro j
        change j ∈ rest ↔ j ∈ s.free ∧ j ≠ i
        rw [hfree, mem_cons]
        constructor
        · intro hj
          exact ⟨.inr hj, fun heq => hrest (heq ▸ hj)⟩
        · rintro ⟨hj, hne⟩
          exact hj.resolve_left hne
      · exact fun k' hk' => notMem_free_of_index hk' hmem
      · exact (length_set ..).trans (Nat.max_eq_left hlt).symm
    next hfree =>
      split at h
      · cases h
      cases h
      refine ⟨rfl, ?_, .inr ⟨hk, ?_⟩, Nat.le_refl _, ?_⟩
      · intro j
        change j ∈ [] ↔ j ∈ s.free ∧ j ≠ s.keys.length
        rw [hfree]
        simp
      · exact fun k' hk' => absurd (lt_of_index hk') (Nat.lt_irrefl _)
      · exact length_append.trans (Nat.max_eq_right (Nat.le_succ _)).symm

theorem length_le_of_add (h : s.add limit k = some (s', i)) :
    s'.keys.length ≤ max limit s.keys.length := by
  unfold add at h
  split at h
  · cases h
    exact Nat.le_max_right _ _
  split at h
  · cases h
    exact Nat.le_trans (Nat.le_of_eq (length_set ..)) (Nat.le_max_right _ _)
  split at h
  · cases h
  next hroom =>
    cases h
    have hlength : (s.keys ++ [k]).length = s.keys.length + 1 := length_append
    change (s.keys ++ [k]).length ≤ _
    omega

theorem Added.index_self (h : Added s s' k i) : s'.index k = some i := by
  rw [h.index_eq, update_self]

theorem Added.index_of_ne (h : Added s s' k i) (hne : k' ≠ k) : s'.index k' = s.index k' := by
  rw [h.index_eq, update_of_ne hne]

/-- Names keep their slots. -/
theorem Added.index_of_index (h : Added s s' k i) {j : Nat} (hk' : s.index k' = some j) :
    s'.index k' = some j := by
  by_cases hne : k' = k
  · subst hne
    rw [h.index_self]
    rcases h.fresh with hsome | ⟨hnone, -⟩
    · exact hsome.symm.trans hk'
    · rw [hnone] at hk'
      cases hk'
  · rw [h.index_of_ne hne, hk']

theorem add_of_index (hk : s.index k = some i) : s.add limit k = some (s, i) := by
  unfold add
  split
  next j hj =>
    rw [hk] at hj
    cases hj
    rfl
  next hnone =>
    rw [hk] at hnone
    cases hnone

theorem remove_of_index (hk : s.index k = some i) :
    (s.remove k).keys = s.keys ∧ (s.remove k).index = update s.index k none ∧
      (s.remove k).free = i :: s.free := by
  unfold remove
  split
  next hnone =>
    rw [hk] at hnone
    cases hnone
  next j hj =>
    rw [hk] at hj
    cases hj
    exact ⟨rfl, rfl, rfl⟩

theorem remove_of_none (hk : s.index k = none) : s.remove k = s := by
  unfold remove
  split
  next => rfl
  next j hj =>
    rw [hk] at hj
    cases hj

theorem remove_keys (s : NamedSlots κ) (k : κ) : (s.remove k).keys = s.keys := by
  cases hk : s.index k with
  | none => rw [remove_of_none hk]
  | some i => exact (remove_of_index hk).1

/-- Without slots given up, a new name comes last. -/
theorem add_of_free_nil (hfree : s.free = []) (hnew : k ∉ s.keys) (hroom : s.keys.length < limit) :
    ∃ s', s.add limit k = some (s', s.keys.length) ∧ s'.keys = s.keys ++ [k] ∧ s'.free = [] := by
  have hnone : s.index k = none := by
    cases hk : s.index k with
    | none => rfl
    | some i => exact absurd (mem_of_getElem? ((s.index_iff k i).mp hk).1) hnew
  refine ⟨s.append k hfree hnone, ?_, rfl, rfl⟩
  unfold add
  split
  next i hi =>
    rw [hnone] at hi
    cases hi
  next =>
    split
    next i rest hcons =>
      rw [hfree] at hcons
      cases hcons
    next => exact if_neg (Nat.not_le.mpr hroom)

end NamedSlots

end Library
