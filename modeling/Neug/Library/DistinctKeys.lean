import Mathlib.Data.List.Nodup

/-! # Lists of entries with distinct keys

An ordered dictionary is a list of entries whose keys are distinct.  Changing or removing the
entry of a key is the same by position and by key.
-/

namespace Library

open Function List

variable {κ α : Type*} [DecidableEq κ]

def rekey (old new k : κ) : κ := if k = old then new else k

theorem rekey_self (old : κ) : rekey old old = id := by
  funext k
  by_cases h : k = old
  · simp [rekey, h]
  · simp [rekey, h]

variable {keys : List κ} {old : κ} {i : Nat}

theorem map_rekey_of_notMem (new : κ) (h : old ∉ keys) : keys.map (rekey old new) = keys := by
  conv_rhs => rw [← map_id keys]
  apply map_congr_left
  intro k hk
  have hne : k ≠ old := fun heq => h (heq ▸ hk)
  simp [rekey, hne]

theorem nodup_map_rekey {new : κ} (hnodup : keys.Nodup) (hnew : new ∉ keys) :
    (keys.map (rekey old new)).Nodup := by
  refine hnodup.map_on ?_
  intro a ha b hb hab
  have hane : a ≠ new := fun heq => hnew (heq ▸ ha)
  have hbne : b ≠ new := fun heq => hnew (heq ▸ hb)
  unfold rekey at hab
  split at hab
  next haold =>
    split at hab
    next hbold => rw [haold, hbold]
    next => exact absurd hab.symm hbne
  next =>
    split at hab
    next => exact absurd hab hane
    next => exact hab

/-- Where the keys stand after one was replaced by a fresh one. -/
theorem getElem?_map_rekey {new : κ} (hnew : new ∉ keys) (i : Nat) (k : κ) :
    (keys.map (rekey old new))[i]? = some k ↔
      if k = new then keys[i]? = some old else k ≠ old ∧ keys[i]? = some k := by
  rw [getElem?_map]
  cases hi : keys[i]? with
  | none => simp
  | some a =>
    have hane : a ≠ new := fun heq => hnew (heq ▸ mem_of_getElem? hi)
    by_cases haold : a = old
    · subst haold
      by_cases hk : k = new
      · simp [rekey, hk]
      · simp [rekey, hk, Ne.symm hk, eq_comm]
    · by_cases hk : k = new
      · subst hk
        simp [rekey, haold, hane]
      · simp only [Option.map_some, Option.some.injEq, rekey, if_neg haold, if_neg hk]
        constructor
        · rintro rfl
          exact ⟨haold, rfl⟩
        · exact fun h => h.2

theorem set_eq_map_rekey (new : κ) (hnodup : keys.Nodup) (hi : keys[i]? = some old) :
    keys.set i new = keys.map (rekey old new) := by
  induction keys generalizing i with
  | nil => cases hi
  | cons k rest ih =>
    obtain ⟨hk, hrest⟩ := nodup_cons.mp hnodup
    cases i with
    | zero =>
      have hkold : k = old := by simpa using hi
      rw [set_cons_zero, map_cons, map_rekey_of_notMem new (hkold ▸ hk)]
      simp [rekey, hkold]
    | succ i =>
      have hi' : rest[i]? = some old := by simpa using hi
      have hne : k ≠ old := fun heq => hk (heq ▸ mem_of_getElem? hi')
      rw [set_cons_succ, map_cons, ih hrest hi']
      simp [rekey, hne]

section Erase

variable {l : List α} {k : κ} (key : α → κ)

theorem filter_eq_self_of_notMem (h : k ∉ l.map key) : l.filter (key · ≠ k) = l := by
  rw [filter_eq_self]
  intro e he
  simp only [decide_eq_true_eq]
  exact fun heq => h (heq ▸ mem_map_of_mem he)

theorem eraseIdx_eq_filter {i : Nat} (hnodup : (l.map key).Nodup)
    (hi : (l.map key)[i]? = some k) : l.eraseIdx i = l.filter (key · ≠ k) := by
  induction l generalizing i with
  | nil => cases hi
  | cons e rest ih =>
    obtain ⟨he, hrest⟩ := nodup_cons.mp hnodup
    cases i with
    | zero =>
      have hek : key e = k := by simpa using hi
      rw [eraseIdx_cons_zero, filter_cons_of_neg (by simp [hek]),
        filter_eq_self_of_notMem key (hek ▸ he)]
    | succ i =>
      have hi' : (rest.map key)[i]? = some k := by simpa using hi
      have hne : key e ≠ k := fun heq => he (heq ▸ mem_of_getElem? hi')
      rw [eraseIdx_cons_succ, filter_cons_of_pos (by simp [hne]), ih hrest hi']

end Erase

omit [DecidableEq κ] in
theorem eq_of_getElem?_eq_some {k : κ} {j : Nat} (hnodup : keys.Nodup) (hi : keys[i]? = some k)
    (hj : keys[j]? = some k) : i = j := by
  obtain ⟨hilt, hik⟩ := List.getElem?_eq_some_iff.mp hi
  obtain ⟨hjlt, hjk⟩ := List.getElem?_eq_some_iff.mp hj
  exact (hnodup.getElem_inj_iff).mp (hik.trans hjk.symm)

theorem idxOf?_eq_some_iff_of_nodup (hnodup : keys.Nodup) {k : κ} :
    keys.idxOf? k = some i ↔ keys[i]? = some k := by
  rw [idxOf?_eq_some_iff]
  constructor
  · rintro ⟨hlt, hat, -⟩
    rw [getElem?_eq_getElem hlt, hat]
  · intro hat
    obtain ⟨hlt, hkey⟩ := List.getElem?_eq_some_iff.mp hat
    refine ⟨hlt, hkey, fun j hj hsame => ?_⟩
    have hj' : keys[j]? = some k := by rw [getElem?_eq_getElem (by omega), hsame]
    exact absurd (eq_of_getElem?_eq_some hnodup hj' hat) (by omega)

section Writes

variable {β : Type*} (key : α → κ) (value : α → β) {l : List α}

theorem foldl_update_of_notMem {f : κ → β} {k : κ} (h : k ∉ l.map key) :
    l.foldl (fun f a => update f (key a) (value a)) f k = f k := by
  induction l generalizing f with
  | nil => rfl
  | cons a rest ih =>
    rw [map_cons, mem_cons, not_or] at h
    rw [foldl_cons, ih h.2, update_of_ne h.1]

/-- When values written under one key are the same, the key has that value in the end. -/
theorem foldl_update_of_mem (hsame : ∀ a ∈ l, ∀ b ∈ l, key a = key b → value a = value b)
    {f : κ → β} {a : α} (ha : a ∈ l) :
    l.foldl (fun f a => update f (key a) (value a)) f (key a) = value a := by
  induction l generalizing f a with
  | nil => cases ha
  | cons first rest ih =>
    rw [foldl_cons]
    by_cases hlater : key a ∈ rest.map key
    · obtain ⟨b, hb, hkey⟩ := mem_map.mp hlater
      rw [← hkey, ih (fun a ha b hb => hsame a (.tail _ ha) b (.tail _ hb)) hb]
      exact hsame b (.tail _ hb) a ha hkey
    · have hfirst : a = first := by
        rcases mem_cons.mp ha with rfl | hin
        · rfl
        · exact absurd (mem_map_of_mem hin) hlater
      rw [foldl_update_of_notMem key value hlater, hfirst, update_self]

end Writes

end Library
