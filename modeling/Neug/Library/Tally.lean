import Neug.Library.Levels
import Mathlib.Data.List.AList
import Mathlib.Data.List.Sections

/-! # Maps that gather what comes under each key

A loop over a list amends a map at the key of each element.  What the map holds at a key in
the end depends only on the elements with that key.  Counting and collecting are two cases;
collecting from one list after the other gives the combinations of one element of each.
-/

namespace Library

open List

variable {K A B : Type*} [DecidableEq K]

def valueAt (e : A) (m : AList fun _ : K => A) (k : K) : A :=
  (m.lookup k).getD e

def amend (e : A) (m : AList fun _ : K => A) (k : K) (f : A → A) : AList fun _ : K => A :=
  m.insert k (f (valueAt e m k))

section Amend

variable {e : A} {m : AList fun _ : K => A} {k k' : K}

@[simp] theorem valueAt_empty : valueAt e (∅ : AList fun _ : K => A) k = e := by
  simp [valueAt]

theorem valueAt_amend {f : A → A} :
    valueAt e (amend e m k f) k' = if k' = k then f (valueAt e m k') else valueAt e m k' := by
  by_cases h : k' = k
  · subst h
    simp [amend, valueAt]
  · rw [if_neg h]
    simp [amend, valueAt, AList.lookup_insert_ne h]

theorem valueAt_foldl {step : (AList fun _ : K => A) → B → AList fun _ : K => A} (key : B → K)
    (f : B → A → A) (hstep : ∀ m b k, valueAt e (step m b) k =
      if k = key b then f b (valueAt e m k) else valueAt e m k) (l : List B) :
    valueAt e (l.foldl step m) k =
      (l.filter (key · = k)).foldl (fun a b => f b a) (valueAt e m k) := by
  induction l generalizing m with
  | nil => rfl
  | cons b l ih =>
    rw [foldl_cons, ih, hstep]
    by_cases h : key b = k
    · subst h
      simp
    · have h' : ¬ k = key b := fun heq => h heq.symm
      simp [h, h']

theorem valueAt_foldl_append {m : AList fun _ : K => List A} {k : K}
    {step : (AList fun _ : K => List A) → B → AList fun _ : K => List A} (key : B → K)
    (f : B → List A) (hstep : ∀ m b k, valueAt [] (step m b) k =
      if k = key b then valueAt [] m k ++ f b else valueAt [] m k) (l : List B) :
    valueAt [] (l.foldl step m) k = valueAt [] m k ++ (l.filter (key · = k)).flatMap f := by
  rw [valueAt_foldl key (fun b a => a ++ f b) hstep]
  generalize valueAt [] m k = start
  induction l.filter (key · = k) generalizing start with
  | nil => simp
  | cons b l ih => simp [ih]

theorem valueAt_of_isEmpty {m : AList fun _ : K => A} (h : m.entries.isEmpty = true) (e : A)
    (k : K) :
    valueAt e m k = e := by
  obtain ⟨entries, hnodup⟩ := m
  obtain rfl : entries = [] := List.isEmpty_iff.mp h
  rfl

/-- Reading the rows of one key out of the rows of all entries. -/
theorem filter_flatMap_entries (m : AList fun _ : K => A) (rows : K → A → List B) (p : B → Bool)
    (x : K) (hp : ∀ k a, ∀ b ∈ rows k a, p b = true ↔ k = x) :
    (m.entries.flatMap fun entry => rows entry.1 entry.2).filter p =
      ((m.lookup x).map (rows x)).getD [] := by
  obtain ⟨entries, hnodup⟩ := m
  have hself : ∀ a, (rows x a).filter p = rows x a := fun a =>
    filter_eq_self.mpr fun b hb => (hp x a b hb).mpr rfl
  have hother : ∀ k a, k ≠ x → (rows k a).filter p = [] := fun k a hne =>
    filter_eq_nil_iff.mpr fun b hb hpb => hne ((hp k a b hb).mp hpb)
  change (entries.flatMap fun entry => rows entry.1 entry.2).filter p =
    ((entries.dlookup x).map (rows x)).getD []
  induction entries with
  | nil => rfl
  | cons entry entries ih =>
    obtain ⟨k, a⟩ := entry
    obtain ⟨hhead, hrest⟩ := nodupKeys_cons.mp hnodup
    rw [flatMap_cons, filter_append, ih hrest]
    by_cases hk : k = x
    · subst hk
      rw [hself, dlookup_cons_eq, dlookup_eq_none.mpr hhead]
      simp
    · rw [hother k a hk, dlookup_cons_ne _ _ (Ne.symm hk), nil_append]

end Amend

/-! ## Counting -/

/-- Counts the elements of the list, each as often as `weight` says; elements without a
weight are left out. -/
def countUp (weight : K → Option Nat) (l : List K) : AList fun _ : K => Nat :=
  l.foldl (fun m k =>
    match weight k with
    | some n => amend 0 m k (· + n)
    | none => m) ∅

def writeOut (m : AList fun _ : K => Nat) : List K :=
  m.entries.flatMap fun entry => replicate entry.2 entry.1

theorem valueAt_countUp (weight : K → Option Nat) (l : List K) (x : K) :
    valueAt 0 (countUp weight l) x = l.count x * (weight x).getD 0 := by
  have hsum : ∀ start, (l.filter (· = x)).foldl (fun n k => n + (weight k).getD 0) start =
      start + l.count x * (weight x).getD 0 := by
    induction l with
    | nil => simp
    | cons k l ih =>
      intro start
      by_cases h : k = x
      · subst h
        simp [ih, Nat.add_mul, Nat.add_assoc, Nat.add_comm]
      · simp [h, ih]
  rw [countUp, valueAt_foldl id fun k n => n + (weight k).getD 0]
  · exact (hsum _).trans (by rw [valueAt_empty, Nat.zero_add])
  · intro m k k'
    cases hw : weight k with
    | none => simp
    | some n => exact valueAt_amend

theorem count_writeOut (m : AList fun _ : K => Nat) (x : K) :
    (writeOut m).count x = valueAt 0 m x := by
  have hrows := filter_flatMap_entries m (fun k n => replicate n k) (· == x) x
    fun k n b hb => by rw [(mem_replicate.mp hb).2, beq_iff_eq]
  rw [writeOut, List.count, countP_eq_length_filter, hrows, valueAt]
  cases m.lookup x <;> simp

/-! ## Combinations -/

/-- The combinations of one element of each list, gathered list by list. -/
theorem foldl_extend_perm_sections (L : List (List A)) (acc : List (List A)) :
    (L.foldl (fun acc l => l.flatMap fun a => acc.map (· ++ [a])) acc).Perm
      (acc.flatMap fun p => L.sections.map (p ++ ·)) := by
  induction L generalizing acc with
  | nil => simp [sections]
  | cons l L ih =>
    refine (ih _).trans ?_
    simp only [flatMap_assoc, flatMap_map, sections, map_flatMap, map_map]
    refine (flatMap_comm_perm l acc fun a p => L.sections.map (p ++ [a] ++ ·)).trans ?_
    refine Perm.flatMap_left _ fun p _ => ?_
    simp only [map_eq_flatMap]
    refine (flatMap_comm_perm l L.sections fun a q => [p ++ [a] ++ q]).trans ?_
    refine Perm.of_eq ?_
    simp

theorem nodup_sections {L : List (List A)} (h : ∀ l ∈ L, l.Nodup) : L.sections.Nodup := by
  induction L with
  | nil => simp [sections]
  | cons l L ih =>
    rw [sections, nodup_flatMap]
    refine ⟨?_, ?_⟩
    · intro q _
      refine (h l mem_cons_self).map ?_
      intro a b hab
      exact (List.cons.inj hab).1
    · -- combinations that differ in a later list stay different
      refine (ih fun l' hl' => h l' (mem_cons_of_mem l hl')).imp ?_
      intro q q' hne c hc hc'
      obtain ⟨a, -, rfl⟩ := mem_map.mp hc
      obtain ⟨b, -, hb⟩ := mem_map.mp hc'
      exact hne (List.cons.inj hb).2.symm

theorem length_sections (L : List (List A)) : L.sections.length = (L.map List.length).prod := by
  induction L with
  | nil => rfl
  | cons l L ih => simp [sections, ih, Nat.mul_comm]

end Library
