import Mathlib.Data.List.Sort
import Mathlib.Data.List.Perm.Subperm

/-! # Positions in lists

A list whose elements stay at their places and are marked, not removed, has two ways to
name an element: its position, and its rank among the elements that satisfy a predicate.
The two agree for an element exactly when nothing before it is left out.  The other
rules say what a loop that changes one position per round leaves behind.
-/

namespace Library

open List

variable {α : Type*}

/-- The positions of the elements that satisfy a predicate, in order. -/
def positions (p : α → Bool) (l : List α) : List Nat :=
  (range l.length).filter fun i => (l[i]?).any p

theorem mem_positions {p : α → Bool} {l : List α} {i : Nat} :
    i ∈ positions p l ↔ ∃ a, l[i]? = some a ∧ p a = true := by
  simp only [positions, mem_filter, mem_range, Option.any_eq_true]
  constructor
  · rintro ⟨-, a, ha, hp⟩
    exact ⟨a, ha, hp⟩
  · rintro ⟨a, ha, hp⟩
    exact ⟨(List.getElem?_eq_some_iff.mp ha).1, a, ha, hp⟩

theorem positions_increasing (p : α → Bool) (l : List α) : (positions p l).Pairwise (· < ·) :=
  pairwise_lt_range.filter _

/-! ### Ranks -/

section Ranks

variable {s : List Nat} {k a : Nat}

section

variable (hs : s.Pairwise (· < ·)) (ha : s[k]? = some a)
include hs ha

/-- In an increasing list the elements before `a` are those below `a`. -/
theorem mem_take_iff_lt {j : Nat} : j ∈ s.take k ↔ j ∈ s ∧ j < a := by
  obtain ⟨hlt, rfl⟩ := List.getElem?_eq_some_iff.mp ha
  have hsplit := take_append_drop k s
  rw [drop_eq_getElem_cons hlt] at hsplit
  rw [← hsplit, pairwise_append] at hs
  obtain ⟨-, hdrop, hbelow⟩ := hs
  constructor
  · intro hj
    exact ⟨mem_of_mem_take hj, hbelow j hj _ mem_cons_self⟩
  · rintro ⟨hj, hja⟩
    rw [← hsplit, mem_append] at hj
    refine hj.resolve_right fun hafter => ?_
    rcases mem_cons.mp hafter with rfl | hrest
    · exact Nat.lt_irrefl _ hja
    · exact Nat.lt_asymm hja ((pairwise_cons.mp hdrop).1 j hrest)

theorem take_subperm_range : (s.take k).Subperm (range a) := by
  apply (hs.sublist (take_sublist k s)).nodup.subperm
  intro j hj
  exact mem_range.mpr ((mem_take_iff_lt hs ha).mp hj).2

theorem rank_le : k ≤ a := by
  have hle := (take_subperm_range hs ha).length_le
  rwa [length_take_of_le (List.getElem?_eq_some_iff.mp ha).1.le, length_range] at hle

/-- The rank of an element of an increasing list is the element itself exactly when
every smaller number is in the list. -/
theorem rank_eq_iff : k = a ↔ ∀ j < a, j ∈ s := by
  have hlength : (s.take k).length = k :=
    length_take_of_le (List.getElem?_eq_some_iff.mp ha).1.le
  constructor
  · intro heq j hj
    have hperm := (take_subperm_range hs ha).perm_of_length_le
      (by rw [hlength, length_range, heq])
    exact mem_of_mem_take (hperm.mem_iff.mpr (mem_range.mpr hj))
  · intro hall
    apply Nat.le_antisymm (rank_le hs ha)
    have hrange : range a ⊆ s.take k := fun j hj =>
      (mem_take_iff_lt hs ha).mpr ⟨hall j (mem_range.mp hj), mem_range.mp hj⟩
    simpa only [hlength, length_range] using (nodup_range.subperm hrange).length_le

end

end Ranks

/-- The elements that a predicate selects, each with its rank in the whole list. -/
def ranked (q : α → Bool) (s : List α) : List (α × Nat) := s.zipIdx.filter fun m => q m.1

theorem mem_ranked {q : α → Bool} {s : List α} {m : α × Nat} :
    m ∈ ranked q s ↔ s[m.2]? = some m.1 ∧ q m.1 = true := by
  rw [ranked, mem_filter, mem_zipIdx_iff_getElem?]

theorem ranked_map_fst (q : α → Bool) (s : List α) : (ranked q s).map Prod.fst = s.filter q := by
  conv_rhs => rw [← zipIdx_map_fst 0 s, filter_map]
  rfl

theorem ranked_map_snd_increasing (q : α → Bool) (s : List α) :
    ((ranked q s).map Prod.snd).Pairwise (· < ·) := by
  have hsub : ((ranked q s).map Prod.snd).Sublist (s.zipIdx.map Prod.snd) :=
    filter_sublist.map _
  rw [zipIdx_map_snd] at hsub
  exact (pairwise_lt_range').sublist hsub

/-- The ranks of the selected elements of an increasing list cover these elements exactly
when no number below a selected element is left out. -/
theorem filter_subset_ranks_iff {s : List Nat} (hs : s.Pairwise (· < ·)) (q : Nat → Bool) :
    s.filter q ⊆ (ranked q s).map Prod.snd ↔ ∀ a ∈ s.filter q, ∀ j < a, j ∈ s := by
  constructor
  · intro hsubset
    have hperm : (s.filter q).Perm ((ranked q s).map Prod.snd) := by
      apply ((hs.filter q).nodup.subperm hsubset).perm_of_length_le
      rw [← ranked_map_fst, length_map, length_map]
    have heq := hperm.eq_of_pairwise' (hs.filter q) (ranked_map_snd_increasing q s)
    rw [← ranked_map_fst] at heq
    intro a ha
    rw [← ranked_map_fst] at ha
    obtain ⟨m, hm, rfl⟩ := mem_map.mp ha
    have hrank : m.2 = m.1 := (map_inj_left.mp heq m hm).symm
    exact (rank_eq_iff hs (mem_ranked.mp hm).1).mp hrank
  · intro hall a ha
    obtain ⟨hmem, hq⟩ := mem_filter.mp ha
    obtain ⟨k, hk⟩ := mem_iff_getElem?.mp hmem
    obtain rfl := (rank_eq_iff hs hk).mpr (hall a ha)
    exact mem_map.mpr ⟨(k, k), mem_ranked.mpr ⟨hk, hq⟩, rfl⟩

/-- The search in an increasing list finds the least element that satisfies the
predicate. -/
theorem find?_eq_some_iff_least {s : List Nat} (hs : s.Pairwise (· < ·)) {p : Nat → Bool}
    {a : Nat} : s.find? p = some a ↔ a ∈ s ∧ p a = true ∧ ∀ b ∈ s, b < a → p b = false := by
  rw [find?_eq_some_iff_append]
  constructor
  · rintro ⟨hp, before, after, rfl, hbefore⟩
    obtain ⟨-, htail, -⟩ := pairwise_append.mp hs
    refine ⟨mem_append_right _ mem_cons_self, hp, fun b hb hlt => ?_⟩
    rcases mem_append.mp hb with hb | hb
    · simpa using hbefore b hb
    · rcases mem_cons.mp hb with rfl | hb
      · exact absurd hlt (Nat.lt_irrefl b)
      · exact absurd hlt (Nat.lt_asymm ((pairwise_cons.mp htail).1 b hb))
  · rintro ⟨ha, hp, hleast⟩
    obtain ⟨before, after, rfl⟩ := append_of_mem ha
    obtain ⟨-, -, hlt⟩ := pairwise_append.mp hs
    refine ⟨hp, before, after, rfl, fun b hb => ?_⟩
    rw [hleast b (mem_append_left _ hb) (hlt b hb a mem_cons_self)]
    rfl

/-! ### Changing positions -/

/-- A loop that applies a change at one position per round applies it at every position
that comes up, if applying it again changes nothing. -/
theorem getElem?_foldl_modify {f : α → α} (hf : ∀ a, f (f a) = f a) (slots : List Nat)
    (l : List α) (i : Nat) : (slots.foldl (fun l slot => l.modify slot f) l)[i]? =
      (l[i]?).map fun a => if i ∈ slots then f a else a := by
  induction slots generalizing l with
  | nil => simp
  | cons slot rest ih =>
    rw [foldl_cons, ih, getElem?_modify]
    cases l[i]? with
    | none => rfl
    | some a =>
      by_cases hslot : slot = i
      · subst hslot
        by_cases hrest : slot ∈ rest <;> simp [hrest, hf]
      · simp [hslot, Ne.symm hslot]

end Library
