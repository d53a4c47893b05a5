import Mathlib.Algebra.Order.Group.Multiset

/-! # Lists with owners

An adjacency structure is an array of lists, one per owner.  What it stores is the
multiset of all elements, each with its owner.  The rules here say how this multiset
changes when the lists of all owners change in the same way, or one list or one position
changes.
-/

namespace Library

open Function List

variable {α β : Type*}

def owned (n : Nat) (lists : Nat → List α) : List (Nat × α) :=
  (range n).flatMap fun v => (lists v).map (v, ·)

theorem owned_succ (n : Nat) (lists : Nat → List α) :
    owned (n + 1) lists = owned n lists ++ (lists n).map (n, ·) := by
  simp only [owned, range_succ, flatMap_append, flatMap_cons, flatMap_nil, append_nil]

variable {lists : Nat → List α} {n v : Nat}

theorem mem_owned {x : Nat × α} : x ∈ owned n lists ↔ x.1 < n ∧ x.2 ∈ lists x.1 := by
  simp only [owned, mem_flatMap, mem_range, mem_map]
  constructor
  · rintro ⟨v, hv, a, ha, rfl⟩
    exact ⟨hv, ha⟩
  · rintro ⟨hv, ha⟩
    exact ⟨x.1, hv, x.2, ha, rfl⟩

theorem owned_congr {lists' : Nat → List α} (h : ∀ v < n, lists v = lists' v) :
    owned n lists = owned n lists' :=
  flatMap_congr fun v hv => by rw [h v (mem_range.mp hv)]

theorem owned_nil (n : Nat) : owned n (fun _ => ([] : List α)) = [] := by
  simp [owned]

theorem owned_of_le {m : Nat} (hle : n ≤ m) (hnil : ∀ v, n ≤ v → lists v = []) :
    owned m lists = owned n lists := by
  induction m, hle using Nat.le_induction with
  | base => rfl
  | succ m hle ih => rw [owned_succ, ih, hnil m hle, map_nil, append_nil]

theorem owned_map (n : Nat) (lists : Nat → List α) (f : Nat → α → β) :
    owned n (fun v => (lists v).map (f v)) = (owned n lists).map fun x => (x.1, f x.1 x.2) := by
  simp only [owned, map_flatMap, map_map]
  rfl

theorem owned_filter (n : Nat) (lists : Nat → List α) (p : Nat → α → Bool) :
    owned n (fun v => (lists v).filter (p v)) = (owned n lists).filter fun x => p x.1 x.2 := by
  simp only [owned, filter_flatMap, filter_map]
  rfl

theorem owned_perm {lists' : Nat → List α} (h : ∀ v, (lists v).Perm (lists' v)) :
    (owned n lists).Perm (owned n lists') :=
  Perm.flatMap_left _ fun v _ => (h v).map _

theorem owned_filter_owner (lists : Nat → List α) (hv : v < n) :
    (owned n lists).filter (fun x => decide (x.1 = v)) = (lists v).map (v, ·) := by
  induction n with
  | zero => exact absurd hv (Nat.not_lt_zero v)
  | succ n ih =>
    rw [owned_succ, filter_append]
    rcases Nat.lt_succ_iff_lt_or_eq.mp hv with hlt | rfl
    · have hother : ((lists n).map (n, ·)).filter (fun x => decide (x.1 = v)) = [] := by
        simp [filter_eq_nil_iff, Nat.ne_of_gt hlt]
      rw [ih hlt, hother, append_nil]
    · have hothers : (owned v lists).filter (fun x => decide (x.1 = v)) = [] := by
        rw [filter_eq_nil_iff]
        intro x hx
        simp [Nat.ne_of_lt (mem_owned.mp hx).1]
      have hown : ((lists v).map (v, ·)).filter (fun x => decide (x.1 = v)) =
          (lists v).map (v, ·) := by
        simp [filter_eq_self]
      rw [hothers, hown, nil_append]

/-- When one owner gets another list, its old elements are replaced by the new ones. -/
theorem owned_update (lists : Nat → List α) (l : List α) (hv : v < n) :
    (owned n (update lists v l) : Multiset (Nat × α)) + ↑((lists v).map (v, ·)) =
      ↑(owned n lists) + ↑(l.map (v, ·)) := by
  induction n with
  | zero => exact absurd hv (Nat.not_lt_zero v)
  | succ n ih =>
    simp only [owned_succ, ← Multiset.coe_add]
    rcases Nat.lt_succ_iff_lt_or_eq.mp hv with hlt | rfl
    · rw [update_of_ne (Nat.ne_of_gt hlt), add_right_comm, ih hlt, add_right_comm]
    · have hothers : owned v (update lists v l) = owned v lists :=
        owned_congr fun u hu => update_of_ne (Nat.ne_of_lt hu) _ _
      rw [update_self, hothers, add_right_comm]

theorem modify_add {l : List α} {i : Nat} {a : α} (f : α → α) (ha : l[i]? = some a) :
    (l.modify i f : Multiset α) + {a} = ↑l + {f a} := by
  induction l generalizing i with
  | nil => cases ha
  | cons b rest ih =>
    cases i with
    | zero =>
      obtain rfl : b = a := Option.some.inj ha
      rw [modify_zero_cons, ← Multiset.cons_coe, ← Multiset.cons_coe, Multiset.cons_add,
        Multiset.cons_add, add_comm (rest : Multiset α) {b}, add_comm (rest : Multiset α) {f b},
        Multiset.singleton_add, Multiset.singleton_add, Multiset.cons_swap]
    | succ i =>
      rw [modify_succ_cons, ← Multiset.cons_coe, ← Multiset.cons_coe,
        Multiset.cons_add, Multiset.cons_add, ih ha]

theorem owned_modify {i : Nat} {a : α} (lists : Nat → List α) (f : α → α) (hv : v < n)
    (ha : (lists v)[i]? = some a) :
    (owned n (update lists v ((lists v).modify i f)) : Multiset (Nat × α)) + {(v, a)} =
      ↑(owned n lists) + {(v, f a)} := by
  have hlist := congrArg (Multiset.map (v, ·)) (modify_add f ha)
  simp only [Multiset.map_add, Multiset.map_coe, Multiset.map_singleton] at hlist
  have hupdate := owned_update lists ((lists v).modify i f) hv
  apply add_right_cancel (b := ↑((lists v).map (v, ·)))
  rw [add_right_comm, hupdate, add_assoc, hlist, ← add_assoc, add_right_comm]

end Library
