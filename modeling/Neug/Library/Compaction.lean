import Mathlib.Data.List.Basic

/-! # Filtering an array in place

A loop moves the elements that are kept to the front of their array and records for each
element whether it was kept.  Other arrays, which were split in chunks and not filtered, are
read with the recorded flags later.
-/

namespace Library

open List

variable {α β : Type*}

/-- The state of the loop: the array, the number of elements kept, and the flags so far. -/
structure Compacting (α : Type*) where
  items : List α
  count : Nat
  flags : List Bool

variable (p : α → Bool)

def compactRound (s : Compacting α) (i : Nat) : Compacting α :=
  match s.items[i]? with
  | none => s
  | some a =>
    if p a then ⟨s.items.set s.count a, s.count + 1, s.flags ++ [true]⟩
    else ⟨s.items, s.count, s.flags ++ [false]⟩

variable (items : List α)

def compactInPlace : List α × List Bool :=
  let s := (range items.length).foldl (compactRound p) ⟨items, 0, []⟩
  (s.items.take s.count, s.flags)

/-- The state after some rounds: behind the elements that were kept the array is as it was. -/
def compacted (i : Nat) : Compacting α :=
  let kept := (items.take i).filter p
  ⟨kept ++ items.drop kept.length, kept.length, (items.take i).map p⟩

theorem length_filter_take_le (i : Nat) : ((items.take i).filter p).length ≤ i :=
  Nat.le_trans (length_filter_le _ _) (length_take_le i items)

theorem compactRound_compacted {items : List α} {i : Nat} (hi : i < items.length) :
    compactRound p (compacted p items i) i = compacted p items (i + 1) := by
  have hle := length_filter_take_le p items i
  -- the loop reads an element that no round has overwritten
  have hread : (compacted p items i).items[i]? = some items[i] := by
    rw [compacted, getElem?_append_right hle, getElem?_drop, Nat.add_sub_cancel' hle,
      getElem?_eq_getElem hi]
  have htake : items.take (i + 1) = items.take i ++ [items[i]] := by
    rw [take_add_one, getElem?_eq_getElem hi, Option.toList_some]
  rw [compactRound, hread]
  simp only [compacted, htake, filter_append, map_append, map_cons, map_nil,
    filter_cons, filter_nil]
  cases p items[i] with
  | false => simp only [Bool.false_eq_true, if_false, append_nil]
  | true =>
    have hroom : ((items.take i).filter p).length < items.length := Nat.lt_of_le_of_lt hle hi
    simp only [if_true, length_append, length_singleton]
    congr 1
    rw [set_append_right _ _ (Nat.le_refl _), Nat.sub_self,
      drop_eq_getElem_cons hroom, set_cons_zero, append_assoc]
    rfl

theorem foldl_compactRound {n : Nat} (hn : n ≤ items.length) :
    (range n).foldl (compactRound p) ⟨items, 0, []⟩ = compacted p items n := by
  induction n with
  | zero => rfl
  | succ n ih =>
    rw [range_succ, foldl_append, ih (Nat.le_of_succ_le hn)]
    exact compactRound_compacted p hn

/-- The loop filters, and the flags say for each element whether it was kept. -/
theorem compactInPlace_eq : compactInPlace p items = (items.filter p, items.map p) := by
  rw [compactInPlace, foldl_compactRound p items (Nat.le_refl _)]
  simp only [compacted, take_length, take_left]

/-! ## Reading with the flags -/

/-- The rows of a chunk of `n` rows whose flags, from position `cur` on, are set. -/
def validRows (flags : List Bool) (cur n : Nat) : List Nat :=
  (range n).filter fun i => flags.getD (cur + i) false

/-- A chunk of rows, read by the flags of all rows, gives those that were kept. -/
theorem map_validRows (p : β → Bool) (f : β → α) (d : α) (rows : List β)
    (before after : List Bool) :
    (validRows (before ++ rows.map p ++ after) before.length rows.length).map
      (fun i => (rows.map f).getD i d) = (rows.filter p).map f := by
  induction rows generalizing before with
  | nil => rfl
  | cons row rest ih =>
    have hflags : before ++ (row :: rest).map p ++ after =
        (before ++ [p row]) ++ rest.map p ++ after := by
      simp only [map_cons, append_assoc, cons_append, nil_append]
    have hhead : (before ++ (row :: rest).map p ++ after).getD (before.length + 0) false =
        p row := by
      simp [getD_eq_getElem?_getD]
    have htail := ih (before ++ [p row])
    rw [length_append, length_singleton, ← hflags] at htail
    generalize before ++ (row :: rest).map p ++ after = flags at hhead htail ⊢
    have hnext : ((range rest.length).map Nat.succ).filter
          (fun i => flags.getD (before.length + i) false) =
        (validRows flags (before.length + 1) rest.length).map Nat.succ := by
      rw [validRows, filter_map]
      congr 1
      apply filter_congr
      intro i _
      simp only [Function.comp, Nat.succ_eq_add_one, Nat.add_assoc, Nat.add_comm 1 i]
    rw [validRows, length_cons, range_succ_eq_map, filter_cons, hhead, hnext]
    cases hp : p row with
    | false =>
      simp only [Bool.false_eq_true, if_false, filter_cons, hp, map_map]
      exact htail
    | true =>
      simp only [if_true, filter_cons, hp, map_cons, map_map]
      exact congrArg _ htail

end Library
