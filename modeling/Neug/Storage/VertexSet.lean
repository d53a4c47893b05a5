import Neug.Storage.VertexTimestampDump

/-! # Vertex sets

The ids below a limit that are valid at a timestamp can be visited by a callback or by an
iterator, and counted.  The callback gets every compacted id that is not removed, also those
from the limit on; for a limit from the number of compacted ids on the three agree.
-/

namespace Neug.Storage

open List

namespace VertexTimestamp

/-- The ids that `foreach_vertex` calls its function with. -/
def foreachVertex (vt : VertexTimestamp) (vnum ts : Nat) : List Nat :=
  let limit := min vnum vt.maxVertexNum
  let compacted := (range vt.initVertexNum).filter (· ∉ vt.removed)
  if limit ≤ vt.initVertexNum then compacted
  else compacted ++ ((range (limit - vt.initVertexNum)).filter fun i =>
    vt.inserted i ≠ kDeletedTimestamp && vt.inserted i ≤ ts).map (vt.initVertexNum + ·)

/-- The loop of an iterator's constructor, and that of `operator++` after its first step. -/
def skipInvalid (vt : VertexTimestamp) (ts limit v : Nat) : Nat :=
  if v < limit ∧ vt.isVertexValid v ts = false then vt.skipInvalid ts limit (v + 1) else v
termination_by limit - v

theorem le_skipInvalid (vt : VertexTimestamp) (ts limit v : Nat) :
    v ≤ vt.skipInvalid ts limit v := by
  fun_induction skipInvalid vt ts limit v with
  | case1 v _ ih => exact Nat.le_of_succ_le ih
  | case2 v _ => exact Nat.le_refl v

/-- The ids from an iterator up to `end()`, which it never passes. -/
def iterateFrom (vt : VertexTimestamp) (ts limit v : Nat) : List Nat :=
  if v < limit then v :: vt.iterateFrom ts limit (vt.skipInvalid ts limit (v + 1)) else []
termination_by limit - v
decreasing_by
  have hnext := vt.le_skipInvalid ts limit (v + 1)
  omega

/-- The ids from `begin()` on. -/
def iterate (vt : VertexTimestamp) (limit ts : Nat) : List Nat :=
  vt.iterateFrom ts limit (vt.skipInvalid ts limit 0)

/-- The ids below the limit that are reported valid one by one. -/
def validIds (vt : VertexTimestamp) (limit ts : Nat) : List Nat :=
  (range limit).filter (vt.isVertexValid · ts)

variable {vt : VertexTimestamp} {limit ts v : Nat}

theorem iterateFrom_skipInvalid (n v : Nat) :
    vt.iterateFrom ts (v + n) (vt.skipInvalid ts (v + n) v) =
      (range' v n).filter (vt.isVertexValid · ts) := by
  induction n generalizing v with
  | zero => simp [skipInvalid, iterateFrom]
  | succ n ih =>
    have hnext := ih (v + 1)
    rw [Nat.add_right_comm] at hnext
    rw [range'_succ, skipInvalid]
    cases hvalid : vt.isVertexValid v ts with
    | false =>
      rw [if_pos ⟨by omega, rfl⟩, filter_cons, hvalid]
      exact hnext
    | true =>
      rw [if_neg (by simp), iterateFrom, if_pos (by omega), filter_cons, hvalid]
      exact congrArg (v :: ·) hnext

theorem iterate_eq (vt : VertexTimestamp) (limit ts : Nat) :
    vt.iterate limit ts = vt.validIds limit ts := by
  have hall := @iterateFrom_skipInvalid vt ts limit 0
  rwa [Nat.zero_add, ← range_eq_range'] at hall

theorem validIds_add (m n : Nat) : vt.validIds (m + n) ts =
    vt.validIds m ts ++ ((range n).filter fun i => vt.isVertexValid (m + i) ts).map (m + ·) := by
  rw [validIds, range_add, filter_append, filter_map]
  rfl

theorem validIds_add_eq_iff (m n : Nat) : vt.validIds (m + n) ts = vt.validIds m ts ↔
    ∀ v, m ≤ v → v < m + n → vt.isVertexValid v ts = false := by
  rw [validIds_add, append_right_eq_self, map_eq_nil_iff, filter_eq_nil_iff]
  constructor
  · intro h v hm hn
    have hv := h (v - m) (mem_range.mpr (by omega))
    rwa [Nat.add_sub_cancel' hm, Bool.not_eq_true] at hv
  · intro h i hi
    rw [h (m + i) (Nat.le_add_right m i) (Nat.add_lt_add_left (mem_range.mp hi) m)]
    exact Bool.false_ne_true

theorem isVertexValid_compacted (hv : v < vt.initVertexNum) :
    vt.isVertexValid v ts = (v ∉ vt.removed : Bool) := by
  have hmax := Nat.lt_of_lt_of_le hv vt.init_le_max
  simp [isVertexValid, Nat.not_le.mpr hv, Nat.not_le.mpr hmax]

/-- The callback gets the ids below the end of the compacted range at least. -/
theorem foreachVertex_eq (vt : VertexTimestamp) (limit ts : Nat) :
    vt.foreachVertex limit ts =
      vt.validIds (max vt.initVertexNum (min limit vt.maxVertexNum)) ts := by
  have hcompacted : (range vt.initVertexNum).filter (· ∉ vt.removed) =
      vt.validIds vt.initVertexNum ts := by
    apply filter_congr
    intro v hv
    exact (isVertexValid_compacted (mem_range.mp hv)).symm
  simp only [foreachVertex, hcompacted]
  split
  next hlow => rw [Nat.max_eq_left hlow]
  next hhigh =>
    have hsplit : max vt.initVertexNum (min limit vt.maxVertexNum) =
        vt.initVertexNum + (min limit vt.maxVertexNum - vt.initVertexNum) := by omega
    rw [hsplit, validIds_add]
    congr 2
    apply filter_congr
    intro i hi
    have hmax : ¬vt.maxVertexNum ≤ vt.initVertexNum + i := by
      rw [mem_range] at hi
      omega
    simp [isVertexValid, hmax]

/-- No id from the capacity on is valid. -/
theorem validIds_min (vt : VertexTimestamp) (limit ts : Nat) :
    vt.validIds (min limit vt.maxVertexNum) ts = vt.validIds limit ts := by
  have hsplit : limit = min limit vt.maxVertexNum + (limit - min limit vt.maxVertexNum) := by omega
  conv_rhs => rw [hsplit]
  symm
  rw [validIds_add_eq_iff]
  intro v hm hn
  simp [isVertexValid, show vt.maxVertexNum ≤ v by omega]

theorem foreachVertex_eq_validIds_iff (vt : VertexTimestamp) (limit ts : Nat) :
    vt.foreachVertex limit ts = vt.validIds limit ts ↔
      ∀ v, limit ≤ v → v < vt.initVertexNum → v ∈ vt.removed := by
  rw [foreachVertex_eq]
  rcases Nat.lt_or_ge vt.initVertexNum limit with hhigh | hlow
  · have hinit := vt.init_le_max
    rw [Nat.max_eq_right (by omega), validIds_min]
    exact iff_of_true rfl fun v hv hlt => by omega
  · have hinit := vt.init_le_max
    rw [Nat.max_eq_left (by omega), ← Nat.add_sub_cancel' hlow, validIds_add_eq_iff]
    refine forall_congr' fun v => imp_congr_right fun _ => ?_
    rw [Nat.add_sub_cancel' hlow]
    refine imp_congr_right fun hv => ?_
    rw [isVertexValid_compacted hv]
    simp

/-- Visiting the ids by callback, by iterator and counting them agree with the ids reported valid
exactly if every compacted id from the limit on is removed. -/
theorem visited_and_counted_iff (h : Reached vt) (limit ts : Nat) :
    (vt.foreachVertex limit ts = vt.validIds limit ts ∧
        vt.iterate limit ts = vt.validIds limit ts ∧
          vt.validVertexNum ts limit = (vt.validIds limit ts).length) ↔
      ∀ v, limit ≤ v → v < vt.initVertexNum → v ∈ vt.removed := by
  have hcount : vt.validVertexNum ts limit = (vt.validIds limit ts).length := by
    rw [validVertexNum_eq h.separated_and_narrow.1, Nat.count, countP_eq_length_filter]
    simp [validIds]
  rw [foreachVertex_eq_validIds_iff]
  exact and_iff_left ⟨iterate_eq vt limit ts, hcount⟩

/-- Of two compacted ids and one inserted at timestamp 5, one compacted id is removed. -/
theorem foreachVertex_after_removal :
    let vt := TimestampOp.after (TimestampOp.after (init 2 4) (.removeVertex 1))
      (.insertVertex 2 5 false)
    vt.foreachVertex 3 5 = vt.validIds 3 5 ∧ vt.validIds 3 5 = [0, 2] := by
  intro vt
  have hreached : Reached vt :=
    .after (.after (.init (by decide) (by decide)) trivial) (Nat.le_of_ble_eq_true rfl)
  refine ⟨((visited_and_counted_iff hreached 3 5).mpr ?_).1, by decide⟩
  intro v hv hinit
  exact absurd (Nat.lt_of_lt_of_le hinit (by decide)) (Nat.not_lt.mpr hv)

/-- With a limit of one id the callback gets both compacted ids. -/
theorem foreachVertex_beyond_limit : Reached (init 2 4) ∧
    (init 2 4).foreachVertex 1 0 = [0, 1] ∧ (init 2 4).validIds 1 0 = [0] :=
  ⟨.init (by decide) (by decide), by decide, by decide⟩

end VertexTimestamp

end Neug.Storage
