import Mathlib.Data.Finset.Sort
import Neug.Library.Bytes
import Neug.Storage.VertexTimestampRuns

/-! # Checkpoints of vertex timestamps

A dump is a sequence of 32-bit words: the two bounds, the removed ids after their number, and the
entries after theirs.  Loading it into a new object gives back everything that is ever read.
-/

namespace Neug.Storage

open Library List TimestampOp

namespace VertexTimestamp

/-- What `dump_ts` writes; the removed ids come in the order of their set. -/
def dumpTs (vt : VertexTimestamp) : List UInt8 :=
  let vecSize := vt.maxVertexNum - vt.initVertexNum
  leBytes 4 vt.initVertexNum ++ (leBytes 4 vt.maxVertexNum ++ (leBytes 4 vt.removed.card ++
    (writeWords 4 vt.removed.sort ++ (leBytes 4 vecSize ++
      writeWords 4 ((range vecSize).map vt.inserted)))))

/-- `load_ts` into a new object.  The bounds are read into its fields, so that `Init` finds them
there and does nothing; an entry is `DELETED_TIMESTAMP` until it is read. -/
def loadTs (file : List UInt8) : Option VertexTimestamp :=
  let (initVertexNum, arc) := readWord 4 file
  let (maxVertexNum, arc) := readWord 4 arc
  let (removedSize, arc) := readWord 4 arc
  let (removed, arc) := readWords 4 removedSize arc
  let (vecSize, arc) := readWord 4 arc
  let (stamps, _) := readWords 4 vecSize arc
  if h : initVertexNum ≤ maxVertexNum then
    some ⟨initVertexNum, maxVertexNum, h, fun i => stamps.getD i kDeletedTimestamp,
      removed.toFinset⟩
  else none

end VertexTimestamp

/-- The timestamp or the size an operation is given is a 32-bit word; `Reserve` takes a larger
size too, but its loop over the new entries does not end then. -/
def TimestampOp.Narrow : TimestampOp → Prop
  | insertVertex _ n _ | revertRemoveVertex _ n | reserve n => n < 2 ^ 32
  | _ => True

namespace VertexTimestamp

/-- The states that operations and checkpoints lead to. -/
inductive Reached : VertexTimestamp → Prop
  | init {a b : Nat} (ha : a < 2 ^ 32) (hb : b < 2 ^ 32) : Reached (init a b)
  | after {vt : VertexTimestamp} {op : TimestampOp} (h : Reached vt) (hop : op.Narrow) :
    Reached (op.after vt)
  | load {vt vt' : VertexTimestamp} (h : Reached vt) (hload : loadTs vt.dumpTs = some vt') :
    Reached vt'

/-- The bounds and the entries are 32-bit words. -/
structure Narrow (vt : VertexTimestamp) : Prop where
  max_lt : vt.maxVertexNum < 2 ^ 32
  inserted_lt : ∀ i, vt.inserted i < 2 ^ 32

variable {vt vt' : VertexTimestamp} {v n : Nat}

theorem kDeletedTimestamp_lt : kDeletedTimestamp < 2 ^ 32 := by decide

theorem Narrow.update (h : vt.Narrow) (hn : n < 2 ^ 32) (i : Nat) :
    { vt with inserted := Function.update vt.inserted i n }.Narrow := by
  refine ⟨h.max_lt, fun j => ?_⟩
  by_cases hj : j = i
  · simpa [hj] using hn
  · simpa [hj] using h.inserted_lt j

theorem Narrow.materialize (h : vt.Narrow) (hv : v ≤ vt.initVertexNum) :
    (vt.materialize v hv).Narrow := by
  refine ⟨h.max_lt, fun i => ?_⟩
  simp only [VertexTimestamp.materialize]
  split_ifs
  · exact kDeletedTimestamp_lt
  · exact Nat.two_pow_pos 32
  · exact h.inserted_lt _

theorem Narrow.resetTimestamps (h : vt.Narrow) : vt.resetTimestamps.Narrow := by
  refine ⟨h.max_lt, fun i => ?_⟩
  simp only [VertexTimestamp.resetTimestamps]
  split_ifs
  · exact Nat.two_pow_pos 32
  · exact h.inserted_lt i

theorem Narrow.publish (h : vt.Narrow) (hn : n < 2 ^ 32) (spurious : Bool) :
    ((vt.publish v n spurious).toOption.getD vt).Narrow := by
  unfold VertexTimestamp.publish
  split
  · exact h.update hn _
  · exact h

theorem Narrow.after (h : vt.Narrow) {op : TimestampOp} (hop : op.Narrow) :
    (op.after vt).Narrow := by
  cases op with
  | insertVertex v ts spurious =>
    simp only [TimestampOp.after, insertVertex, afterFailedInsert]
    split_ifs with hlow hzero
    · exact ⟨h.max_lt, h.inserted_lt⟩
    · exact (h.materialize (Nat.le_of_lt hlow)).publish hop spurious
    · exact h.publish hop spurious
  | removeVertex v =>
    simp only [TimestampOp.after, removeVertex]
    split_ifs
    · exact h
    · exact h
    · exact h.update kDeletedTimestamp_lt _
    · exact ⟨h.max_lt, h.inserted_lt⟩
  | revertRemoveVertex v oldTs =>
    simp only [TimestampOp.after, revertRemoveVertex]
    split_ifs
    · exact h.update hop _
    · exact ⟨h.max_lt, h.inserted_lt⟩
  | reserve newSize =>
    simp only [TimestampOp.after, VertexTimestamp.reserve]
    split_ifs
    · exact h
    · exact ⟨hop, fun _ => kDeletedTimestamp_lt⟩
    · refine ⟨hop, fun i => ?_⟩
      simp only
      split_ifs
      · exact h.inserted_lt i
      · exact kDeletedTimestamp_lt
  | compact =>
    have hreset := h.resetTimestamps
    simp only [TimestampOp.after, VertexTimestamp.compact]
    split_ifs
    · exact ⟨hreset.max_lt, fun i => hreset.inserted_lt _⟩
    · exact hreset
  | resetTimestamps => exact h.resetTimestamps
  | cloneDetach => exact h

/-- The state without the entries from the capacity on, which nothing reads. -/
def trimmed (vt : VertexTimestamp) : VertexTimestamp :=
  { vt with inserted := fun i =>
      if i < vt.maxVertexNum - vt.initVertexNum then vt.inserted i else kDeletedTimestamp }

theorem loadTs_dumpTs (hsep : vt.Separated) (h : vt.Narrow) :
    loadTs vt.dumpTs = some vt.trimmed := by
  have hinit := vt.init_le_max
  have hmax := h.max_lt
  have hremoved : ∀ v ∈ vt.removed.sort, v < 256 ^ 4 := by
    intro v hv
    have hlow := hsep v ((Finset.mem_sort _).mp hv)
    omega
  have hcard : vt.removed.card < 256 ^ 4 := by
    have hle := Finset.card_le_card (t := Finset.range vt.initVertexNum)
      fun v hv => Finset.mem_range.mpr (hsep v hv)
    rw [Finset.card_range] at hle
    omega
  have hstamps : ∀ n ∈ (range (vt.maxVertexNum - vt.initVertexNum)).map vt.inserted,
      n < 256 ^ 4 := by
    intro n hn
    obtain ⟨i, -, rfl⟩ := mem_map.mp hn
    exact h.inserted_lt i
  have hread := readWords_writeWords (length_map _) hstamps []
  rw [append_nil, length_range] at hread
  simp only [loadTs, dumpTs, readWord_leBytes (show vt.initVertexNum < 256 ^ 4 by omega),
    readWord_leBytes (show vt.maxVertexNum < 256 ^ 4 by omega), readWord_leBytes hcard,
    readWord_leBytes (show vt.maxVertexNum - vt.initVertexNum < 256 ^ 4 by omega),
    readWords_writeWords (Finset.length_sort _) hremoved, hread, hinit, dite_true,
    Finset.sort_toFinset]
  congr 2
  funext i
  by_cases hi : i < vt.maxVertexNum - vt.initVertexNum
  · simp [hi, getD_eq_getElem?_getD]
  · simp [hi, getD_eq_getElem?_getD]

theorem Reached.separated_and_narrow (h : Reached vt) : vt.Separated ∧ vt.Narrow := by
  induction h with
  | init ha hb =>
    exact ⟨fun u hu => absurd hu (Finset.notMem_empty u), Nat.max_lt.mpr ⟨ha, hb⟩,
      fun _ => kDeletedTimestamp_lt⟩
  | after h hop ih => exact ⟨ih.1.after _, ih.2.after hop⟩
  | load h hload ih =>
    rw [loadTs_dumpTs ih.1 ih.2] at hload
    cases hload
    refine ⟨ih.1, ih.2.max_lt, fun i => ?_⟩
    simp only [trimmed]
    split_ifs
    · exact ih.2.inserted_lt i
    · exact kDeletedTimestamp_lt

/-- Loading the dump of a state into a new object gives one with the same valid ids at every
timestamp, and as many of them below every limit. -/
theorem load_dump_valid_eq (h : Reached vt) : ∃ vt', loadTs vt.dumpTs = some vt' ∧
    (∀ v ts, vt'.isVertexValid v ts = vt.isVertexValid v ts) ∧
      ∀ ts limit, vt'.validVertexNum ts limit = vt.validVertexNum ts limit := by
  obtain ⟨hsep, hnarrow⟩ := h.separated_and_narrow
  have hvalid : ∀ v ts, vt.trimmed.isVertexValid v ts = vt.isVertexValid v ts := by
    intro v ts
    unfold isVertexValid trimmed
    by_cases hmax : vt.maxVertexNum ≤ v
    · simp only [hmax, if_true]
    · by_cases hinit : vt.initVertexNum ≤ v
      · have hentry : v - vt.initVertexNum < vt.maxVertexNum - vt.initVertexNum := by omega
        simp only [hentry, if_true]
      · simp only [hmax, hinit, if_false]
  have htrimmed : vt.trimmed.Separated := hsep
  refine ⟨vt.trimmed, loadTs_dumpTs hsep hnarrow, hvalid, fun ts limit => ?_⟩
  rw [validVertexNum_eq hsep, validVertexNum_eq htrimmed]
  simp only [hvalid]

/-- A state with a removed id and an entry. -/
theorem load_dump_removed :
    let vt := after (after (init 2 4) (.removeVertex 1)) (.insertVertex 2 5 false)
    ∃ vt', loadTs vt.dumpTs = some vt' ∧ vt'.isVertexValid 1 7 = false ∧
      vt'.isVertexValid 2 7 = true := by
  intro vt
  have hreached : Reached vt :=
    .after (.after (.init (by decide) (by decide)) trivial) (Nat.le_of_ble_eq_true rfl)
  obtain ⟨vt', hload, hvalid, -⟩ := load_dump_valid_eq hreached
  refine ⟨vt', hload, ?_⟩
  rw [hvalid, hvalid]
  decide

end VertexTimestamp

end Neug.Storage
