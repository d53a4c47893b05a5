import Mathlib.Data.Nat.Count
import Neug.Storage.TableCompaction

/-! # Runs of vertex timestamps

The compacted range, the entries and the set of removed ids answer like one map from
ids to timestamps.  Three operations do something else: an insertion whose exchange fails
without reason leaves its id deleted, a reservation below the compacted range drops the ids
it does not cover, and a revert inside that range ignores its timestamp.
-/

namespace Neug.Storage

open Function Finset

namespace VertexTimestamp

/-- `Init` of a new structure. -/
def init (initVertexNum maxVertexNum : Nat) : VertexTimestamp where
  initVertexNum := initVertexNum
  maxVertexNum := max initVertexNum maxVertexNum
  init_le_max := Nat.le_max_left ..
  inserted := fun _ => kDeletedTimestamp
  removed := ∅

/-- When there is no set of removed ids, the exception "Vertex v is not removed."
leaves the ids as they are. -/
def revertRemoveVertex (vt : VertexTimestamp) (v oldTs : Nat) : VertexTimestamp :=
  if vt.initVertexNum ≤ v then
    { vt with inserted := update vt.inserted (v - vt.initVertexNum) oldTs }
  else { vt with removed := vt.removed.erase v }

/-- Counts the compacted ids below `limit`, without the removed ones, then the entries. -/
def validVertexNum (vt : VertexTimestamp) (ts limit : Nat) : Nat :=
  let limit := min limit vt.maxVertexNum
  let validNum := min vt.initVertexNum limit - (vt.removed.filter (· < limit)).card
  if limit ≤ vt.initVertexNum then validNum
  else validNum + Nat.count
    (fun i => vt.inserted i ≠ kDeletedTimestamp ∧ vt.inserted i ≤ ts) (limit - vt.initVertexNum)

end VertexTimestamp

inductive TimestampOp where
  | insertVertex (v : Nat) (ts : Nat) (spurious : Bool)
  | removeVertex (v : Nat)
  | revertRemoveVertex (v : Nat) (oldTs : Nat)
  | reserve (newSize : Nat)
  | compact
  | resetTimestamps
  | cloneDetach

namespace TimestampOp

/-- The structure after the operation, or after the exception it ends with. -/
def after (vt : VertexTimestamp) : TimestampOp → VertexTimestamp
  | insertVertex v ts spurious =>
    -- the compacted range is materialised before the exchange can fail
    (vt.insertVertex v ts spurious).toOption.getD (vt.afterFailedInsert v)
  | removeVertex v => (vt.removeVertex v).toOption.getD vt
  | revertRemoveVertex v oldTs => vt.revertRemoveVertex v oldTs
  | reserve newSize => vt.reserve newSize
  | compact => vt.compact
  | resetTimestamps => vt.resetTimestamps
  -- `Detach` copies both arrays that `Clone` shares
  | cloneDetach => vt

/-- The same operation on a map. -/
def onMap (m : Nat → Option Nat) : TimestampOp → Nat → Option Nat
  | insertVertex v ts _ => if m v = none then update m v (some ts) else m
  | removeVertex v => update m v none
  | revertRemoveVertex v oldTs => update m v (some oldTs)
  | reserve _ | cloneDetach => m
  | compact | resetTimestamps => fun v => (m v).map fun _ => 0

/-- What the operation asserts; a removal never returns `DELETED_TIMESTAMP`. -/
def Asserted (vt : VertexTimestamp) : TimestampOp → Prop
  | insertVertex v ts _ | revertRemoveVertex v ts =>
    v < vt.maxVertexNum ∧ ts ≠ kDeletedTimestamp
  | _ => True

/-- The exchange does not fail spuriously, a revert in the compacted range is to
timestamp 0, and a reservation is for a number of ids that `vid_t` holds and cuts off no
vertex of that range. -/
def Fits (vt : VertexTimestamp) : TimestampOp → Prop
  | insertVertex _ _ spurious => spurious = false
  | revertRemoveVertex v oldTs => v < vt.initVertexNum → oldTs = 0
  | reserve newSize => newSize < 2 ^ 32 ∧
    (vt.initVertexNum < newSize ∨ ∀ v, newSize ≤ v → vt.entry v = none)
  | _ => True

/-- Every operation of a run meets a condition on the state it is made in. -/
def Along (P : VertexTimestamp → TimestampOp → Prop) : VertexTimestamp → List TimestampOp → Prop
  | _, [] => True
  | vt, op :: ops => P vt op ∧ Along P (op.after vt) ops

end TimestampOp

namespace VertexTimestamp

open TimestampOp

variable {vt : VertexTimestamp} {v ts : Nat}

/-- Below the compacted range only the set of removed ids counts. -/
theorem entry_removed (hv : v < vt.initVertexNum) (ids : Finset Nat)
    (hids : ∀ u ≠ v, u ∈ ids ↔ u ∈ vt.removed) : { vt with removed := ids }.entry =
      update vt.entry v (if v ∈ ids then none else some 0) := by
  have hmax := Nat.lt_of_lt_of_le hv vt.init_le_max
  funext u
  by_cases huv : u = v
  · subst huv
    simp [entry, Nat.not_le.mpr hv, Nat.not_le.mpr hmax]
  · simp [entry, update_of_ne huv, hids u huv]

theorem entry_publish (hv : vt.initVertexNum ≤ v) (hmax : v < vt.maxVertexNum)
    (hts : ts ≠ kDeletedTimestamp) : ((vt.publish v ts false).toOption.getD vt).entry =
      if vt.entry v = none then update vt.entry v (some ts) else vt.entry := by
  split
  next hentry =>
    obtain ⟨vt', hok⟩ : ∃ vt', vt.publish v ts false = .ok vt' := publish_of_deleted hv hmax hentry
    rw [hok]
    exact (publish_ok hv hmax hts hok).2
  next hentry =>
    cases hpublish : vt.publish v ts false with
    | ok vt' => exact absurd (publish_ok hv hmax hts hpublish).1 hentry
    | error found => rfl

theorem entry_insertVertex (hmax : v < vt.maxVertexNum) (hts : ts ≠ kDeletedTimestamp) :
    (after vt (.insertVertex v ts false)).entry =
      if vt.entry v = none then update vt.entry v (some ts) else vt.entry := by
  simp only [after, insertVertex, afterFailedInsert]
  by_cases hv : v < vt.initVertexNum
  · by_cases hzero : ts = 0
    · subst hzero
      simp only [hv, dite_true, if_true, Except.toOption, Option.getD_some]
      rw [entry_removed hv _ (by simp +contextual), if_neg (notMem_erase v _)]
      split
      · rfl
      next hentry =>
        have hsome : vt.entry v = some 0 := by
          simp_all [entry, Nat.not_le.mpr hv, Nat.not_le.mpr hmax]
        rw [← hsome, update_eq_self]
    · have hinit : (vt.materialize v (Nat.le_of_lt hv)).initVertexNum ≤ v := Nat.le_refl v
      simp only [hv, hzero, dite_true, if_false]
      rw [entry_publish hinit hmax hts, funext (entry_materialize vt (Nat.le_of_lt hv))]
  · simp only [hv, dite_false]
    exact entry_publish (Nat.le_of_not_lt hv) hmax hts

theorem entry_removeVertex : (after vt (.removeVertex v)).entry = update vt.entry v none := by
  have hunchanged (hnone : vt.entry v = none) : vt.entry = update vt.entry v none := by
    rw [← hnone, update_eq_self]
  simp only [after, removeVertex]
  split
  next hmax => exact hunchanged (by simp [entry, hmax])
  next hmax =>
    split
    next hv =>
      split
      next hdeleted => exact hunchanged (by simp [entry, hmax, hv, hdeleted])
      next => exact entry_update vt hv (Nat.lt_of_not_le hmax) kDeletedTimestamp
    next hv =>
      have hinserted := entry_removed (Nat.lt_of_not_le hv) (insert v vt.removed)
        (by simp +contextual)
      rwa [if_pos (mem_insert_self v _)] at hinserted

theorem entry_revertRemoveVertex (hmax : v < vt.maxVertexNum) (hts : ts ≠ kDeletedTimestamp)
    (hfits : v < vt.initVertexNum → ts = 0) :
    (vt.revertRemoveVertex v ts).entry = update vt.entry v (some ts) := by
  unfold revertRemoveVertex
  split
  next hv => rw [entry_update vt hv hmax, if_neg hts]
  next hv =>
    have hlow := Nat.lt_of_not_le hv
    rw [entry_removed hlow _ (by simp +contextual), if_neg (notMem_erase v _), hfits hlow]

theorem entry_reserve {n : Nat} (hfits : vt.initVertexNum < n ∨ ∀ v, n ≤ v → vt.entry v = none) :
    (vt.reserve n).entry = vt.entry := by
  have hinit := vt.init_le_max
  unfold reserve
  split
  · rfl
  funext u
  split
  next hcut =>
    by_cases hu : n ≤ u
    · rw [hfits.resolve_left (Nat.not_lt.mpr hcut) u hu]
      simp [entry, hu]
    · have hlow : u < vt.initVertexNum := by omega
      have hlt : u < vt.maxVertexNum := by omega
      simp [entry, hu, Nat.lt_of_not_le hu, Nat.not_le.mpr hlow, Nat.not_le.mpr hlt]
  next hgrow =>
    by_cases hu : vt.maxVertexNum ≤ u
    · have hlow : vt.initVertexNum ≤ u := by omega
      have hnew : ¬u - vt.initVertexNum < vt.maxVertexNum - vt.initVertexNum := by omega
      simp [entry, hu, hlow, hnew]
    · have hn : ¬n ≤ u := by omega
      by_cases hlow : vt.initVertexNum ≤ u
      · have hold : u - vt.initVertexNum < vt.maxVertexNum - vt.initVertexNum := by omega
        simp [entry, hu, hn, hlow, hold]
      · simp [entry, hu, hn, hlow]

theorem Separated.after (hsep : vt.Separated) (op : TimestampOp) : (op.after vt).Separated := by
  cases op with
  | insertVertex v ts spurious =>
    simp only [TimestampOp.after, afterFailedInsert]
    cases hinsert : vt.insertVertex v ts spurious with
    | ok vt' => exact hsep.insertVertex hinsert
    | error found =>
      split
      · exact fun u hu => (mem_filter.mp hu).2
      · exact hsep
  | removeVertex v =>
    simp only [TimestampOp.after]
    cases hremove : vt.removeVertex v with
    | ok vt' => exact hsep.removeVertex hremove
    | error e => exact hsep
  | revertRemoveVertex v oldTs =>
    simp only [TimestampOp.after, revertRemoveVertex]
    split
    · exact hsep
    · exact fun u hu => hsep u (mem_of_mem_erase hu)
  | reserve newSize => exact hsep.reserve newSize
  | compact => exact hsep.compact
  | resetTimestamps | cloneDetach => exact hsep

theorem entry_after (hsep : vt.Separated) {op : TimestampOp} (hasserted : op.Asserted vt)
    (hfits : op.Fits vt) : (op.after vt).entry = op.onMap vt.entry := by
  cases op with
  | insertVertex v ts spurious =>
    cases hfits
    exact entry_insertVertex hasserted.1 hasserted.2
  | removeVertex v => exact entry_removeVertex
  | revertRemoveVertex v oldTs => exact entry_revertRemoveVertex hasserted.1 hasserted.2 hfits
  | reserve newSize => exact entry_reserve hfits.2
  | compact => exact funext (entry_compact hsep)
  | resetTimestamps => exact funext (entry_resetTimestamps vt)
  | cloneDetach => rfl

theorem entry_run {ops : List TimestampOp} (hsep : vt.Separated)
    (hasserted : Along Asserted vt ops) (hfits : Along Fits vt ops) :
    (ops.foldl after vt).Separated ∧ (ops.foldl after vt).entry = ops.foldl onMap vt.entry := by
  induction ops generalizing vt with
  | nil => exact ⟨hsep, rfl⟩
  | cons op ops ih =>
    rw [List.foldl_cons, List.foldl_cons, ← entry_after hsep hasserted.1 hfits.1]
    exact ih (hsep.after op) hasserted.2 hfits.2

theorem count_compacted {n : Nat} (hn : n ≤ vt.initVertexNum) :
    Nat.count (fun v => vt.isVertexValid v ts) n = n - (vt.removed.filter (· < n)).card := by
  have hvalid : ∀ v ∈ Finset.range n, vt.isVertexValid v ts = true ↔ ¬v ∈ vt.removed := by
    intro v hv
    have hlow := Nat.lt_of_lt_of_le (mem_range.mp hv) hn
    have hmax := Nat.lt_of_lt_of_le hlow vt.init_le_max
    simp [isVertexValid, Nat.not_le.mpr hlow, Nat.not_le.mpr hmax]
  have hsplit := (Finset.range n).card_filter_add_card_filter_not (· ∈ vt.removed)
  have hremoved : (Finset.range n).filter (· ∈ vt.removed) = vt.removed.filter (· < n) := by
    ext v
    simp [and_comm]
  rw [hremoved, card_range] at hsplit
  rw [Nat.count_eq_card_filter_range, filter_congr hvalid]
  omega

theorem validVertexNum_eq (hsep : vt.Separated) (limit : Nat) :
    vt.validVertexNum ts limit = Nat.count (fun v => vt.isVertexValid v ts) limit := by
  obtain ⟨n, hn⟩ : ∃ n, min limit vt.maxVertexNum = n := ⟨_, rfl⟩
  -- no id from the capacity on is valid
  have hbeyond : Nat.count (fun k => vt.isVertexValid (n + k) ts) (limit - n) = 0 := by
    refine Nat.count_iff_forall_not.mpr fun k hk => ?_
    simp [isVertexValid, show vt.maxVertexNum ≤ n + k by omega]
  have hcut : limit = n + (limit - n) := by omega
  conv_rhs => rw [hcut, Nat.count_add, hbeyond, Nat.add_zero]
  simp only [validVertexNum, hn]
  split
  next hlow => rw [Nat.min_eq_right hlow, count_compacted hlow]
  next hhigh =>
    have hremoved : vt.removed.filter (· < n) = vt.removed.filter (· < vt.initVertexNum) := by
      refine filter_congr fun v hv => ?_
      have hlow := hsep v hv
      omega
    have hentries : ∀ i ∈ Finset.range (n - vt.initVertexNum),
        vt.inserted i ≠ kDeletedTimestamp ∧ vt.inserted i ≤ ts ↔
          vt.isVertexValid (vt.initVertexNum + i) ts = true := by
      intro i hi
      have hmax : ¬vt.maxVertexNum ≤ vt.initVertexNum + i := by
        rw [mem_range] at hi
        omega
      simp [isVertexValid, hmax]
    have hrest : n = vt.initVertexNum + (n - vt.initVertexNum) := by omega
    conv_rhs => rw [hrest, Nat.count_add, count_compacted le_rfl]
    rw [Nat.min_eq_left (by omega), hremoved, Nat.count_eq_card_filter_range,
      Nat.count_eq_card_filter_range, filter_congr hentries]

/-- In a run whose operations meet the condition, which ids are valid at a timestamp
and how many are is what a map says that starts with the compacted ids. -/
theorem valid_run_eq {a b : Nat} {ops : List TimestampOp}
    (hasserted : Along Asserted (init a b) ops) (hfits : Along Fits (init a b) ops) (ts : Nat) :
    let vt := ops.foldl after (init a b)
    let m := ops.foldl onMap fun u => if u < a then some 0 else none
    (∀ v, vt.isVertexValid v ts = (m v).any (· ≤ ts)) ∧
      ∀ limit, vt.validVertexNum ts limit = Nat.count (fun v => (m v).any (· ≤ ts)) limit := by
  intro vt m
  have hstart : (init a b).entry = fun u => if u < a then some 0 else none := by
    funext u
    by_cases hu : a ≤ u
    · simp [entry, init, hu]
    · have hlow : u < a := Nat.lt_of_not_le hu
      simp [entry, init, hu, hlow]
  obtain ⟨hsep, hentry⟩ := entry_run (fun u hu => absurd hu (notMem_empty u)) hasserted hfits
  have hvalid (v : Nat) : vt.isVertexValid v ts = (m v).any (· ≤ ts) := by
    rw [Bool.eq_iff_iff, isVertexValid_iff, hentry, hstart]
    simp [Option.any_eq_true, m]
  refine ⟨hvalid, fun limit => ?_⟩
  rw [validVertexNum_eq hsep]
  simp only [hvalid, vt]

/-- A vertex removed from the compacted range and inserted again. -/
theorem reinserted_valid_eq :
    let ops : List TimestampOp := [.removeVertex 1, .insertVertex 1 5 false, .reserve 8]
    (ops.foldl after (init 3 4)).isVertexValid 1 5 =
      (ops.foldl onMap (fun u => if u < 3 then some 0 else none) 1).any (· ≤ 5) := by
  intro ops
  have hasserted : Along Asserted (init 3 4) ops :=
    ⟨trivial, ⟨by decide, by decide⟩, trivial, trivial⟩
  have hfits : Along Fits (init 3 4) ops := ⟨trivial, rfl, ⟨by decide, .inl (by decide)⟩, trivial⟩
  exact (valid_run_eq hasserted hfits 5).1 1

/-- An insertion whose exchange fails without reason: the id stays invalid. -/
theorem spurious_insert_invalid :
    let ops : List TimestampOp := [.insertVertex 2 7 true]
    Along Asserted (init 2 4) ops ∧ (ops.foldl after (init 2 4)).isVertexValid 2 7 = false ∧
      ops.foldl onMap (fun u => if u < 2 then some 0 else none) 2 = some 7 :=
  ⟨⟨⟨by decide, by decide⟩, trivial⟩, by decide, by decide⟩

end VertexTimestamp

end Neug.Storage
