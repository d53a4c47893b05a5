import Neug.Storage.CountedEdgeTable
import Neug.Transaction.MvccInsert

/-! # Compaction of tables

Compaction gives every vertex and edge that is not deleted the timestamp 0.  A vertex table
then keeps no entries for the vertices before the first deleted one; an adjacency structure
drops the entries of deleted edges.  What a reader saw it still sees, and what it sees was not
deleted.
-/

namespace Neug.Storage

open Library EdgeTable Multiset

open Transaction (IngestPc vertexStep)

/-! ### Vertex timestamps -/

namespace VertexTimestamp

variable (vt : VertexTimestamp)

def resetTimestamps : VertexTimestamp :=
  { vt with inserted := fun i =>
      if i < vt.maxVertexNum - vt.initVertexNum ∧ vt.inserted i ≠ kDeletedTimestamp then 0
      else vt.inserted i }

/-- The first entry that is not 0, or the number of entries. -/
def firstNonZero : Nat :=
  let num := vt.maxVertexNum - vt.initVertexNum
  ((List.range num).find? fun v => vt.inserted v ≠ 0).getD num

theorem firstNonZero_le : vt.initVertexNum + vt.firstNonZero ≤ vt.maxVertexNum := by
  have hle : vt.firstNonZero ≤ vt.maxVertexNum - vt.initVertexNum := by
    unfold firstNonZero
    simp only
    cases hfind : (List.range (vt.maxVertexNum - vt.initVertexNum)).find?
        fun v => decide (vt.inserted v ≠ 0) with
    | none => exact Nat.le_refl _
    | some v => exact Nat.le_of_lt (List.mem_range.mp (List.mem_of_find?_eq_some hfind))
  have hinit := vt.init_le_max
  omega

/-- The entries before the first one that is not 0 are dropped. -/
def dropLeading : VertexTimestamp :=
  { vt with
    initVertexNum := vt.initVertexNum + vt.firstNonZero
    init_le_max := vt.firstNonZero_le
    inserted := fun i => vt.inserted (i + vt.firstNonZero) }

def compact : VertexTimestamp :=
  let reset := vt.resetTimestamps
  if 0 < reset.firstNonZero then reset.dropLeading else reset

/-- Only ids without an entry of their own are in the set of removed ids. -/
def Separated : Prop := ∀ v ∈ vt.removed, v < vt.initVertexNum

variable {vt vt' : VertexTimestamp}

theorem Separated.publish (h : vt.Separated) {v ts : Nat} {spurious : Bool}
    (hpublish : vt.publish v ts spurious = .ok vt') : vt'.Separated := by
  unfold VertexTimestamp.publish at hpublish
  split at hpublish
  · cases hpublish
    exact h
  · cases hpublish

theorem separated_materialize (vt : VertexTimestamp) {v : Nat} (hv : v ≤ vt.initVertexNum) :
    (vt.materialize v hv).Separated :=
  fun _ hu => (Finset.mem_filter.mp hu).2

theorem Separated.insertVertex (h : vt.Separated) {v ts : Nat} {spurious : Bool}
    (hinsert : vt.insertVertex v ts spurious = .ok vt') : vt'.Separated := by
  unfold VertexTimestamp.insertVertex at hinsert
  split at hinsert
  next hlow =>
    split at hinsert
    · cases hinsert
      exact fun u hu => h u (Finset.mem_of_mem_erase hu)
    · exact (vt.separated_materialize (Nat.le_of_lt hlow)).publish hinsert
  next => exact h.publish hinsert

theorem Separated.removeVertex (h : vt.Separated) {v : Nat}
    (hremove : vt.removeVertex v = .ok vt') : vt'.Separated := by
  unfold VertexTimestamp.removeVertex at hremove
  split at hremove
  · cases hremove
  split at hremove
  · split at hremove
    · cases hremove
    · cases hremove
      exact h
  next hlow =>
    cases hremove
    intro u hu
    rcases Finset.mem_insert.mp hu with rfl | hold
    · exact Nat.lt_of_not_le hlow
    · exact h u hold

theorem Separated.reserve (h : vt.Separated) (newSize : Nat) : (vt.reserve newSize).Separated := by
  unfold VertexTimestamp.reserve
  split
  · exact h
  split
  · exact fun u hu => (Finset.mem_filter.mp hu).2
  · exact h

theorem entry_resetTimestamps (vt : VertexTimestamp) (v : Nat) :
    vt.resetTimestamps.entry v = (vt.entry v).map fun _ => 0 := by
  unfold entry resetTimestamps
  by_cases hmax : vt.maxVertexNum ≤ v
  · simp [hmax]
  · by_cases hinit : vt.initVertexNum ≤ v
    · have hin : v - vt.initVertexNum < vt.maxVertexNum - vt.initVertexNum := by omega
      by_cases hdeleted : vt.inserted (v - vt.initVertexNum) = kDeletedTimestamp
      · simp [hmax, hinit, hdeleted]
      · have hzero : 0 ≠ kDeletedTimestamp := by decide
        simp [hmax, hinit, hin, hdeleted, hzero]
    · by_cases hremoved : v ∈ vt.removed
      · simp [hmax, hinit, hremoved]
      · simp [hmax, hinit, hremoved]

/-- The entries before the first one that is not 0 are 0. -/
theorem inserted_eq_zero {i : Nat} (hi : i < vt.firstNonZero) : vt.inserted i = 0 := by
  unfold firstNonZero at hi
  simp only at hi
  cases hfind : (List.range (vt.maxVertexNum - vt.initVertexNum)).find?
      fun v => decide (vt.inserted v ≠ 0) with
  | none =>
    rw [hfind, Option.getD_none] at hi
    have hnone := List.find?_eq_none.mp hfind i (List.mem_range.mpr hi)
    simpa using hnone
  | some first =>
    rw [hfind, Option.getD_some] at hi
    have hbefore := (List.find?_range_eq_some.mp hfind).2.2 i hi
    simpa using hbefore

/-- Entries that are 0 may go: without an entry an id counts as inserted at 0. -/
theorem entry_dropLeading (hsep : vt.Separated) (v : Nat) :
    vt.dropLeading.entry v = vt.entry v := by
  unfold entry dropLeading
  by_cases hmax : vt.maxVertexNum ≤ v
  · simp [hmax]
  · by_cases hinit : vt.initVertexNum ≤ v
    · have hremoved : v ∉ vt.removed := fun hv => absurd (hsep v hv) (Nat.not_lt.mpr hinit)
      by_cases hdropped : vt.initVertexNum + vt.firstNonZero ≤ v
      · have hshift : v - (vt.initVertexNum + vt.firstNonZero) + vt.firstNonZero =
            v - vt.initVertexNum := by omega
        simp [hmax, hinit, hdropped, hshift]
      · have hzero : vt.inserted (v - vt.initVertexNum) = 0 :=
          inserted_eq_zero (by omega)
        simp [hmax, hinit, hdropped, hremoved, hzero, kDeletedTimestamp]
    · have hdropped : ¬vt.initVertexNum + vt.firstNonZero ≤ v := by omega
      simp [hmax, hinit, hdropped]

theorem entry_compact (hsep : vt.Separated) (v : Nat) :
    vt.compact.entry v = (vt.entry v).map fun _ => 0 := by
  unfold compact
  simp only
  split
  · have hreset : vt.resetTimestamps.Separated := hsep
    rw [entry_dropLeading hreset, entry_resetTimestamps]
  · exact entry_resetTimestamps vt v

theorem Separated.compact (h : vt.Separated) : vt.compact.Separated := by
  unfold VertexTimestamp.compact
  simp only
  split
  · exact fun v hv => Nat.lt_of_lt_of_le (h v hv) (Nat.le_add_right _ _)
  · exact h

end VertexTimestamp

/-! ### Vertex tables -/

/-- The operations of a vertex table.  An insertion is the accesses of `AddVertex` one by one, so
that it may also stop between them. -/
inductive VertexOp where
  | addVertex (policy : HashPolicy) (oid : Value) (props : List Value) (ts : Nat) (pc : IngestPc)
      (spurious : Bool)
  | updateProperty (vid col : Nat) (value : Value) (ts : Nat)
  | deleteVertex (lid ts : Nat)
  /-- The capacity of the index grows; how the keys are hashed and the columns filled is open. -/
  | ensureCapacity (indexer : LFIndexer) (table : List Column)
  /-- Properties are added or deleted, and only the columns change. -/
  | changeProperties (table : List Column)

/-- The table that an operation leaves, whether or not it gets through. -/
def VertexOp.run (vt : VertexTable) : VertexOp → VertexTable
  | addVertex policy oid props ts pc spurious =>
    (vertexStep policy vt oid props ts pc spurious).1
  | updateProperty vid col value ts =>
    if vt.isValidLid vid ts then
      match vt.table[col]? with
      | none => vt
      | some column =>
        match column.setAny vid value true with
        | .error _ => vt
        | .ok column => { vt with table := vt.table.set col column }
    else vt
  | deleteVertex lid ts =>
    if vt.isValidLid lid ts then
      match vt.vts.removeVertex lid with
      | .ok vts => { vt with vts := vts }
      | .error _ => vt
    else vt
  | ensureCapacity indexer table =>
    if vt.indexer.capacity < indexer.capacity then
      ⟨indexer, vt.vts.reserve indexer.capacity, table⟩
    else vt
  | changeProperties table => { vt with table := table }

namespace VertexTable

/-- Leading timestamps may still be dropped, and there is at least the room that was there. -/
structure Keeps (vt vt' : VertexTable) : Prop where
  separated : vt.vts.Separated → vt'.vts.Separated
  capacity : vt.indexer.capacity ≤ vt'.indexer.capacity

variable (vt : VertexTable)

theorem keeps_vertexStep (policy : HashPolicy) (oid : Value) (props : List Value) (ts : Nat)
    (pc : IngestPc) (spurious : Bool) :
    vt.Keeps (vertexStep policy vt oid props ts pc spurious).1 := by
  cases pc with
  | setKey ind =>
    simp only [vertexStep]
    split
    next => exact ⟨id, le_rfl⟩
    next keys hkeys => exact ⟨id, (Column.setKeyValue_wrote hkeys).size_eq.ge⟩
  | materialize vid =>
    simp only [vertexStep]
    split
    next hlow =>
      split
      · exact ⟨fun h u hu => h u (Finset.mem_of_mem_erase hu), le_rfl⟩
      · exact ⟨fun _ => vt.vts.separated_materialize (Nat.le_of_lt hlow), le_rfl⟩
    next => exact ⟨id, le_rfl⟩
  | publishTs vid =>
    simp only [vertexStep]
    split
    next => exact ⟨id, le_rfl⟩
    next vts hpublish => exact ⟨fun h => h.publish hpublish, le_rfl⟩
  -- neither the timestamps nor the capacity of the index change
  | claim | publishIndex | setProp | checkCapacity | probe | checkValid =>
    simp only [vertexStep]
    repeat' split
    all_goals exact ⟨id, le_rfl⟩
  | findSrc | findDst | beginEdge | putIn | putOut | setEdgeProp => exact ⟨id, le_rfl⟩

theorem keeps_run (op : VertexOp) : vt.Keeps (op.run vt) := by
  cases op with
  | addVertex policy oid props ts pc spurious =>
    exact vt.keeps_vertexStep policy oid props ts pc spurious
  | updateProperty vid col value ts =>
    simp only [VertexOp.run]
    repeat' split
    all_goals exact ⟨id, le_rfl⟩
  | deleteVertex lid ts =>
    simp only [VertexOp.run]
    split
    · split
      next vts hremove => exact ⟨fun h => h.removeVertex hremove, le_rfl⟩
      next => exact ⟨id, le_rfl⟩
    · exact ⟨id, le_rfl⟩
  | ensureCapacity indexer table =>
    simp only [VertexOp.run]
    split
    next hlt => exact ⟨fun h => h.reserve _, hlt.le⟩
    next => exact ⟨id, le_rfl⟩
  | changeProperties table => exact ⟨id, le_rfl⟩

theorem keeps_runs (ops : List VertexOp) : vt.Keeps (ops.foldl VertexOp.run vt) := by
  induction ops generalizing vt with
  | nil => exact ⟨id, le_rfl⟩
  | cons op rest ih =>
    have hfirst := vt.keeps_run op
    have hrest := ih (op.run vt)
    exact ⟨hrest.separated ∘ hfirst.separated, hfirst.capacity.trans hrest.capacity⟩

def compact : VertexTable := { vt with vts := vt.vts.compact }

/-- The id, the object id and the property values of a vertex. -/
def row (lid : Nat) : Nat × Value × List Value :=
  (lid, vt.indexer.getKey lid, vt.table.map fun column => column.getAny lid)

def visible (ts : Nat) : Set (Nat × Value × List Value) :=
  { x | ∃ lid < vt.lidNum, vt.vts.isVertexValid lid ts = true ∧ x = vt.row lid }

def undeleted : Set (Nat × Value × List Value) :=
  { x | ∃ lid < vt.lidNum, (vt.vts.entry lid).isSome ∧ x = vt.row lid }

theorem visible_subset_undeleted (ts : Nat) : vt.visible ts ⊆ vt.undeleted := by
  rintro x ⟨lid, hlid, hvalid, rfl⟩
  obtain ⟨e, he, -⟩ := (vt.vts.isVertexValid_iff lid ts).mp hvalid
  exact ⟨lid, hlid, by simp [he], rfl⟩

/-- Every reader sees what it saw before, and the same vertices are not deleted. -/
structure KeptBy (vt vt' : VertexTable) : Prop where
  visible : ∀ ts, vt.visible ts ⊆ vt'.visible ts
  undeleted : vt'.undeleted = vt.undeleted

theorem KeptBy.refl : vt.KeptBy vt :=
  ⟨fun _ => subset_rfl, rfl⟩

variable {vt vt' vt'' : VertexTable}

theorem KeptBy.trans (h : vt.KeptBy vt') (h' : vt'.KeptBy vt'') : vt.KeptBy vt'' :=
  ⟨fun ts => (h.visible ts).trans (h'.visible ts), h'.undeleted.trans h.undeleted⟩

theorem keptBy_compact (hsep : vt.vts.Separated) : vt.KeptBy vt.compact := by
  constructor
  · rintro ts x ⟨lid, hlid, hvalid, rfl⟩
    obtain ⟨e, he, -⟩ := (vt.vts.isVertexValid_iff lid ts).mp hvalid
    refine ⟨lid, hlid, ?_, rfl⟩
    refine (VertexTimestamp.isVertexValid_iff _ lid ts).mpr ⟨0, ?_, Nat.zero_le ts⟩
    change vt.vts.compact.entry lid = some 0
    rw [VertexTimestamp.entry_compact hsep, he]
    rfl
  · have hentry : ∀ lid, (vt.compact.vts.entry lid).isSome = (vt.vts.entry lid).isSome := by
      intro lid
      rw [compact, VertexTimestamp.entry_compact hsep, Option.isSome_map]
    simp only [VertexTable.undeleted, hentry]
    rfl

end VertexTable

/-! ### Edge tables -/

namespace Csr

variable {β : Type*} {ts : Nat}

section

variable (csr : Csr) (f : Nat × Nbr → β) (hf : ∀ e, f (e.1, settled e.2) = f e)
include hf

/-- Compaction shows every edge that is not deleted, whatever its timestamp was. -/
theorem map_visible_compact (hts : ts < kDeletedTimestamp) :
    (visible csr ts).map f ≤ (visible csr.compact ts).map f := by
  by_cases hempty : csr.type = .empty
  · have hsame : csr.compact = csr := by rw [compact, hempty]
    rw [hsame]
  · have hall : (csr.edges.map fun e => (e.1, settled e.2)).filter (fun e => e.2.timestamp ≤ ts) =
        csr.edges.map fun e => (e.1, settled e.2) := by
      refine filter_eq_self.mpr fun e he => ?_
      obtain ⟨old, -, rfl⟩ := mem_map.mp he
      exact Nat.zero_le ts
    have hsettled : (f ∘ fun e => (e.1, settled e.2)) = f := funext hf
    rw [visible_eq _ hts, visible_eq _ hts, edges_compact hempty, hall, map_map, hsettled]
    exact map_le_map (filter_le _ _)

theorem map_edges_compact : csr.compact.edges.map f = csr.edges.map f := by
  by_cases hempty : csr.type = .empty
  · have hsame : csr.compact = csr := by rw [compact, hempty]
    rw [hsame]
  · rw [edges_compact hempty, map_map]
    exact Multiset.map_congr rfl fun e _ => hf e

end

theorem visible_sorted (csr : Csr) (order : NbrSort) (hts : ts < kDeletedTimestamp) :
    visible (csr.batchSortByEdgeData order) ts = visible csr ts := by
  rw [visible_eq _ hts, visible_eq _ hts, edges_batchSortByEdgeData]

end Csr

namespace EdgeTable

variable {et et' et'' : EdgeTable}

/-- The edges of the outgoing lists that are not deleted. -/
def undeletedOut (et : EdgeTable) : Multiset (Nat × Nat × List Value) :=
  et.outCsr.edges.map fun e => (e.1, e.2.neighbor, et.values e.2.data)

def undeletedIn (et : EdgeTable) : Multiset (Nat × Nat × List Value) :=
  et.inCsr.edges.map fun e => (e.2.neighbor, e.1, et.values e.2.data)

theorem outgoing_le_undeletedOut (et : EdgeTable) {ts : Nat} (hts : ts < kDeletedTimestamp) :
    et.outgoing ts ≤ et.undeletedOut := by
  rw [outgoing, visible_eq _ hts]
  exact map_le_map (filter_le _ _)

theorem incoming_le_undeletedIn (et : EdgeTable) {ts : Nat} (hts : ts < kDeletedTimestamp) :
    et.incoming ts ≤ et.undeletedIn := by
  rw [incoming, visible_eq _ hts]
  exact map_le_map (filter_le _ _)

/-- Every reader sees what it saw before, and the same edges are not deleted. -/
structure KeptBy (et et' : EdgeTable) : Prop where
  outgoing : ∀ ts < kDeletedTimestamp, et.outgoing ts ≤ et'.outgoing ts
  incoming : ∀ ts < kDeletedTimestamp, et.incoming ts ≤ et'.incoming ts
  undeletedOut : et'.undeletedOut = et.undeletedOut
  undeletedIn : et'.undeletedIn = et.undeletedIn

theorem KeptBy.refl (et : EdgeTable) : et.KeptBy et :=
  ⟨fun _ _ => le_rfl, fun _ _ => le_rfl, rfl, rfl⟩

theorem KeptBy.trans (h : et.KeptBy et') (h' : et'.KeptBy et'') : et.KeptBy et'' where
  outgoing ts hts := (h.outgoing ts hts).trans (h'.outgoing ts hts)
  incoming ts hts := (h.incoming ts hts).trans (h'.incoming ts hts)
  undeletedOut := h'.undeletedOut.trans h.undeletedOut
  undeletedIn := h'.undeletedIn.trans h.undeletedIn

end EdgeTable

namespace CountedTable

/-- Compacting both structures keeps what readers see. -/
theorem keptBy_settled (t : CountedTable) : t.edges.KeptBy t.settled.edges where
  outgoing _ hts := Csr.map_visible_compact t.edges.outCsr _ (fun _ => rfl) hts
  incoming _ hts := Csr.map_visible_compact t.edges.inCsr _ (fun _ => rfl) hts
  undeletedOut := Csr.map_edges_compact t.edges.outCsr _ fun _ => rfl
  undeletedIn := Csr.map_edges_compact t.edges.inCsr _ fun _ => rfl

theorem keptBy_sorted (t : CountedTable) (order : NbrSort) :
    t.edges.KeptBy (t.sorted order).edges where
  outgoing _ hts := (congrArg (Multiset.map _) (Csr.visible_sorted t.edges.outCsr order hts)).ge
  incoming _ hts := (congrArg (Multiset.map _) (Csr.visible_sorted t.edges.inCsr order hts)).ge
  undeletedOut := congrArg (Multiset.map _) (Csr.edges_batchSortByEdgeData t.edges.outCsr order)
  undeletedIn := congrArg (Multiset.map _) (Csr.edges_batchSortByEdgeData t.edges.inCsr order)

/-- Compaction of an edge table with exact counters keeps what readers see and the counters,
also when it fails, and it does not fail because of the counters. -/
theorem Exact.compact {t : CountedTable} {srcBound dstBound : Nat}
    (h : t.Exact srcBound dstBound) (order : Option NbrSort) :
    t.edges.KeptBy (t.compact order).state.edges ∧ (t.compact order).state.Exact srcBound dstBound ∧
      ∀ e s, t.compact order = .failed e s → e = .sortKeyUnsupported := by
  have hsettled := h.settled
  rw [h.compact_eq]
  cases order with
  | none =>
    refine ⟨t.keptBy_settled, hsettled, fun e s hfailed => ?_⟩
    cases hfailed
  | some order =>
    simp only
    split
    · refine ⟨t.keptBy_settled.trans (t.settled.keptBy_sorted order), hsettled.sorted order,
        fun e s hfailed => ?_⟩
      cases hfailed
    · refine ⟨t.keptBy_settled, hsettled, fun e s hfailed => ?_⟩
      cases hfailed
      rfl

end CountedTable

end Neug.Storage
