import Neug.Storage.CsrBatch
import Neug.Storage.EdgeBatchLoad
import Neug.Storage.EdgePropertyChange

/-! # What loading edges stores

A stream asks for the edges of the rows whose two keys name existing vertices, with the
values of the rows.  The indexers also know the keys of deleted vertices, columns cannot
hold nulls and cut strings, and structures with one entry per vertex overwrite.  This file
gives the condition under which a load stores exactly what the stream asks for.
-/

namespace Neug.Storage

open Library Function Column List

open Table (Storable insertAll keptRow row)

/-! ## Values -/

theorem null_not_mem_valued (types : List DataType) (values : List Value) :
    .null ∉ valued types values := by
  intro hmem
  rw [valued, mem_iff_getElem] at hmem
  obtain ⟨i, hi, heq⟩ := hmem
  rw [getElem_zipWith] at heq
  exact getValue_ne_null _ _ heq

theorem stored_getValue (t : DataType) (v : Value) : stored t (getValue t v) = stored t v := by
  unfold getValue
  split
  next hnull =>
    subst hnull
    cases t <;> rfl
  next => rfl

/-- A column keeps of what a chunk hands out what it keeps of the value. -/
theorem keeps_getValue (t : DataType) (v : Value) : keeps t (getValue t v) = keeps t v := by
  rw [keeps, stored_getValue]
  rfl

theorem keptRow_valued (types : List DataType) (values : List Value) :
    keptRow types (valued types values) = keptRow types values := by
  induction types generalizing values with
  | nil => rfl
  | cons t types ih =>
    cases values with
    | nil => rfl
    | cons v values =>
      have hrest := ih values
      rw [valued, zipWith_cons_cons, keptRow, zipWith_cons_cons,
        keeps_getValue, keptRow, zipWith_cons_cons]
      exact congrArg _ hrest

theorem storable_valued {types : List DataType} {values : List Value}
    (hlength : values.length = types.length) : Forall₂ Storable types (valued types values) ↔
      Forall₂ Storable types values := by
  induction types generalizing values with
  | nil => rw [length_eq_zero_iff.mp hlength]; rfl
  | cons t types ih =>
    cases values with
    | nil => cases hlength
    | cons v values =>
      have hstored : Storable t (getValue t v) ↔ Storable t v := by
        rw [Storable, stored_getValue]
        rfl
      rw [valued, zipWith_cons_cons, forall₂_cons, hstored, forall₂_cons]
      exact and_congr_right fun _ => ih (Nat.succ.inj hlength)

theorem keeps_keeps {t : DataType} {v : Value} (h : Storable t v) :
    keeps t (keeps t v) = keeps t v := by
  have hstored := stored_eq_keeps h
  have hagain : stored t (keeps t v) = some (keeps t v) := by
    cases t with
    | empty => exact hstored
    | fixed t =>
      obtain hkeeps : (if v = .null then Value.fixed t 0 else v) = keeps (.fixed t) v :=
        Option.some.inj hstored
      have hnull : keeps (.fixed t) v ≠ .null := by
        rw [← hkeeps]
        split
        · exact Value.noConfusion
        · assumption
      rw [stored, if_neg hnull]
    | varchar width =>
      obtain ⟨bytes, hkept, heq⟩ := Option.map_eq_some_iff.mp hstored
      rw [← heq, stored, Value.bytes, kept_of_length_le (length_kept_le_width hkept)]
      rfl
  rw [keeps, hagain]
  rfl

theorem keptRow_keptRow {types : List DataType} {values : List Value}
    (h : Forall₂ Storable types values) :
    keptRow types (keptRow types values) = keptRow types values := by
  induction h with
  | nil => rfl
  | @cons t v types values hv _ ih =>
    simp only [keptRow, zipWith_cons_cons] at ih ⊢
    rw [keeps_keeps hv, ih]

/-! ## Room -/

namespace EdgeTable

variable {et et' room : EdgeTable} {defaults : List Value} {needed : Nat}

structure Sized (et : EdgeTable) : Prop where
  columns : et.table.map type = if et.isBundled then [] else et.properties
  noEmpty : DataType.empty ∉ et.properties
  capacity : ∀ c ∈ et.table, et.capacity ≤ c.size
  used : ∀ c ∈ et.table, et.tableIdx ≤ c.size

/-- A table after room has been made for a number of rows. -/
structure Roomy (et room : EdgeTable) (needed : Nat) : Prop where
  properties : room.properties = et.properties
  out : room.outCsr = et.outCsr
  into : room.inCsr = et.inCsr
  types : room.table.map type = et.table.map type
  sizes : ∀ c ∈ room.table, needed ≤ c.size
  rows : ∀ i < et.tableIdx, row room.table i = row et.table i

/-- The defaults that new rows are filled with can be written. -/
def DefaultsStorable (et : EdgeTable) (needed : Nat) (defaults : List Value) : Prop :=
  et.capacity < needed → ∀ p ∈ et.properties.zip defaults, stored p.1 p.2 ≠ none

theorem Sized.types (h : et.Sized) (hrows : et.isBundled = false) :
    et.table.map type = et.properties := by
  rw [h.columns, hrows]
  rfl

/-- Room can be made if the defaults can be written. -/
theorem ensureCapacity_roomy (h : et.Sized) (hrows : et.isBundled = false)
    (hneeded : et.tableIdx ≤ needed) (hdeclared : Forall₂ Declares et.properties defaults)
    (hstorable : et.DefaultsStorable needed defaults) :
    ∃ room, et.ensureCapacity needed defaults = .ok room ∧ et.Roomy room needed := by
  unfold ensureCapacity
  by_cases hle : needed ≤ et.capacity
  · rw [if_pos (.inr hle)]
    exact ⟨et, rfl, rfl, rfl, rfl, rfl, fun c hc => hle.trans (h.capacity c hc), fun _ _ => rfl⟩
  · rw [if_neg (by simp [hrows, hle])]
    have hfills := fills_of_stored hdeclared (hstorable (Nat.lt_of_not_le hle))
    rw [← h.types hrows, forall₂_map_left_iff] at hfills
    obtain ⟨table', htable', hgrown⟩ := Table.resize_grown (max needed 4096) hfills
    rw [htable']
    refine ⟨_, rfl, rfl, rfl, rfl, hgrown.types, ?_, ?_⟩
    · intro c hc
      rw [hgrown.sizes c hc]
      exact Nat.le_max_left _ _
    · intro i hi
      have hlt : i < max needed 4096 := (hi.trans_le hneeded).trans_le (Nat.le_max_left _ _)
      rw [hgrown.rows i hlt]
      exact grownRow_of_lt hfills.length_eq fun c hc => hi.trans_le (h.used c hc)

theorem defaultsStorable_of_ok (h : et.Sized) (hrows : et.isBundled = false)
    (hok : et.ensureCapacity needed defaults = .ok room) : et.DefaultsStorable needed defaults := by
  intro hlt p hp
  rw [ensureCapacity, if_neg (by simp [hrows, hlt])] at hok
  obtain ⟨table, htable, -⟩ := bind_eq_ok.mp hok
  rw [mapError_eq_ok, Table.resize] at htable
  split at htable
  · cases htable
  · rw [← h.types hrows, zip_map_left, mem_map] at hp
    obtain ⟨q, hq, rfl⟩ := hp
    exact Table.stored_of_mapM htable q hq

/-! ## Loading -/

variable {edges : List (Nat × Nat × List Value)} {srcCap dstCap : Nat}

/-- An edge as an entry of a table with some properties keeps it. -/
def keepEdge (types : List DataType) (e : Nat × Nat × List Value) : Nat × Nat × List Value :=
  (e.1, e.2.1, keptRow types e.2.2)

def outEdge (et : EdgeTable) (e : Nat × Nbr) : Nat × Nat × List Value :=
  (e.1, e.2.neighbor, et.values e.2.data)

def inEdge (et : EdgeTable) (e : Nat × Nbr) : Nat × Nat × List Value :=
  (e.2.neighbor, e.1, et.values e.2.data)

/-- A table after edges have been loaded: the structures have taken the batch, edges that
were there have the values they had, and new ones what the columns keep. -/
structure Loaded (et et' : EdgeTable) (srcCap dstCap : Nat)
    (edges : List (Nat × Nat × List Value)) : Prop where
  out : et'.outCsr = (et.outCsr.resize srcCap).batchPutEdges (et.batchEntries edges)
  into : et'.inCsr =
    (et.inCsr.resize dstCap).batchPutEdges ((et.batchEntries edges).map flipEdge)
  old : ∀ data, (et.isBundled = false → rowOf data < et.tableIdx) →
    et'.values data = et.values data
  new : (et.batchEntries edges).map et'.outEdge = edges.map (keepEdge et.properties)

/-- The values of an edge to load: one per property, none of them null. -/
def Complete (et : EdgeTable) (edges : List (Nat × Nat × List Value)) : Prop :=
  ∀ e ∈ edges, e.2.2.length = et.properties.length ∧ Value.null ∉ e.2.2

section

variable (hbundled : et.isBundled = true)
include hbundled

theorem batchLoadEdges_of_bundled : et.batchLoadEdges srcCap dstCap edges defaults =
      .ok ((et.resizeVertices srcCap dstCap).putBatch (et.batchEntries edges)) := by
  have hsized : (et.resizeVertices srcCap dstCap).isBundled = true := hbundled
  rw [batchLoadEdges, batchAddEdges, ensureCapacity, if_pos (.inl hsized)]
  simp only [hsized, if_true]
  rfl

/-- Inline data are the only value, and are kept. -/
theorem values_bundledData (hne : DataType.empty ∉ et.properties)
    {values : List Value} (hlength : values.length = et.properties.length)
    (hnull : Value.null ∉ values) :
    et.values (bundledData values) = keptRow et.properties values := by
  rw [values_of_bundled hbundled]
  obtain hnil | ⟨t, hone, hvarchar⟩ := (isBundled_iff et).mp hbundled
  · rw [hnil] at hlength ⊢
    rfl
  · rw [hone] at hlength hne ⊢
    obtain ⟨v, rfl⟩ := length_eq_one_iff.mp hlength
    rw [mem_singleton] at hnull
    cases t with
    | empty => exact absurd (mem_singleton_self _) hne
    | varchar width => exact absurd rfl (hvarchar width)
    | fixed t =>
      have hkeeps : keeps (.fixed t) v = v := by
        rw [keeps, stored, if_neg (Ne.symm hnull)]
        rfl
      rw [keptRow, zipWith_cons_cons, hkeeps]
      rfl

theorem loaded_of_bundled (hne : DataType.empty ∉ et.properties) (hcomplete : et.Complete edges) :
    et.Loaded ((et.resizeVertices srcCap dstCap).putBatch (et.batchEntries edges)) srcCap dstCap
      edges := by
  refine ⟨rfl, rfl, fun _ _ => rfl, ?_⟩
  rw [batchEntries, if_pos hbundled, map_map]
  apply map_congr_left
  intro e he
  obtain ⟨hlength, hnull⟩ := hcomplete e he
  have hvalues := values_bundledData hbundled hne hlength hnull
  simp only [comp, outEdge, keepEdge, ← hvalues]
  rfl

end

/-- Loading edges with rows makes room and writes the rows. -/
theorem batchLoadEdges_rows_eq_ok (hrows : et.isBundled = false) :
    et.batchLoadEdges srcCap dstCap edges defaults = .ok et' ↔
      ∃ room table,
        (et.resizeVertices srcCap dstCap).ensureCapacity
          (edgeCapacityWithHeadroom (et.tableIdx + edges.length)) defaults = .ok room ∧
        Table.insertAll room.table et.tableIdx (edges.map fun e => e.2.2) = .ok table ∧
        et' = { room.putBatch (et.batchEntries edges) with
          table := table, tableIdx := et.tableIdx + edges.length } := by
  have hsized : ¬(et.resizeVertices srcCap dstCap).isBundled = true := by
    change ¬et.isBundled = true
    rw [hrows]
    exact Bool.false_ne_true
  have hwrite : ∀ table : List Column,
      Table.insertAll table et.tableIdx (edges.map fun e => e.2.2) =
        (edges.zipIdx et.tableIdx).foldlM
          (fun table m => Table.insert table m.2 m.1.2.2 true) table := by
    intro table
    rw [Table.insertAll, zipIdx_map, foldlM_map]
    rfl
  rw [batchLoadEdges, batchAddEdges, bind_eq_ok]
  constructor
  · rintro ⟨room, hroom, hok⟩
    rw [if_neg hsized, bind_eq_ok] at hok
    obtain ⟨table, htable, hok⟩ := hok
    cases hok
    exact ⟨room, table, hroom, (hwrite room.table).trans (mapError_eq_ok.mp htable), rfl⟩
  · rintro ⟨room, table, hroom, htable, rfl⟩
    refine ⟨room, hroom, ?_⟩
    rw [if_neg hsized, bind_eq_ok]
    exact ⟨table, mapError_eq_ok.mpr ((hwrite room.table).symm.trans htable), rfl⟩

theorem le_edgeCapacityWithHeadroom (m n : Nat) : m ≤ edgeCapacityWithHeadroom (m + n) := by
  unfold edgeCapacityWithHeadroom
  split
  · omega
  · split <;> omega

theorem Sized.resizeVertices (h : et.Sized) (srcCap dstCap : Nat) :
    (et.resizeVertices srcCap dstCap).Sized :=
  ⟨h.columns, h.noEmpty, h.capacity, h.used⟩

theorem loaded_of_rows (h : et.Sized) (hrows : et.isBundled = false)
    (hroomy : (et.resizeVertices srcCap dstCap).Roomy room needed) {table : List Column}
    (htable : insertAll room.table et.tableIdx (edges.map fun e => e.2.2) = .ok table) :
    et.Loaded { room.putBatch (et.batchEntries edges) with
      table := table, tableIdx := et.tableIdx + edges.length } srcCap dstCap edges := by
  have htypes : room.table.map type = et.properties := hroomy.types.trans (h.types hrows)
  obtain ⟨hfilled, -⟩ := Table.insertAll_filled (htypes.symm ▸ h.noEmpty) htable
  generalize het' : ({ room.putBatch (et.batchEntries edges) with
    table := table, tableIdx := et.tableIdx + edges.length } : EdgeTable) = et'
  have hproperties : et'.properties = et.properties := by
    rw [← het']
    exact hroomy.properties
  have hvalues : ∀ data, et'.values data = row table (rowOf data) := by
    intro data
    rw [values_of_rows (by rw [isBundled, hproperties]; exact hrows), ← het']
  refine ⟨?_, ?_, ?_, ?_⟩
  · rw [← het']
    change room.outCsr.batchPutEdges _ = _
    rw [hroomy.out]
    rfl
  · rw [← het']
    change room.inCsr.batchPutEdges _ = _
    rw [hroomy.into]
    rfl
  · intro data hdata
    have hlt := hdata hrows
    rw [hvalues, values_of_rows hrows, hfilled.before _ hlt]
    exact hroomy.rows _ hlt
  · have hmap : edges.map (keepEdge et.properties) =
        (edges.zipIdx et.tableIdx).map fun m => keepEdge et.properties m.1 := by
      conv_lhs => rw [← zipIdx_map_fst et.tableIdx edges, map_map]
      rfl
    rw [batchEntries, hrows, if_neg Bool.false_ne_true, map_map, hmap]
    apply map_congr_left
    rintro ⟨e, i⟩ hm
    obtain ⟨hle, hat⟩ := mem_zipIdx_iff_le_and_getElem?_sub.mp hm
    have hwritten := hfilled.written (i - et.tableIdx) e.2.2
      (by rw [getElem?_map, hat]; rfl)
    rw [Nat.add_sub_cancel' hle, htypes] at hwritten
    simp only [comp, outEdge, keepEdge, hvalues, rowOf_rowData, hwritten]

def RowsStorable (et : EdgeTable) (edges : List (Nat × Nat × List Value))
    (defaults : List Value) : Prop :=
  et.isBundled = false →
    et.DefaultsStorable (edgeCapacityWithHeadroom (et.tableIdx + edges.length)) defaults ∧
      ∀ e ∈ edges, Forall₂ Storable et.properties e.2.2

theorem batchLoadEdges_ok_iff (h : et.Sized)
    (hdeclared : Forall₂ Declares et.properties defaults) (hcomplete : et.Complete edges) :
    (∀ et', et.batchLoadEdges srcCap dstCap edges defaults = .ok et' →
        et.RowsStorable edges defaults ∧ et.Loaded et' srcCap dstCap edges) ∧
      (et.RowsStorable edges defaults →
        ∃ et', et.batchLoadEdges srcCap dstCap edges defaults = .ok et') := by
  cases hrows : et.isBundled with
  | true =>
    rw [batchLoadEdges_of_bundled hrows, RowsStorable, hrows]
    refine ⟨fun et' hok => ⟨Bool.noConfusion, ?_⟩, fun _ => ⟨_, rfl⟩⟩
    cases hok
    exact loaded_of_bundled hrows h.noEmpty hcomplete
  | false =>
    have hsized := h.resizeVertices srcCap dstCap
    have hroomy := ensureCapacity_roomy hsized hrows
      (le_edgeCapacityWithHeadroom et.tableIdx edges.length) hdeclared
    simp only [batchLoadEdges_rows_eq_ok hrows]
    constructor
    · rintro et' ⟨room, table, hroom, htable, rfl⟩
      have hdefaults := defaultsStorable_of_ok hsized hrows hroom
      obtain ⟨room', hroom', hroomy⟩ := hroomy hdefaults
      obtain rfl : room = room' := Except.ok.inj (hroom.symm.trans hroom')
      refine ⟨fun _ => ⟨hdefaults, fun e he => ?_⟩, loaded_of_rows h hrows hroomy htable⟩
      have hroomTypes : room.table.map type = et.properties :=
        hroomy.types.trans (h.types hrows)
      obtain ⟨-, hstorable⟩ := Table.insertAll_filled (hroomTypes.symm ▸ h.noEmpty) htable
      rw [hroomTypes] at hstorable
      exact hstorable e.2.2 (mem_map_of_mem he)
    · intro hstorable
      obtain ⟨hdefaults, hedges⟩ := hstorable hrows
      obtain ⟨room, hroom, hroomy⟩ := hroomy hdefaults
      have hroomTypes : room.table.map type = et.properties :=
        hroomy.types.trans (h.types hrows)
      obtain ⟨table, htable⟩ := @Table.insertAll_ok room.table et.tableIdx
        (edges.map fun e => e.2.2)
        (forall_mem_map.mpr fun c hc => by
          rw [length_map]
          exact (le_edgeCapacityWithHeadroom _ 0).trans (hroomy.sizes c hc))
        (forall_mem_map.mpr fun e he => (hcomplete e he).2)
        (forall_mem_map.mpr fun e he => hroomTypes ▸ hedges e he)
      exact ⟨_, room, table, hroom, htable, rfl⟩

/-! ## What a stream asks for -/

/-- The edges that a stream asks for: the rows whose two keys name vertices that exist at a
timestamp, with the values of the rows. -/
def wantedEdges (policy : HashPolicy) (src dst : VertexTable) (ts : Nat) (rows : List EdgeRow) :
    List (Nat × Nat × List Value) :=
  rows.filterMap fun row => do
    let s ← src.getLid policy row.src ts
    let d ← dst.getLid policy row.dst ts
    some (s, d, row.values)

/-- The rows whose keys the indexers know, with the ids that the keys stand for. -/
def knownEdges (policy : HashPolicy) (src dst : LFIndexer) (rows : List EdgeRow) :
    List (Nat × Nat × List Value) :=
  (knownRows policy src dst rows).map fun row =>
    ((row.ends policy src dst).1, (row.ends policy src dst).2, row.values)

def endsExist (src dst : VertexTable) (ts : Nat) (e : Nat × Nat × List Value) : Bool :=
  src.vts.isVertexValid e.1 ts && dst.vts.isVertexValid e.2.1 ts

variable {policy : HashPolicy} {src dst : VertexTable} {ts : Nat}

structure Indexes (policy : HashPolicy) (ix : LFIndexer) : Prop where
  wellFormed : ix.WellFormed policy
  ids : ix.capacity ≤ kNoVertex

variable {key : Value}

theorem Indexes.lt_capacity {ix : LFIndexer} (h : Indexes policy ix) {lid : Nat}
    (hlid : ix.getIndex policy key = some lid) : lid < ix.capacity := by
  obtain ⟨-, i, hi⟩ := LFIndexer.getIndex_sound hlid
  exact (h.wellFormed.claimed i lid hi).trans_le h.wellFormed.fits

theorem Indexes.lidOf_lt {ix : LFIndexer} (h : Indexes policy ix)
    (hknown : ix.lidOf policy key ≠ kNoVertex) : ix.lidOf policy key < ix.capacity := by
  unfold LFIndexer.lidOf at *
  cases hlid : ix.getIndex policy key with
  | none => simp [hlid] at hknown
  | some lid => exact h.lt_capacity hlid

theorem Indexes.getLid_eq {vt : VertexTable} (h : Indexes policy vt.indexer) (key : Value) :
    vt.getLid policy key ts =
      if vt.indexer.lidOf policy key ≠ kNoVertex ∧
        vt.vts.isVertexValid (vt.indexer.lidOf policy key) ts = true
      then some (vt.indexer.lidOf policy key) else none := by
  unfold VertexTable.getLid LFIndexer.lidOf
  cases hlid : vt.indexer.getIndex policy key with
  | none => simp
  | some lid => simp [Nat.ne_of_lt ((h.lt_capacity hlid).trans_le h.ids)]

/-- The rows that a stream asks for are the known ones whose vertices exist. -/
theorem wantedEdges_eq (hsrc : Indexes policy src.indexer) (hdst : Indexes policy dst.indexer)
    (rows : List EdgeRow) : wantedEdges policy src dst ts rows =
      (knownEdges policy src.indexer dst.indexer rows).filter (endsExist src dst ts) := by
  rw [wantedEdges, knownEdges, knownRows, ← filterMap_eq_map, ← filterMap_eq_filter,
    ← filterMap_eq_filter, filterMap_filterMap, filterMap_filterMap]
  apply filterMap_congr
  intro row _
  simp only [hsrc.getLid_eq, hdst.getLid_eq, EdgeRow.known, EdgeRow.ends, validEnds, endsExist,
    Option.guard]
  split_ifs <;> grind

/-! ## The contract -/

def imported (et : EdgeTable) : Multiset (Nat × Nat × List Value) :=
  et.inCsr.edges.map et.inEdge

/-- A table and the vertex tables of its ends before a load. -/
structure Loadable (policy : HashPolicy) (et : EdgeTable) (src dst : VertexTable) : Prop where
  sized : et.Sized
  outFramed : et.outCsr.Framed
  inFramed : et.inCsr.Framed
  outRows : et.isBundled = false → ∀ e ∈ et.outCsr.edges, rowOf e.2.data < et.tableIdx
  inRows : et.isBundled = false → ∀ e ∈ et.inCsr.edges, rowOf e.2.data < et.tableIdx
  outWithin : ∀ e ∈ et.outCsr.edges, e.1 < src.indexer.capacity
  inWithin : ∀ e ∈ et.inCsr.edges, e.1 < dst.indexer.capacity
  srcIndexes : Indexes policy src.indexer
  dstIndexes : Indexes policy dst.indexer

/-- The load succeeds and adds to each direction that is stored exactly the edges that the
stream asks for. -/
def LoadsExactly (policy : HashPolicy) (et : EdgeTable) (src dst : VertexTable) (ts : Nat)
    (chunks : List (EdgeChunk et.properties)) (defaults : List Value) : Prop :=
  ∃ et', et.loadEdges policy src.indexer dst.indexer chunks defaults = .ok et' ∧
    (et.outCsr.type ≠ .empty →
      et'.exported = et.exported + ↑(wantedEdges policy src dst ts (streamRows chunks))) ∧
    (et.inCsr.type ≠ .empty →
      et'.imported = et.imported + ↑(wantedEdges policy src dst ts (streamRows chunks)))

/-- The rows whose keys the indexers know ask for edges between existing vertices, with
values that are kept as they are, and structures with single entries have free places for
them; and the strings of these rows, and of the defaults that new rows get, can be cut. -/
structure LoadSound (policy : HashPolicy) (et : EdgeTable) (src dst : VertexTable) (ts : Nat)
    (rows : List EdgeRow) (defaults : List Value) : Prop where
  storable : et.RowsStorable (knownEdges policy src.indexer dst.indexer rows) defaults
  out : et.outCsr.TakesWanted (endsExist src dst ts) (keepEdge et.properties) (fun e => e.1)
    et.exported (knownEdges policy src.indexer dst.indexer rows)
  into : et.inCsr.TakesWanted (endsExist src dst ts) (keepEdge et.properties) (fun e => e.2.1)
    et.imported (knownEdges policy src.indexer dst.indexer rows)

section Contract

variable {chunks : List (EdgeChunk et.properties)}

theorem resolvedEdges_eq (rows : List EdgeRow) (types : List DataType) (src dst : LFIndexer) :
    resolvedEdges policy src dst types rows =
      (knownEdges policy src dst rows).map fun e => (e.1, e.2.1, valued types e.2.2) := by
  rw [resolvedEdges, knownEdges, map_map]
  rfl

section

variable (h : Loadable policy et src dst)
include h

/-- A known edge comes from a row of the stream whose keys are indexed. -/
theorem knownEdges_spec {e : Nat × Nat × List Value}
    (he : e ∈ knownEdges policy src.indexer dst.indexer (streamRows chunks)) :
    e.1 < src.indexer.capacity ∧ e.2.1 < dst.indexer.capacity ∧
      e.2.2.length = et.properties.length := by
  obtain ⟨row, hrow, rfl⟩ := mem_map.mp he
  obtain ⟨hmem, hknown⟩ := mem_filter.mp hrow
  simp only [EdgeRow.known, validEnds, Bool.and_eq_true, decide_eq_true_eq] at hknown
  exact ⟨h.srcIndexes.lidOf_lt hknown.1, h.dstIndexes.lidOf_lt hknown.2, length_values_of_mem hmem⟩

theorem complete_resolvedEdges :
    et.Complete (resolvedEdges policy src.indexer dst.indexer et.properties
      (streamRows chunks)) := by
  intro e he
  rw [resolvedEdges_eq, mem_map] at he
  obtain ⟨raw, hraw, rfl⟩ := he
  have hlength := (knownEdges_spec h hraw).2.2
  refine ⟨?_, null_not_mem_valued et.properties raw.2.2⟩
  rw [valued, length_zipWith, hlength, Nat.min_self]

theorem rowsStorable_resolvedEdges :
    et.RowsStorable (resolvedEdges policy src.indexer dst.indexer et.properties
        (streamRows chunks)) defaults ↔
      et.RowsStorable (knownEdges policy src.indexer dst.indexer (streamRows chunks)) defaults := by
  rw [RowsStorable, RowsStorable, resolvedEdges_eq, length_map]
  apply imp_congr_right
  intro _
  apply and_congr_right
  intro _
  rw [forall_mem_map]
  apply forall₂_congr
  intro e he
  exact storable_valued (knownEdges_spec h he).2.2

end

theorem storable_of_bundled (hbundled : et.isBundled = true) {values : List Value}
    (hlength : values.length = et.properties.length) : Forall₂ Storable et.properties values :=
  forall₂_iff_zip.mpr ⟨hlength.symm, fun hp => stored_ne_none hbundled (of_mem_zip hp).1 _⟩

theorem keepEdge_keepEdge (h : Loadable policy et src dst)
    (hstorable : et.RowsStorable (knownEdges policy src.indexer dst.indexer (streamRows chunks))
      defaults) {e : Nat × Nat × List Value}
    (he : e ∈ knownEdges policy src.indexer dst.indexer (streamRows chunks)) :
    keepEdge et.properties (keepEdge et.properties e) = keepEdge et.properties e := by
  have hvalues : Forall₂ Storable et.properties e.2.2 := by
    cases hrows : et.isBundled with
    | true => exact storable_of_bundled hrows (knownEdges_spec h he).2.2
    | false => exact (hstorable hrows).2 e he
  simp only [keepEdge, keptRow_keptRow hvalues]

/-! A load of edges whose ends are vertices of the tables. -/
section Loaded

variable {known resolved : List (Nat × Nat × List Value)} {wanted : Nat × Nat × List Value → Bool}
  (hloadable : Loadable policy et src dst)
  (hends : ∀ e ∈ known, e.1 < src.indexer.capacity ∧ e.2.1 < dst.indexer.capacity)
  (hresolved : resolved = known.map fun e => (e.1, e.2.1, valued et.properties e.2.2))
  (h : et.Loaded et' src.indexer.capacity dst.indexer.capacity resolved)

include hresolved h in
theorem Loaded.entries :
    (et.batchEntries resolved).map et'.outEdge = known.map (keepEdge et.properties) := by
  rw [h.new, hresolved, map_map]
  apply map_congr_left
  intro e _
  simp only [comp, keepEdge, keptRow_valued]

include hends hresolved

theorem batchEntries_ends_lt {e : Nat × Nbr} (he : e ∈ et.batchEntries resolved) :
    e.1 < src.indexer.capacity ∧ e.2.neighbor < dst.indexer.capacity := by
  have hmem : ends e ∈ (et.batchEntries resolved).map ends := mem_map_of_mem he
  rw [(et.fresh_batchEntries resolved).ends, hresolved, map_map] at hmem
  obtain ⟨raw, hraw, heq⟩ := mem_map.mp hmem
  exact (Prod.mk.inj heq).1 ▸ (Prod.mk.inj heq).2 ▸ hends raw hraw

include h

include hloadable

theorem Loaded.outBatch : et.outCsr.Batch src.indexer.capacity et.outEdge et'.outEdge (fun e => e.1)
    (keepEdge et.properties) known (et.batchEntries resolved) where
  framed := hloadable.outFramed
  within := hloadable.outWithin
  entries := h.entries hresolved
  capacity e he := (batchEntries_ends_lt hends hresolved he).1
  live := (et.fresh_batchEntries resolved).live
  old e he := by
    rw [outEdge, h.old e.2.data fun hrows => hloadable.outRows hrows e he]
    rfl
  owner_view e := rfl
  owner_keep a := rfl

theorem Loaded.inBatch : et.inCsr.Batch dst.indexer.capacity et.inEdge et'.inEdge (fun e => e.2.1)
    (keepEdge et.properties) known ((et.batchEntries resolved).map flipEdge) where
  framed := hloadable.inFramed
  within := hloadable.inWithin
  entries := by
    rw [map_map]
    exact h.entries hresolved
  capacity e he := by
    obtain ⟨entry, hentry, rfl⟩ := mem_map.mp he
    exact (batchEntries_ends_lt hends hresolved hentry).2
  live e he := by
    obtain ⟨entry, hentry, rfl⟩ := mem_map.mp he
    exact (et.fresh_batchEntries resolved).live entry hentry
  old e he := by
    rw [inEdge, h.old e.2.data fun hrows => hloadable.inRows hrows e he]
    rfl
  owner_view e := rfl
  owner_keep a := rfl

theorem Loaded.stored_iff
    (hwanted : ∀ e ∈ known, wanted (keepEdge et.properties e) = wanted e)
    (hkept : ∀ e ∈ known,
      keepEdge et.properties (keepEdge et.properties e) = keepEdge et.properties e) :
    ((et.outCsr.type ≠ .empty → et'.exported = et.exported + ↑(known.filter wanted)) ↔
      et.outCsr.TakesWanted wanted (keepEdge et.properties) (fun e => e.1) et.exported known) ∧
    ((et.inCsr.type ≠ .empty → et'.imported = et.imported + ↑(known.filter wanted)) ↔
      et.inCsr.TakesWanted wanted (keepEdge et.properties) (fun e => e.2.1) et.imported known) := by
  rw [exported, imported, h.out, h.into]
  exact ⟨(h.outBatch hloadable hends hresolved).takes_iff hwanted hkept,
    (h.inBatch hloadable hends hresolved).takes_iff hwanted hkept⟩

end Loaded

/-- A load stores exactly the rows whose two vertices exist, each with the values of its own
row, if and only if the known rows are sound. -/
theorem loadsExactly_iff (h : Loadable policy et src dst)
    (hdeclared : Forall₂ Declares et.properties defaults)
    (hsuits : ∀ chunk ∈ chunks, chunk.src.Suits src.indexer ∧ chunk.dst.Suits dst.indexer) :
    et.LoadsExactly policy src dst ts chunks defaults ↔
      et.LoadSound policy src dst ts (streamRows chunks) defaults := by
  have hload := fun et' => @loadEdges_eq_ok policy et et' src.indexer dst.indexer chunks defaults
    hsuits h.sized.columns h.sized.noEmpty
  have hcomplete := @complete_resolvedEdges et policy src dst chunks h
  have hok := @batchLoadEdges_ok_iff et defaults _ src.indexer.capacity dst.indexer.capacity
    h.sized hdeclared hcomplete
  rw [rowsStorable_resolvedEdges h] at hok
  rw [LoadsExactly, wantedEdges_eq h.srcIndexes h.dstIndexes]
  have hends := fun e (he : e ∈ knownEdges policy src.indexer dst.indexer (streamRows chunks)) =>
    And.intro (knownEdges_spec h he).1 (knownEdges_spec h he).2.1
  have hresolved :=
    @resolvedEdges_eq policy (streamRows chunks) et.properties src.indexer dst.indexer
  have hstored := fun et' hloaded hstorable => @Loaded.stored_iff et et' policy src dst _ _
    (endsExist src dst ts) h hends hresolved hloaded (fun _ _ => rfl)
    fun e => @keepEdge_keepEdge et defaults policy src dst chunks h hstorable e
  constructor
  · rintro ⟨et', hrun, hout, hin⟩
    obtain ⟨hstorable, hloaded⟩ := hok.1 et' ((hload et').mp hrun)
    obtain ⟨houtIff, hinIff⟩ := hstored et' hloaded hstorable
    exact ⟨hstorable, houtIff.mp hout, hinIff.mp hin⟩
  · rintro ⟨hstorable, hout, hin⟩
    obtain ⟨et', hbatch⟩ := hok.2 hstorable
    obtain ⟨houtIff, hinIff⟩ := hstored et' (hok.1 et' hbatch).2 hstorable
    exact ⟨et', (hload et').mpr hbatch, houtIff.mpr hout, hinIff.mpr hin⟩

/-! ### A load of two chunks -/

def oneKey : LFIndexer where
  keys := ⟨.fixed .int64, 1, 0, 0, fun _ => .fixed .int64 7⟩
  indices := fun i => if i = 0 then some 0 else none
  numSlots := 2
  numElements := 1

/-- A vertex table whose only vertex has the key 7; it may have been removed. -/
def oneVertex (removed : Finset Nat) : VertexTable where
  indexer := oneKey
  vts := ⟨1, 1, Nat.le_refl 1, fun _ => kDeletedTimestamp, removed⟩
  table := []

/-- Strings are not stored inline. -/
def oneColumn : EdgeTable :=
  ⟨[.varchar 8], ⟨.mutable, 0, fun _ => []⟩, ⟨.mutable, 0, fun _ => []⟩,
    [⟨.varchar 8, 0, 0, 0, fun _ => .varchar []⟩], 0, 0⟩

/-- The second row of the first chunk has a source that is not known. -/
def twoChunks : List (EdgeChunk [.varchar 8]) :=
  [⟨⟨.fixed .int64, false, [.fixed .int64 7, .fixed .int64 8]⟩,
      ⟨.fixed .int64, false, [.fixed .int64 7, .fixed .int64 7]⟩,
      [[.varchar [97], .varchar [98]]], rfl, .cons (by decide) .nil⟩,
    ⟨⟨.fixed .int64, false, [.fixed .int64 7]⟩, ⟨.fixed .int64, false, [.fixed .int64 7]⟩,
      [[.varchar [99]]], rfl, .cons (by decide) .nil⟩]

theorem oneKey_indexes : Indexes firstSlot oneKey := by
  have hslot : ∀ i lid, oneKey.indices i = some lid → i = 0 ∧ lid = 0 := by
    intro i lid h
    simp only [oneKey] at h
    split at h
    next hi => exact ⟨hi, (Option.some.inj h).symm⟩
    next => cases h
  refine ⟨⟨⟨by decide, ?_, ?_, ?_⟩, ?_, ?_, by decide⟩, by decide⟩
  · intro i j lid lid' hi hj _
    rw [(hslot i lid hi).2, (hslot j lid' hj).2]
  · intro i lid hi
    obtain ⟨rfl, rfl⟩ := hslot i lid hi
    exact ⟨0, rfl, by decide, occupied_zero _ _ _⟩
  · intro i lid _
    exact ⟨Value.noConfusion, rfl⟩
  · intro lid hlid
    obtain rfl : lid = 0 := Nat.lt_one_iff.mp hlid
    exact ⟨0, rfl⟩
  · intro i lid hi
    rw [(hslot i lid hi).2]
    decide

theorem oneColumn_loadable (removed : Finset Nat) :
    Loadable firstSlot oneColumn (oneVertex removed) (oneVertex removed) := by
  have hframed : oneColumn.outCsr.Framed := ⟨fun _ _ => rfl, fun h => by cases h⟩
  have hnone : ∀ e ∈ oneColumn.outCsr.edges, False := fun e he => Multiset.notMem_zero e he
  refine ⟨⟨rfl, by decide, fun _ _ => Nat.zero_le _, fun _ _ => Nat.zero_le _⟩, hframed, hframed,
    ?_, ?_, ?_, ?_, oneKey_indexes, oneKey_indexes⟩
  · exact fun _ e he => (hnone e he).elim
  · exact fun _ e he => (hnone e he).elim
  · exact fun e he => (hnone e he).elim
  · exact fun e he => (hnone e he).elim

theorem twoChunks_suits :
    ∀ chunk ∈ twoChunks, chunk.src.Suits oneKey ∧ chunk.dst.Suits oneKey := by
  simp [twoChunks, KeyColumn.Suits, oneKey, DataType.sameId]

theorem oneColumn_declares : Forall₂ Declares oneColumn.properties [Value.varchar []] :=
  .cons ⟨DataType.noConfusion, trivial, Value.noConfusion⟩ .nil

/-- Each of the two known rows is loaded with its own string. -/
theorem loadsExactly_twoChunks :
    oneColumn.LoadsExactly firstSlot (oneVertex ∅) (oneVertex ∅) kMaxReadTimestamp twoChunks
      [.varchar []] := by
  refine (loadsExactly_iff (oneColumn_loadable ∅) oneColumn_declares twoChunks_suits).mpr ?_
  have htakes : ∀ a ∈ [(0, 0, [Value.varchar [97]]), (0, 0, [Value.varchar [99]])],
      endsExist (oneVertex ∅) (oneVertex ∅) kMaxReadTimestamp a = true ∧
        keepEdge oneColumn.properties a = a := by
    decide
  exact ⟨fun _ => ⟨fun _ => by decide, by decide⟩, htakes, htakes⟩

/-- The rows of a deleted vertex are loaded too: its key is still in the indexer. -/
theorem load_keeps_deleted_ends :
    ¬oneColumn.LoadsExactly firstSlot (oneVertex {0}) (oneVertex {0}) kMaxReadTimestamp twoChunks
      [.varchar []] := by
  rintro ⟨et', hrun, hout, -⟩
  have hloadable := oneColumn_loadable {0}
  have hcomplete := @complete_resolvedEdges oneColumn firstSlot _ _ twoChunks hloadable
  have hbatch := (loadEdges_eq_ok twoChunks_suits rfl hloadable.sized.noEmpty).mp hrun
  have hloaded :=
    ((batchLoadEdges_ok_iff hloadable.sized oneColumn_declares hcomplete).1 et' hbatch).2
  have hends : ∀ e ∈ knownEdges firstSlot oneKey oneKey (streamRows twoChunks),
      e.1 < oneKey.capacity ∧ e.2.1 < oneKey.capacity := by decide
  rw [wantedEdges_eq hloadable.srcIndexes hloadable.dstIndexes] at hout
  have htakes := (hloaded.stored_iff hloadable hends rfl (fun _ _ => rfl) (by decide)).1.mp hout
  have hexists := (htakes _ mem_cons_self).1
  exact absurd hexists (by decide)

end Contract

end EdgeTable

end Neug.Storage
