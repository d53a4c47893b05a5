import Mathlib.Data.List.GetD
import Neug.Library.ColumnMajor
import Neug.Library.Compaction
import Neug.Storage.EdgeTableBatch
import Neug.Storage.TableInsert

/-! # Loading edges from chunks

Edges are loaded from a stream of chunks.  A chunk has a column of source keys, a column of
destination keys and a column per property.  First the keys of all chunks are resolved to
vertex ids, then the rows with an unknown key are filtered out in place, and last the
properties are read from the chunks again, which were not filtered, by the flags of the
filter.  This file shows that the loop gives each edge the properties of its own row.
-/

namespace Neug.Storage

open Library List Column

/-! ## Chunks -/

/-- Two types have the same id: the widths of strings do not matter. -/
def DataType.sameId : DataType → DataType → Bool
  | .varchar _, .varchar _ => true
  | t, t' => t = t'

structure KeyColumn where
  elemType : DataType
  isOptional : Bool
  values : List Value

/-- A chunk for an edge table with some properties: all columns have as many rows, and the
values of a property column are null or of the type of the property. -/
structure EdgeChunk (properties : List DataType) where
  src : KeyColumn
  dst : KeyColumn
  columns : List (List Value)
  sameRows : dst.values.length = src.values.length
  typed : Forall₂ (fun t col => col.length = src.values.length ∧ ∀ v ∈ col, v.HasType t)
    properties columns

structure EdgeRow where
  src : Value
  dst : Value
  values : List Value
  deriving DecidableEq, Repr

variable {properties : List DataType}

namespace EdgeChunk

variable (chunk : EdgeChunk properties)

def rowNum : Nat := chunk.src.values.length

def row (i : Nat) : EdgeRow :=
  ⟨chunk.src.values.getD i .null, chunk.dst.values.getD i .null,
    chunk.columns.map fun col => col.getD i .null⟩

def rows : List EdgeRow :=
  (range chunk.rowNum).map chunk.row

end EdgeChunk

def streamRows (chunks : List (EdgeChunk properties)) : List EdgeRow := chunks.flatMap (·.rows)

/-! ## The loops -/

inductive LoadError where
  | keyTypeMismatch
  | optionalKey
  | unsupportedInserter
  | edge (error : EdgeError)
  deriving DecidableEq, Repr

def kNoVertex : Nat := 4294967295

/-- `get_index` of a key, with the sentinel for a key that is not there. -/
def LFIndexer.lidOf (policy : HashPolicy) (ix : LFIndexer) (key : Value) : Nat :=
  (ix.getIndex policy key).getD kNoVertex

def LFIndexer.getIndexColumn (policy : HashPolicy) (ix : LFIndexer) (keys : KeyColumn) :
    Except LoadError (List Nat) :=
  if !keys.elemType.sameId ix.keys.type then .error .keyTypeMismatch
  else if keys.isOptional then .error .optionalKey
  else .ok (keys.values.map (ix.lidOf policy))

/-- What has been collected from the chunks: the ids of both ends, and the property columns
of inline edges or of edges with rows. -/
structure Collected where
  lids : List (Nat × Nat)
  bundledCols : List (List Value)
  unbundledChunks : List (List (List Value))

def collectChunk (policy : HashPolicy) (src dst : LFIndexer) (bundled : Bool) (acc : Collected)
    (chunk : EdgeChunk properties) : Except LoadError Collected := do
  let srcLids ← src.getIndexColumn policy chunk.src
  let dstLids ← dst.getIndexColumn policy chunk.dst
  let lids := acc.lids ++ srcLids.zip dstLids
  match chunk.columns with
  | [] => .ok ⟨lids, acc.bundledCols, acc.unbundledChunks⟩
  | col :: cols =>
    if bundled then .ok ⟨lids, acc.bundledCols ++ [col], acc.unbundledChunks⟩
    else .ok ⟨lids, acc.bundledCols, acc.unbundledChunks ++ [col :: cols]⟩

def validEnds (ends : Nat × Nat) : Bool := ends.1 ≠ kNoVertex && ends.2 ≠ kNoVertex

def filterInvalidEdges (lids : List (Nat × Nat)) : List (Nat × Nat) × List Bool :=
  compactInPlace validEnds lids

/-- `get_value` of a value column: a null entry holds the zero of its type. -/
def getValue (t : DataType) (v : Value) : Value := if v = .null then zero t else v

/-- The loop of `insert_edges_bundled_typed_impl`, from a position of the flags on. -/
def bundledEdgeData (t : DataType) (flags : List Bool) : Nat → List (List Value) → List Value
  | _, [] => []
  | cur, col :: cols =>
    (validRows flags cur col.length).map (fun i => getValue t (col.getD i .null)) ++
      bundledEdgeData t flags (cur + col.length) cols

/-- `insert` of a `TypedColumnInserter`. -/
def Column.insertValue (c : Column) (idx : Nat) (v : Value) : Except ColumnError Column :=
  match c.type with
  | .varchar _ => c.setAny idx (getValue c.type v) true
  | _ => c.setFixed idx (getValue c.type v)

/-- The state of `batch_add_unbundled_edges_impl`. -/
structure Writing where
  curIndex : Nat
  offset : Nat
  table : List Column

/-- The round of `batch_add_unbundled_edges_impl` for a chunk: the flagged rows are written
column by column to the next rows of the table. -/
def writeChunk (flags : List Bool) (s : Writing) (columns : List (List Value)) :
    Except ColumnError Writing := do
  let numRows := (columns.headD []).length
  let rows := validRows flags s.curIndex numRows
  let table ← writeColumns (fun m c v => c.insertValue m.2 v)
    (columns.map fun col m => col.getD m.1 .null) (rows.zipIdx s.offset) s.table
  .ok ⟨s.curIndex + numRows, s.offset + rows.length, table⟩

namespace EdgeTable

/-- The outgoing entries of `batch_add_bundled_edges_impl`. -/
def bundledEntries (et : EdgeTable) (lids : List (Nat × Nat)) (flags : List Bool)
    (dataCols : List (List Value)) : List (Nat × Nbr) :=
  match et.properties with
  | [] => lids.map fun e => (e.1, ⟨e.2, 0, .empty⟩)
  | .empty :: _ => lids.map fun e => (e.1, ⟨e.2, 0, .empty⟩)
  | t :: _ => (lids.zip (bundledEdgeData t flags 0 dataCols)).map fun m =>
    (m.1.1, ⟨m.1.2, 0, m.2⟩)

/-- The outgoing entries of `insert_edges_separated_impl`. -/
def separatedEntries (lids : List (Nat × Nat)) (offset : Nat) : List (Nat × Nbr) :=
  (lids.zipIdx offset).map fun m => (m.1.1, ⟨m.1.2, 0, rowData m.2⟩)

/-- `BatchAddEdges` of a supplier. -/
def loadEdges (policy : HashPolicy) (et : EdgeTable) (src dst : LFIndexer)
    (chunks : List (EdgeChunk et.properties)) (defaults : List Value) :
    Except LoadError EdgeTable := do
  let sized := et.resizeVertices src.capacity dst.capacity
  let collected ← chunks.foldlM (collectChunk policy src dst et.isBundled) ⟨[], [], []⟩
  let filtered := filterInvalidEdges collected.lids
  let room ← (sized.ensureCapacity
    (edgeCapacityWithHeadroom (et.tableIdx + filtered.1.length)) defaults).mapError .edge
  if et.isBundled then
    .ok (room.putBatch (et.bundledEntries filtered.1 filtered.2 collected.bundledCols))
  else if .empty ∈ et.properties then .error .unsupportedInserter
  else do
    let written ← (collected.unbundledChunks.foldlM (writeChunk filtered.2)
      ⟨0, et.tableIdx, room.table⟩).mapError fun e => .edge (.column e)
    .ok { room.putBatch (separatedEntries filtered.1 et.tableIdx) with
      table := written.table, tableIdx := et.tableIdx + filtered.1.length }

end EdgeTable

/-! ## Rows and columns -/

theorem map_getD_range {α : Type*} (l : List α) (d : α) :
    (range l.length).map (fun i => l.getD i d) = l := by
  apply ext_getElem
  · rw [length_map, length_range]
  · intro i _ hi
    rw [getElem_map, getElem_range, getD_eq_getElem l d hi]

namespace EdgeChunk

variable (chunk : EdgeChunk properties)

theorem length_rows : chunk.rows.length = chunk.rowNum := by
  rw [rows, length_map, length_range]

theorem getD_rows {i : Nat} (hi : i < chunk.rowNum) (d : EdgeRow) :
    chunk.rows.getD i d = chunk.row i := by
  rw [getD_eq_getElem _ d (chunk.length_rows.symm ▸ hi)]
  simp only [rows, getElem_map, getElem_range]

/-- The first property column holds the first properties of the rows. -/
theorem head_columns {col : List Value} {cols : List (List Value)}
    (h : chunk.columns = col :: cols) :
    chunk.rows.map (fun row => row.values.headD .null) = col := by
  have hlength : col.length = chunk.rowNum := by
    have htyped := chunk.typed
    rw [h, forall₂_cons_right_iff] at htyped
    obtain ⟨t, ts, hcol, -, -⟩ := htyped
    exact hcol.1
  rw [rows, map_map, ← hlength]
  conv_rhs => rw [← map_getD_range col .null]
  apply map_congr_left
  intro i _
  simp only [Function.comp, row, h, map_cons, headD_cons]

theorem length_values (i : Nat) : (chunk.row i).values.length = properties.length := by
  rw [row, length_map]
  exact chunk.typed.length_eq.symm

end EdgeChunk

/-! ## Alignment -/

section Alignment

variable (policy : HashPolicy) (src dst : LFIndexer)

def KeyColumn.Suits (keys : KeyColumn) (ix : LFIndexer) : Prop :=
  keys.elemType.sameId ix.keys.type = true ∧ keys.isOptional = false

def EdgeRow.ends (row : EdgeRow) : Nat × Nat := (src.lidOf policy row.src, dst.lidOf policy row.dst)

def EdgeRow.known (row : EdgeRow) : Bool := validEnds (row.ends policy src dst)

def knownRows (rows : List EdgeRow) : List EdgeRow := rows.filter (EdgeRow.known policy src dst)

def valued (types : List DataType) (values : List Value) : List Value :=
  zipWith getValue types values

/-- The edges that a stream asks for, as the indexers see it. -/
def resolvedEdges (types : List DataType) (rows : List EdgeRow) : List (Nat × Nat × List Value) :=
  (knownRows policy src dst rows).map fun row =>
    ((row.ends policy src dst).1, (row.ends policy src dst).2, valued types row.values)

variable {policy src dst}

def EdgeChunk.bundledCol (bundled : Bool) (chunk : EdgeChunk properties) : List (List Value) :=
  if bundled then chunk.columns.take 1 else []

def EdgeChunk.unbundledCols (bundled : Bool) (chunk : EdgeChunk properties) :
    List (List (List Value)) :=
  if bundled ∨ chunk.columns = [] then [] else [chunk.columns]

theorem collectChunk_eq {chunk : EdgeChunk properties} (hsrc : chunk.src.Suits src)
    (hdst : chunk.dst.Suits dst) (bundled : Bool) (acc : Collected) :
    collectChunk policy src dst bundled acc chunk =
      .ok ⟨acc.lids ++ chunk.rows.map (EdgeRow.ends policy src dst),
        acc.bundledCols ++ chunk.bundledCol bundled,
        acc.unbundledChunks ++ chunk.unbundledCols bundled⟩ := by
  have hends : (chunk.src.values.map (src.lidOf policy)).zip
      (chunk.dst.values.map (dst.lidOf policy)) =
      chunk.rows.map (EdgeRow.ends policy src dst) := by
    have hsrc := map_getD_range chunk.src.values .null
    have hdst := map_getD_range chunk.dst.values .null
    rw [chunk.sameRows] at hdst
    rw [← hsrc, ← hdst, map_map, map_map, zip_map', EdgeChunk.rows, map_map]
    rfl
  simp only [collectChunk, LFIndexer.getIndexColumn, hsrc.1, hsrc.2, hdst.1, hdst.2, Bool.not_true,
    Bool.false_eq_true, if_false, Except.bind, bind, hends, EdgeChunk.bundledCol,
    EdgeChunk.unbundledCols]
  cases chunk.columns with
  | nil => cases bundled <;> simp
  | cons col cols => cases bundled <;> simp

theorem foldlM_collectChunk {chunks : List (EdgeChunk properties)}
    (hsuits : ∀ chunk ∈ chunks, chunk.src.Suits src ∧ chunk.dst.Suits dst) (bundled : Bool)
    (acc : Collected) : chunks.foldlM (collectChunk policy src dst bundled) acc =
      .ok ⟨acc.lids ++ (streamRows chunks).map (EdgeRow.ends policy src dst),
        acc.bundledCols ++ chunks.flatMap (EdgeChunk.bundledCol bundled),
        acc.unbundledChunks ++ chunks.flatMap (EdgeChunk.unbundledCols bundled)⟩ := by
  induction chunks generalizing acc with
  | nil => simp [streamRows, pure, Except.pure]
  | cons chunk rest ih =>
    obtain ⟨hsrc, hdst⟩ := hsuits chunk mem_cons_self
    rw [foldlM_cons, collectChunk_eq hsrc hdst]
    refine (ih (fun c hc => hsuits c (mem_cons_of_mem chunk hc)) _).trans ?_
    simp only [streamRows, flatMap_cons, map_append, append_assoc]

/-- The filter keeps the rows whose keys are known. -/
theorem filterInvalidEdges_ends (rows : List EdgeRow) :
    filterInvalidEdges (rows.map (EdgeRow.ends policy src dst)) =
      ((knownRows policy src dst rows).map (EdgeRow.ends policy src dst),
        rows.map (EdgeRow.known policy src dst)) := by
  rw [filterInvalidEdges, compactInPlace_eq, filter_map, map_map]
  rfl

variable {table : List Column} {types : List DataType} {offset : Nat}

/-- The inline data are the properties of the rows that were kept. -/
theorem bundledEdgeData_eq {t : DataType} (p : EdgeRow → Bool)
    (chunks : List (EdgeChunk (t :: types))) (before : List Bool) :
    bundledEdgeData t (before ++ (streamRows chunks).map p) before.length
        (chunks.flatMap (EdgeChunk.bundledCol true)) =
      ((streamRows chunks).filter p).map fun row => getValue t (row.values.headD .null) := by
  induction chunks generalizing before with
  | nil => rfl
  | cons chunk rest ih =>
    obtain ⟨col, cols, hcols⟩ : ∃ col cols, chunk.columns = col :: cols := by
      have htyped := chunk.typed
      rw [forall₂_cons_left_iff] at htyped
      obtain ⟨col, cols, -, -, hcols⟩ := htyped
      exact ⟨col, cols, hcols⟩
    have hhead := chunk.head_columns hcols
    have hlength : col.length = chunk.rows.length := by rw [← hhead, length_map]
    have hpick := map_validRows p (fun row => row.values.headD .null) .null chunk.rows before
      ((streamRows rest).map p)
    have hrest := ih (before ++ chunk.rows.map p)
    have hcol : chunk.bundledCol true = [col] := by
      rw [EdgeChunk.bundledCol, if_pos rfl, hcols]
      rfl
    have hrows : streamRows (chunk :: rest) = chunk.rows ++ streamRows rest := rfl
    rw [hhead] at hpick
    rw [length_append, length_map] at hrest
    rw [hrows, flatMap_cons, hcol, singleton_append, bundledEdgeData, hlength,
      map_append, ← append_assoc, hrest, filter_append, map_append]
    congr 1
    have hvalue := congrArg (List.map (getValue t)) hpick
    rw [map_map, map_map] at hvalue
    exact hvalue

/-! ### Edges with rows -/

theorem getValue_ne_null (t : DataType) (v : Value) : getValue t v ≠ .null := by
  unfold getValue
  split
  · cases t <;> exact Value.noConfusion
  · assumption

theorem Column.insertValue_eq {c : Column} (hne : c.type ≠ .empty) (idx : Nat) (v : Value) :
    c.insertValue idx v = c.setAny idx (getValue c.type v) true := by
  unfold insertValue setAny
  cases htype : c.type with
  | empty => exact absurd htype hne
  | varchar width => rfl
  | fixed t => simp only [if_neg (getValue_ne_null _ v)]

def insertRow (table : List Column) (idx : Nat) (values : List Value) :
    Except ColumnError (List Column) :=
  (table.zip values).mapM fun p => p.1.insertValue idx p.2

def insertRows (table : List Column) (offset : Nat) (rows : List EdgeRow) :
    Except ColumnError (List Column) :=
  (rows.zipIdx offset).foldlM (fun table m => insertRow table m.2 m.1.values) table

theorem insertRows_append (table : List Column) (offset : Nat) (rows rows' : List EdgeRow) :
    insertRows table offset (rows ++ rows') =
      insertRows table offset rows >>= fun t => insertRows t (offset + rows.length) rows' := by
  rw [insertRows, zipIdx_append, foldlM_append, Nat.add_comm]
  rfl

theorem writeChunk_eq_ok (p : EdgeRow → Bool) (chunk : EdgeChunk properties)
    (hproperties : properties ≠ []) {before after : List Bool}
    (htable : table.length = properties.length) {s : Writing} :
    writeChunk (before ++ chunk.rows.map p ++ after) ⟨before.length, offset, table⟩ chunk.columns =
        .ok s ↔ ∃ table', insertRows table offset (chunk.rows.filter p) = .ok table' ∧
        s = ⟨before.length + chunk.rowNum, offset + (chunk.rows.filter p).length, table'⟩ := by
  have hnum : (chunk.columns.headD []).length = chunk.rowNum := by
    have htyped := chunk.typed
    cases hcols : chunk.columns with
    | nil =>
      rw [hcols, forall₂_nil_right_iff] at htyped
      exact absurd htyped hproperties
    | cons col cols =>
      rw [headD_cons, ← chunk.head_columns hcols, length_map, chunk.length_rows]
  -- the rows that the flags select
  have hpicked : (validRows (before ++ chunk.rows.map p ++ after) before.length chunk.rowNum).map
      chunk.row = chunk.rows.filter p := by
    have hpick := map_validRows p id ⟨.null, .null, []⟩ chunk.rows before after
    rw [map_id, map_id, chunk.length_rows] at hpick
    rw [← hpick]
    apply map_congr_left
    intro i hi
    exact (chunk.getD_rows (mem_range.mp (mem_filter.mp hi).1) _).symm
  rw [writeChunk, hnum, ← hpicked, length_map]
  generalize validRows (before ++ chunk.rows.map p ++ after) before.length chunk.rowNum = picked
  have hlength : table.length = (chunk.columns.map fun col (m : Nat × Nat) =>
      col.getD m.1 .null).length := by
    rw [length_map, htable]
    exact chunk.typed.length_eq
  -- writing by columns and writing by rows give the same table
  have hrows : insertRows table offset (picked.map chunk.row) =
      writeRows (fun m c v => c.insertValue m.2 v)
        (chunk.columns.map fun col (m : Nat × Nat) => col.getD m.1 .null)
        (picked.zipIdx offset) table := by
    rw [insertRows, zipIdx_map, foldlM_map]
    congr 1
    funext t m
    simp only [writeRow, map_map]
    rfl
  rw [bind_eq_ok, hrows]
  constructor
  · rintro ⟨table', htable', hs⟩
    cases hs
    exact ⟨table', (writeColumns_eq_ok hlength).mp htable', rfl⟩
  · rintro ⟨table', htable', rfl⟩
    exact ⟨table', (writeColumns_eq_ok hlength).mpr htable', rfl⟩

/-- The rows that were kept are written one after the other. -/
theorem foldlM_writeChunk_eq_ok (p : EdgeRow → Bool) (hproperties : properties ≠ [])
    (chunks : List (EdgeChunk properties)) {before : List Bool}
    (htable : table.length = properties.length) {s : Writing} :
    (chunks.flatMap (EdgeChunk.unbundledCols false)).foldlM
        (writeChunk (before ++ (streamRows chunks).map p)) ⟨before.length, offset, table⟩ = .ok s ↔
      ∃ table', insertRows table offset ((streamRows chunks).filter p) = .ok table' ∧
        s = ⟨before.length + (streamRows chunks).length,
          offset + ((streamRows chunks).filter p).length, table'⟩ := by
  induction chunks generalizing before offset table with
  | nil =>
    constructor
    · intro h
      cases h
      exact ⟨table, rfl, rfl⟩
    · rintro ⟨table', htable', rfl⟩
      cases htable'
      rfl
  | cons chunk rest ih =>
    have hcols : chunk.unbundledCols false = [chunk.columns] := by
      have hne : chunk.columns ≠ [] := by
        intro hnil
        have htyped := chunk.typed
        rw [hnil, forall₂_nil_right_iff] at htyped
        exact hproperties htyped
      simp [EdgeChunk.unbundledCols, hne]
    have hrows : streamRows (chunk :: rest) = chunk.rows ++ streamRows rest := rfl
    have hlen : ∀ {t}, insertRows table offset (chunk.rows.filter p) = .ok t →
        t.length = properties.length := by
      intro t ht
      refine foldlM_keeps (fun t => t.length = properties.length) ?_ htable ht
      intro t m t' hm ht hround
      have hlength := (mapM_eq_ok.mp hround).length_eq
      obtain ⟨i, -, hi⟩ := mem_map.mp (mem_filter.mp (fst_mem_of_mem_zipIdx hm)).1
      rw [length_zip, ht, ← hi, chunk.length_values, Nat.min_self] at hlength
      exact hlength.symm
    have hcur : before.length + chunk.rowNum = (before ++ chunk.rows.map p).length := by
      rw [length_append, length_map, chunk.length_rows]
    rw [flatMap_cons, hcols, singleton_append, foldlM_cons, hrows,
      map_append, ← append_assoc, bind_eq_ok, filter_append, insertRows_append]
    simp only [bind_eq_ok, writeChunk_eq_ok p chunk hproperties htable]
    constructor
    · rintro ⟨_, ⟨t, ht, rfl⟩, hrest⟩
      rw [hcur] at hrest
      obtain ⟨table', htable', rfl⟩ := (ih (hlen ht)).mp hrest
      refine ⟨table', ⟨t, ht, htable'⟩, ?_⟩
      simp only [length_append, length_map, Nat.add_assoc]
    · rintro ⟨table', ⟨t, ht, htable'⟩, rfl⟩
      refine ⟨_, ⟨t, ht, rfl⟩, ?_⟩
      rw [hcur]
      refine (ih (hlen ht)).mpr ⟨table', htable', ?_⟩
      simp only [length_append, length_map, Nat.add_assoc]

theorem insertRow_eq {values : List Value} (htypes : table.map type = types)
    (hne : .empty ∉ types) (hlength : values.length = types.length) (idx : Nat) :
    insertRow table idx values = Table.insert table idx (valued types values) true := by
  have hsame : (valued types values).length = table.length := by
    rw [valued, length_zipWith, hlength, Nat.min_self, ← htypes, length_map]
  rw [Table.insert, if_neg (not_not_intro hsame), insertRow]
  clear hsame
  induction table generalizing types values with
  | nil => rfl
  | cons c table ih =>
    obtain ⟨v, values, rfl⟩ : ∃ v vs, values = v :: vs := by
      cases values with
      | nil => rw [← htypes] at hlength; cases hlength
      | cons v vs => exact ⟨v, vs, rfl⟩
    obtain rfl := htypes
    rw [map_cons, mem_cons, not_or] at hne
    rw [map_cons, valued, zipWith_cons_cons, zip_cons_cons, zip_cons_cons,
      mapM_cons, mapM_cons, insertValue_eq (Ne.symm hne.1)]
    simp only [ih rfl hne.2 (Nat.succ.inj hlength), valued]

/-- Rows written one after the other, as the insertion of a list of edges writes them. -/
theorem insertRows_eq {rows : List EdgeRow} (htypes : table.map type = types)
    (hne : .empty ∉ types) (hrows : ∀ row ∈ rows, row.values.length = types.length) (offset : Nat)
    (ends : EdgeRow → Nat × Nat) : insertRows table offset rows =
      ((rows.map fun row => ((ends row).1, (ends row).2, valued types row.values)).zipIdx
        offset).foldlM (fun table m => Table.insert table m.2 m.1.2.2 true) table := by
  rw [zipIdx_map, foldlM_map, insertRows]
  apply foldlM_congr (fun t => t.map type = types) ?_ ?_ htypes
  · intro t m hm ht
    exact insertRow_eq ht hne (hrows m.1 (fst_mem_of_mem_zipIdx hm)) m.2
  · intro t m t' hm ht hround
    rw [insertRow_eq ht hne (hrows m.1 (fst_mem_of_mem_zipIdx hm)) m.2] at hround
    rw [(Table.insert_inserted hround).1.types, ht]

end Alignment

/-! ## Loading -/

namespace EdgeTable

variable {policy : HashPolicy} {et et' : EdgeTable} {src dst : LFIndexer}

theorem types_of_ensureCapacity {capacity : Nat} {defaults : List Value}
    (h : et.ensureCapacity capacity defaults = .ok et') :
    et'.table.map type = et.table.map type := by
  unfold ensureCapacity at h
  split at h
  · cases h
    rfl
  · obtain ⟨table, htable, h⟩ := bind_eq_ok.mp h
    cases h
    exact Table.types_of_resize (mapError_eq_ok.mp htable)

theorem length_values_of_mem {chunks : List (EdgeChunk properties)} {row : EdgeRow}
    (h : row ∈ streamRows chunks) : row.values.length = properties.length := by
  obtain ⟨chunk, -, hrow⟩ := mem_flatMap.mp h
  obtain ⟨i, -, rfl⟩ := mem_map.mp hrow
  exact chunk.length_values i

/-- The entries of inline edges carry the properties of their rows. -/
theorem bundledEntries_eq (hbundled : et.isBundled = true) (hne : DataType.empty ∉ et.properties)
    (chunks : List (EdgeChunk et.properties)) : et.bundledEntries
        ((knownRows policy src dst (streamRows chunks)).map (EdgeRow.ends policy src dst))
        ((streamRows chunks).map (EdgeRow.known policy src dst))
        (chunks.flatMap (EdgeChunk.bundledCol true)) =
      et.batchEntries (resolvedEdges policy src dst et.properties (streamRows chunks)) := by
  obtain ⟨properties, outCsr, inCsr, table, tableIdx, capacity⟩ := et
  simp only [batchEntries, hbundled, if_true, bundledEntries, resolvedEdges, map_map]
  cases properties with
  | nil => rfl
  | cons t types =>
    have hdata := bundledEdgeData_eq (EdgeRow.known policy src dst) chunks []
    rw [nil_append, length_nil] at hdata
    have hentries : ∀ row ∈ knownRows policy src dst (streamRows chunks),
        bundledData (valued (t :: types) row.values) = getValue t (row.values.headD .null) := by
      intro row hrow
      have hlength := length_values_of_mem (mem_filter.mp hrow).1
      cases hvalues : row.values with
      | nil => rw [hvalues] at hlength; cases hlength
      | cons v vs => rfl
    have hinline : (((knownRows policy src dst (streamRows chunks)).map
          (EdgeRow.ends policy src dst)).zip
          (bundledEdgeData t ((streamRows chunks).map (EdgeRow.known policy src dst)) 0
            (chunks.flatMap (EdgeChunk.bundledCol true)))).map
          (fun m => (m.1.1, (⟨m.1.2, 0, m.2⟩ : Nbr))) =
        (knownRows policy src dst (streamRows chunks)).map
          ((fun e => (e.1, (⟨e.2.1, 0, bundledData e.2.2⟩ : Nbr))) ∘ fun row =>
            ((row.ends policy src dst).1, (row.ends policy src dst).2,
              valued (t :: types) row.values)) := by
      rw [hdata]
      change List.map _ (List.zip _ ((knownRows policy src dst (streamRows chunks)).map _)) = _
      rw [zip_map', map_map]
      apply map_congr_left
      intro row hrow
      simp only [Function.comp, hentries row hrow]
    cases t with
    | empty => exact absurd mem_cons_self hne
    | fixed t => exact hinline
    | varchar width => exact hinline

/-- Loading a stream inserts the edges of the rows whose keys are known, each with the
properties of its own row. -/
theorem loadEdges_eq_ok {chunks : List (EdgeChunk et.properties)} {defaults : List Value}
    (hsuits : ∀ chunk ∈ chunks, chunk.src.Suits src ∧ chunk.dst.Suits dst)
    (hcolumns : et.table.map type = if et.isBundled then [] else et.properties)
    (hne : DataType.empty ∉ et.properties) : et.loadEdges policy src dst chunks defaults = .ok et' ↔
      et.batchLoadEdges src.capacity dst.capacity
        (resolvedEdges policy src dst et.properties (streamRows chunks)) defaults = .ok et' := by
  have hlength : (resolvedEdges policy src dst et.properties (streamRows chunks)).length =
      ((knownRows policy src dst (streamRows chunks)).map
        (EdgeRow.ends policy src dst)).length := by
    rw [resolvedEdges, length_map, length_map]
  rw [loadEdges, foldlM_collectChunk hsuits, batchLoadEdges, batchAddEdges]
  simp only [bind_eq_ok, Except.ok.injEq, exists_eq_left', nil_append,
    filterInvalidEdges_ends, mapError_eq_ok, hlength]
  apply exists_congr
  intro room
  apply and_congr_right
  intro hroom
  by_cases hbundled : et.isBundled = true
  · have hsized : (et.resizeVertices src.capacity dst.capacity).isBundled = true := hbundled
    rw [if_pos hbundled, if_pos hsized, hbundled, bundledEntries_eq hbundled hne,
      Except.ok.injEq, Except.ok.injEq]
    rfl
  · have hsized : ¬(et.resizeVertices src.capacity dst.capacity).isBundled = true := hbundled
    rw [if_neg hbundled, if_neg hne, if_neg hsized]
    have hproperties : et.properties ≠ [] := fun hnil => hbundled (by rw [isBundled, hnil])
    have htypes : room.table.map type = et.properties := by
      rw [types_of_ensureCapacity hroom]
      exact hcolumns.trans (if_neg hbundled)
    have hrows : ∀ row ∈ knownRows policy src dst (streamRows chunks),
        row.values.length = et.properties.length := fun row hrow =>
      length_values_of_mem (mem_filter.mp hrow).1
    have htable : room.table.length = et.properties.length := by rw [← htypes, length_map]
    have hwritten := fun s => @foldlM_writeChunk_eq_ok et.properties room.table
      et.tableIdx (EdgeRow.known policy src dst) hproperties chunks [] htable s
    have hinserted := insertRows_eq htypes hne hrows et.tableIdx (EdgeRow.ends policy src dst)
    simp only [nil_append, length_nil] at hwritten
    simp only [bind_eq_ok, mapError_eq_ok, hbundled, hwritten]
    have hentries : separatedEntries ((knownRows policy src dst (streamRows chunks)).map
          (EdgeRow.ends policy src dst)) et.tableIdx =
        (et.resizeVertices src.capacity dst.capacity).batchEntries
          (resolvedEdges policy src dst et.properties (streamRows chunks)) := by
      rw [batchEntries, if_neg hsized, separatedEntries, resolvedEdges, zipIdx_map,
        zipIdx_map, map_map, map_map]
      rfl
    constructor
    · rintro ⟨_, ⟨table', htable', rfl⟩, hok⟩
      cases hok
      refine ⟨table', ?_, ?_⟩
      · exact hinserted.symm.trans htable'
      · rw [hentries]
        rfl
    · rintro ⟨table', htable', hok⟩
      cases hok
      refine ⟨_, ⟨table', hinserted.trans htable', rfl⟩, ?_⟩
      rw [hentries]
      rfl

end EdgeTable

end Neug.Storage
