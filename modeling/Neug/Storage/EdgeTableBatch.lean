import Neug.Library.OwnedLists
import Neug.Storage.EdgeDeletion

/-! # Batch writes and rebuilds of edge tables

Besides the writes of single edges, an edge table has batch operations.  They do not
check what the single writes check: a batch insertion skips an edge whose vertex is
beyond the capacity of a structure, and in the single-entry layout it overwrites the
entry that is there.  A change of the properties exports the outgoing edges and builds
both structures anew.
-/

namespace Neug.Storage

open Library Function

def Nbr.live (nbr : Nbr) : Bool := nbr.timestamp ≠ kDeletedTimestamp

/-- An entry and the vertex in whose list it is, seen from the other end of the edge. -/
def flipEdge (e : Nat × Nbr) : Nat × Nbr := (e.2.neighbor, { e.2 with neighbor := e.1 })

/-- An order of the entries of a list: `std::sort` by the data. -/
structure NbrSort where
  sort : List Nbr → List Nbr
  perm : ∀ l, (sort l).Perm l

namespace Csr

variable (csr : Csr)

/-- One round of `batch_put_edges`. -/
def batchPutEdge (e : Nat × Nbr) : Csr :=
  if e.1 < csr.vertexCapacity then
    match csr.type with
    | .mutable => { csr with lists := update csr.lists e.1 (csr.lists e.1 ++ [e.2]) }
    | .singleMutable => { csr with lists := update csr.lists e.1 [e.2] }
    | .empty => csr
  else csr

def batchPutEdges (edges : List (Nat × Nbr)) : Csr :=
  edges.foldl batchPutEdge csr

def batchExport : List (Nat × Nbr) :=
  (owned csr.vertexCapacity csr.lists).filter fun e => e.2.live

def cleared : Csr := { csr with lists := fun _ => [] }

/-- `batch_delete_vertices`: lists drop their entries, single entries are marked. -/
def batchDeleteVertices (srcSet dstSet : List Nat) : Csr :=
  match csr.type with
  | .mutable =>
    { csr with lists := fun v =>
        if v ∈ srcSet then [] else (csr.lists v).filter fun nbr => nbr.neighbor ∉ dstSet }
  | .singleMutable =>
    { csr with lists := fun v => (csr.lists v).map fun nbr =>
        if v ∈ srcSet ∨ nbr.neighbor ∈ dstSet then nbr.dead else nbr }
  | .empty => csr

def batchDeleteEdges (pairs : List (Nat × Nat)) : Csr :=
  match csr.type with
  | .empty => csr
  | _ =>
    { csr with lists := fun v => (csr.lists v).map fun nbr =>
        if (v, nbr.neighbor) ∈ pairs then nbr.dead else nbr }

/-- One round of `batch_delete_edges` by offsets. -/
def batchDeleteOffset (edge : Nat × Nat) : Csr :=
  match csr.landing edge.1 edge.2 with
  | none => csr
  | some slot =>
    { csr with lists := update csr.lists edge.1 <|
        (csr.lists edge.1).modify slot Nbr.dead }

def batchDeleteOffsets (edges : List (Nat × Nat)) : Csr :=
  edges.foldl batchDeleteOffset csr

def settled (nbr : Nbr) : Nbr := { nbr with timestamp := 0 }

def compact : Csr :=
  match csr.type with
  | .mutable => { csr with lists := fun v => ((csr.lists v).filter Nbr.live).map settled }
  | .singleMutable =>
    { csr with lists := fun v => (csr.lists v).map fun nbr =>
        if nbr.live then settled nbr else nbr }
  | .empty => csr

def batchSortByEdgeData (order : NbrSort) : Csr :=
  match csr.type with
  | .mutable => { csr with lists := fun v => order.sort (csr.lists v) }
  | _ => csr

end Csr

def Column.fresh (type : DataType) : Column := ⟨type, 0, 0, 0, fun _ => Column.zero type⟩

def Column.filled (type : DataType) (values : List Value) : Column :=
  { (Column.fresh type).resize values.length with
    cells := fun i => values.getD i (Column.zero type) }

def edgeCapacityWithHeadroom (edgeCount : Nat) : Nat :=
  if edgeCount < 4096 then 4096
  else edgeCount + edgeCount / 5 + if edgeCount % 5 = 0 then 0 else 1

namespace EdgeTable

/-! ### Insertion -/

variable (et : EdgeTable)

/-- Put edges, given by their outgoing entries, in both structures. -/
def putBatch (edges : List (Nat × Nbr)) : EdgeTable :=
  { et with
    outCsr := et.outCsr.batchPutEdges edges
    inCsr := et.inCsr.batchPutEdges (edges.map flipEdge) }

/-- The outgoing entries of a batch: the property, or the number of the next free row. -/
def batchEntries (edges : List (Nat × Nat × List Value)) : List (Nat × Nbr) :=
  if et.isBundled then edges.map fun e => (e.1, ⟨e.2.1, 0, bundledData e.2.2⟩)
  else (edges.zipIdx et.tableIdx).map fun m => (m.1.1, ⟨m.1.2.1, 0, rowData m.2⟩)

def batchAddEdges (edges : List (Nat × Nat × List Value))
    (defaults : List Value) : Except EdgeError EdgeTable := do
  let room ← et.ensureCapacity (edgeCapacityWithHeadroom (et.tableIdx + edges.length)) defaults
  if et.isBundled then .ok (room.putBatch (et.batchEntries edges))
  else do
    let table ← ((edges.zipIdx et.tableIdx).foldlM
      (fun table m => Table.insert table m.2 m.1.2.2 true) room.table).mapError .column
    .ok { room.putBatch (et.batchEntries edges) with
      table := table, tableIdx := et.tableIdx + edges.length }

def resizeVertices (srcCap dstCap : Nat) : EdgeTable :=
  { et with outCsr := et.outCsr.resize srcCap, inCsr := et.inCsr.resize dstCap }

/-- `BatchAddEdges` of a supplier, for the rows whose vertices exist. -/
def batchLoadEdges (srcCap dstCap : Nat) (edges : List (Nat × Nat × List Value))
    (defaults : List Value) : Except EdgeError EdgeTable :=
  (et.resizeVertices srcCap dstCap).batchAddEdges edges defaults

/-! ### Deletion -/

def batchDeleteVertices (srcSet dstSet : List Nat) : EdgeTable :=
  { et with
    outCsr := et.outCsr.batchDeleteVertices srcSet dstSet
    inCsr := et.inCsr.batchDeleteVertices dstSet srcSet }

def batchDeleteEdges (pairs : List (Nat × Nat)) : EdgeTable :=
  { et with
    outCsr := et.outCsr.batchDeleteEdges pairs
    inCsr := et.inCsr.batchDeleteEdges (pairs.map Prod.swap) }

def batchDeleteOffsets (oeEdges ieEdges : List (Nat × Nat)) : EdgeTable :=
  { et with
    outCsr := et.outCsr.batchDeleteOffsets oeEdges
    inCsr := et.inCsr.batchDeleteOffsets ieEdges }

/-! ### Changes of the properties -/

def rebuild (edges : List (Nat × Nbr)) : EdgeTable :=
  { et with outCsr := et.outCsr.cleared, inCsr := et.inCsr.cleared }.putBatch edges

def exportWith (data : Nat × Nbr → Value) : List (Nat × Nbr) :=
  et.outCsr.batchExport.map fun e => (e.1, ⟨e.2.neighbor, 0, data e⟩)

def exportRows : List (Nat × Nbr) :=
  et.outCsr.batchExport.zipIdx.map fun m => (m.1.1, ⟨m.1.2.neighbor, 0, rowData m.2⟩)

/-- What `dropAndCreateNewBundledCSR` leaves of the property table, and
`dropAndCreateNewUnbundledCSR` when a property was deleted. -/
def withoutTable : EdgeTable :=
  { et with table := [], tableIdx := 0, capacity := 0 }

/-- `dropAndCreateNewBundledCSR` from the inline data or from nothing. -/
def newBundledCsr (default : Value) : EdgeTable :=
  et.withoutTable.rebuild (et.exportWith fun _ => default)

def newBundledCsrFrom (remaining : Column) : Except EdgeError EdgeTable :=
  if ∀ e ∈ et.outCsr.batchExport, rowOf e.2.data < remaining.size then
    .ok (et.withoutTable.rebuild (et.exportWith fun e => remaining.getAny (rowOf e.2.data)))
  else .error .rowOutOfRange

/-- The columns of `dropAndCreateNewUnbundledCSR`; the first one may take the inline data
over. -/
def newColumns (preserve : Bool) : List Column :=
  match et.properties with
  | .fixed t :: rest =>
    if preserve then
      Column.filled (.fixed t) (et.outCsr.batchExport.map fun e => e.2.data) ::
        rest.map Column.fresh
    else et.properties.map Column.fresh
  | _ => et.properties.map Column.fresh

/-- `dropAndCreateNewUnbundledCSR` when properties were added. -/
def newUnbundledCsr (preserve : Bool) (defaults : List Value) : Except EdgeError EdgeTable := do
  let edgeNum := et.outCsr.batchExport.length
  let table ← (Table.resize (et.newColumns preserve) edgeNum defaults).mapError .column
  let room ← { et with table := table, tableIdx := edgeNum }.ensureCapacity edgeNum defaults
  .ok (room.rebuild et.exportRows)

def newEmptyCsr : EdgeTable :=
  et.withoutTable.rebuild (et.exportWith fun _ => .empty)

/-- `AddProperties`; the schema has been extended before. -/
def addProperties (types : List DataType) (oldDefaults defaults : List Value) :
    Except EdgeError EdgeTable :=
  let extended := { et with properties := et.properties ++ types }
  if types = [] then .ok et
  else if et.table = [] then
    if extended.isBundled then .ok (extended.newBundledCsr ((oldDefaults ++ defaults).headD .null))
    else extended.newUnbundledCsr (et.properties ≠ []) (oldDefaults ++ defaults)
  else if defaults.length ≠ types.length then
    .error (.defaultCount types.length defaults.length)
  else do
    let columns ← ((types.zip defaults).mapM fun m =>
      (Column.fresh m.1).resizeDefault (Table.size et.table) m.2).mapError .column
    .ok { extended with table := et.table ++ columns }

def others {α : Type*} (cols : List Nat) (l : List α) : List α :=
  (l.zipIdx.filter fun m => m.2 ∉ cols).map Prod.fst

/-- `DeleteProperties`; the schema loses them afterwards. -/
def deleteProperties (cols : List Nat) : Except EdgeError EdgeTable :=
  let reduced := { et with properties := others cols et.properties }
  if et.isBundled then
    if et.properties ≠ [] ∧ 0 ∈ cols then .ok reduced.newEmptyCsr else .ok et
  else
    match others cols et.table with
    | [] => .ok reduced.newEmptyCsr
    | [⟨.varchar width, size, pos, dataSize, cells⟩] =>
      .ok { reduced with table := [⟨.varchar width, size, pos, dataSize, cells⟩] }
    | [remaining] => reduced.newBundledCsrFrom remaining
    | table => .ok { reduced with table := table }

def compact (order : Option NbrSort) : Except EdgeError EdgeTable :=
  let compacted := { et with outCsr := et.outCsr.compact, inCsr := et.inCsr.compact }
  match order with
  | none => .ok compacted
  | some order =>
    if et.isBundled then
      .ok { compacted with
        outCsr := compacted.outCsr.batchSortByEdgeData order
        inCsr := compacted.inCsr.batchSortByEdgeData order }
    else .error .sortKeyUnsupported

end EdgeTable

end Neug.Storage
