import Neug.Library.Fallible
import Neug.Storage.FieldEquality
import Neug.Storage.GraphView

/-! # Writing edge tables

The operations of an edge table that belongs to one writer.  An edge has an entry
in the outgoing list of its source and one in the incoming list of its
destination; an operation that starts from one entry has to search for the other.
The search takes the first entry to the right neighbour, and compares data only
when there are several.  Entries of edges without properties have no data: the
comparison then reads the timestamp and the word that follows the entry, which is
the neighbour of the next entry or, after the last one, whatever the memory holds.
-/

namespace Neug.Storage

open Library

def kNoOffset : Nat := 2147483647

/-- The word after the last entry of each list, by direction and vertex. -/
abbrev PastEnd := Bool → Nat → Nat

namespace Csr

variable (csr : Csr)

def resize (vnum : Nat) : Csr :=
  match csr.type with
  | .empty => csr
  | _ =>
    { csr with
      vertexCapacity := vnum
      lists := fun v => if v < min csr.vertexCapacity vnum then csr.lists v else [] }

def size : Nat :=
  match csr.type with
  | .empty => 0
  | _ => csr.vertexCapacity

/-- The list with one entry marked deleted, unless it is newer than the
timestamp. -/
def tombstone (src offset ts : Nat) : Csr :=
  { csr with lists := Function.update csr.lists src ((csr.lists src).modify offset fun nbr =>
      if nbr.timestamp ≤ ts then { nbr with timestamp := kDeletedTimestamp } else nbr) }

def deleteEdge (src offset ts : Nat) : Except EdgeError Csr :=
  match csr.type with
  | .mutable =>
    if csr.vertexCapacity ≤ src ∨ (csr.lists src).length ≤ offset then
      .error .offsetOutOfBound
    else .ok (csr.tombstone src offset ts)
  | .singleMutable =>
    if csr.vertexCapacity ≤ src then .error (.srcOutOfBound src csr.vertexCapacity)
    else .ok (csr.tombstone src 0 ts)
  | .empty => .ok csr

def visibleSlots (v ts : Nat) : List Nat :=
  (List.range (csr.lists v).length).filter fun i =>
    ((csr.lists v)[i]?).any fun nbr => nbr.timestamp ≤ ts

def candidates (v nbr ts : Nat) : List Nat :=
  (csr.visibleSlots v ts).filter fun i =>
    ((csr.lists v)[i]?).any fun entry => entry.neighbor = nbr

def wordAfter (past : Nat → Nat) (v slot : Nat) : Nat :=
  match (csr.lists v)[slot + 1]? with
  | some next => next.neighbor
  | none => past v

end Csr

namespace EdgeTable

variable (et : EdgeTable)

/-- The adjacency structure in which a vertex is a source, or a destination. -/
def csr (isSrc : Bool) : Csr :=
  if isSrc then et.outCsr else et.inCsr

def ensureCapacity (capacity : Nat) (defaults : List Value) : Except EdgeError EdgeTable :=
  if et.isBundled ∨ capacity ≤ et.capacity then .ok et
  else do
    let table ← (Table.resize et.table (max capacity 4096) defaults).mapError .column
    .ok { et with table := table, capacity := max capacity 4096 }

/-- `EnsureCapacity(src_v_cap, dst_v_cap, 0)`. -/
def reserveVertices (srcCap dstCap : Nat) : EdgeTable :=
  { et with
    outCsr := if et.outCsr.size < srcCap then et.outCsr.resize srcCap else et.outCsr
    inCsr := if et.inCsr.size < dstCap then et.inCsr.resize dstCap else et.inCsr }

/-- The entries that `insert_edge_into_csr_internal` puts in both structures. -/
def putEntries (src dst : Nat) (data : Value) (ts : Nat) : Except EdgeError EdgeTable := do
  let inCsr ← et.inCsr.putEdge dst src data ts
  let outCsr ← et.outCsr.putEdge src dst data ts
  .ok { et with inCsr := inCsr, outCsr := outCsr }

def addEdge (src dst : Nat) (props : List Value) (ts : Nat)
    (insertSafe : Bool) : Except EdgeError EdgeTable :=
  if et.isBundled then et.putEntries src dst (bundledData props) ts
  else if et.properties.length ≠ props.length then .error .dataSizeMismatch
  else do
    let et' ← et.putEntries src dst (rowData et.tableIdx) ts
    let table ← (Table.insert et.table et.tableIdx props insertSafe).mapError .column
    .ok { et' with table := table, tableIdx := et.tableIdx + 1 }

def deleteEdge (src dst oeOffset ieOffset ts : Nat) : Except EdgeError EdgeTable := do
  let outCsr ← et.outCsr.deleteEdge src oeOffset ts
  let inCsr ← et.inCsr.deleteEdge dst ieOffset ts
  .ok { et with outCsr := outCsr, inCsr := inCsr }

/-- The comparison of two entries to the same neighbour; the words that follow
them count for edges without properties. -/
def sameEdge (expected : Nbr) (expectedWord : Nat) (found : Nbr) (foundWord : Nat) : Bool :=
  found.timestamp = expected.timestamp &&
    if et.properties = [] then foundWord = expectedWord else found.data.dataEq expected.data

/-- `fuzzy_search_offset_from_nbr_list` in the list of `v`. -/
def fuzzySearch (past : PastEnd) (isSrc : Bool) (v nbr : Nat) (expected : Nbr)
    (expectedWord ts : Nat) : Except EdgeError Nat :=
  let other := et.csr isSrc
  match other.candidates v nbr ts with
  | [] => .ok kNoOffset
  | [slot] => .ok slot
  | slots =>
    if et.properties = [.empty] then .error .unsupportedSearchType
    else .ok ((slots.find? fun slot =>
      ((other.lists v)[slot]?).any fun found =>
        et.sameEdge expected expectedWord found (other.wordAfter (past isSrc) v slot)).getD
          kNoOffset)

def searchOther (past : PastEnd) (isSrc : Bool) (v slot : Nat) (cur : Nbr)
    (ts : Nat) : Except EdgeError Nat :=
  et.fuzzySearch past (!isSrc) cur.neighbor v cur
    ((et.csr isSrc).wordAfter (past isSrc) v slot) ts

/-- One round of the loop of `DeleteVertex`: the edge with an entry in a slot. -/
def deleteSlot (past : PastEnd) (isSrc : Bool) (v ts : Nat) (et : EdgeTable) (slot : Nat) :
    Except EdgeError EdgeTable :=
  match ((et.csr isSrc).lists v)[slot]? with
  | none => .ok et
  | some cur => do
      let other ← et.searchOther past isSrc v slot cur ts
      if isSrc then et.deleteEdge v cur.neighbor slot other ts
      else et.deleteEdge cur.neighbor v other slot ts

def deleteVertex (past : PastEnd) (isSrc : Bool) (v ts : Nat) : Except EdgeError EdgeTable :=
  if et.outCsr.type = .empty ∨ et.inCsr.type = .empty then .error .noView
  else ((et.csr isSrc).visibleSlots v ts).foldlM (deleteSlot past isSrc v ts) et

/-- The entry at a raw slot, if an iterator at the timestamp sees it. -/
def entryAt (csr : Csr) (v offset ts : Nat) : Option Nbr :=
  ((csr.lists v)[offset]?).filter fun nbr => nbr.timestamp ≤ ts

/-- `set_data` on an inline property. -/
def setInline (csr : Csr) (v offset : Nat) (type : DataType) (value : Value) (ts : Nat) : Csr :=
  { csr with lists := Function.update csr.lists v ((csr.lists v).modify offset fun nbr =>
      { nbr with timestamp := ts, data := if type = .empty then nbr.data else value }) }

/-- The row number that an entry of an edge with a property row carries. -/
def rowOf : Value → Nat
  | .fixed _ row => row.toNat
  | _ => 0

def updateEdgeProperty (src dst oeOffset ieOffset col : Nat) (value : Value)
    (ts : Nat) : Except EdgeError EdgeTable :=
  match et.properties[col]? with
  | none => .error (.columnOutOfRange col et.properties.length)
  | some type =>
    if et.isBundled ∧ col ≠ 0 then .error (.bundledColumn col)
    else if et.outCsr.type = .empty then .error .noView
    else match entryAt et.outCsr src oeOffset ts with
    | none => .error .invalidOeOffset
    | some nbr =>
      if et.isBundled then
        if et.inCsr.type = .empty then .error .noView
        else match entryAt et.inCsr dst ieOffset ts with
        | none => .error .invalidIeOffset
        | some _ => .ok { et with
            outCsr := setInline et.outCsr src oeOffset type value ts
            inCsr := setInline et.inCsr dst ieOffset type value ts }
      else match et.table[col]? with
      | none => .error (.columnOutOfRange col et.properties.length)
      | some c => do
          let c ← (c.setAny (rowOf nbr.data) value true).mapError .column
          .ok { et with table := et.table.set col c }

end EdgeTable

end Neug.Storage
