import Mathlib.Data.Fintype.Defs
import Mathlib.Logic.Relation
import Neug.Storage.GraphView

/-! # MVCC insert transactions

An insert transaction buffers redo records and gives its new vertices provisional
ids that continue the ids of the live table.  Committing appends the records to
the write-ahead log and then applies them, one after the other, to the live graph
that all insert transactions share.  Applying a vertex takes many accesses to the
lock-free indexer, and other committers may act between any two of them.

Some things are one access here and several in the source: the lookup of an edge's
endpoint; the write of a string to a key or property column, which looks for space
and then takes it; the entry of an edge in the single-entry layout, which is tested
and then written; and the replacement of the timestamp array when a deleted id of
the compacted range is used again.  `Undisturbed` says that the writes among them
are not disturbed.
-/

namespace Neug.Transaction

open Function
open Storage

inductive Redo where
  | insertVertex (label : Nat) (oid : Value) (props : List Value)
  | insertEdge (label : EdgeLabel) (src dst : Value) (props : List Value)
  deriving DecidableEq, Repr

inductive TxnError where
  | vertexPropertyCount (label expected got : Nat)
  | vertexPropertyType (label col : Nat)
  | edgePropertyCount (label : EdgeLabel) (expected got : Nat)
  | edgePropertyType (label : EdgeLabel)
  /-- The schema has no such edge triplet. -/
  | invalidTriplet (label : EdgeLabel)
  | unsupportedKeyType
  | vertex (error : VertexError)
  | edge (error : EdgeError)
  /-- `CHECK` of `get_vertex_id`; the process ends. -/
  | provisionalIdUnknown
  /-- `CHECK` of `IngestWal` on an endpoint; the process ends. -/
  | endpointMissing
  deriving DecidableEq, Repr

/-- The buffer of an open transaction.  `added label` is the list of keys of the
local indexer of a label, in the order of their provisional ids. -/
structure InsertTxn where
  timestamp : Nat
  added : Nat → Option (List Value)
  base : Nat → Nat
  vertexNums : Nat → Nat
  arc : List Redo

namespace InsertTxn

def start (timestamp : Nat) : InsertTxn :=
  ⟨timestamp, fun _ => none, fun _ => 0, fun _ => 0, []⟩

def getVertexIndex (policy : HashPolicy) (g : Graph) (txn : InsertTxn) (label : Nat)
    (id : Value) : Option Nat :=
  match g.getLid policy label id txn.timestamp with
  | some lid => some lid
  | none =>
    match txn.added label with
    | some keys => (keys.idxOf? id).map (· + txn.base label)
    | none => none

def getVertexId (g : Graph) (txn : InsertTxn) (label lid : Nat) : Except TxnError Value :=
  match txn.added label with
  | none => (g.getOid label lid txn.timestamp).mapError .vertex
  | some keys =>
    if txn.base label ≤ lid then
      match keys[lid - txn.base label]? with
      | some key => .ok key
      | none => .error .provisionalIdUnknown
    else (g.getOid label lid txn.timestamp).mapError .vertex

def KeyTypeSupported : DataType → Prop
  | .fixed .int64 | .fixed .uint64 | .fixed .int32 | .fixed .uint32 | .varchar _ => True
  | _ => False

instance : DecidablePred KeyTypeSupported := fun t => by
  rcases t with _ | t | _
  · exact instDecidableFalse
  · cases t <;> unfold KeyTypeSupported <;> infer_instance
  · exact instDecidableTrue

def createIdIndexer (g : Graph) (txn : InsertTxn) (label : Nat) : Except TxnError InsertTxn :=
  match txn.added label with
  | some _ => .ok txn
  | none =>
    if KeyTypeSupported (g.vertices label).indexer.keys.type then
      .ok { txn with
        added := update txn.added label (some [])
        base := update txn.base label (g.vertices label).lidNum }
    else .error .unsupportedKeyType

/-- The first value that may not be written to its column. -/
def typeMismatch (types : List DataType) (props : List Value) : Option Nat :=
  (props.zip types).findIdx? fun (v, t) => ¬v.HasType t

/-- `AddVertex`: the id of the vertex, old or new. -/
def addVertex (policy : HashPolicy) (g : Graph) (txn : InsertTxn) (label : Nat) (id : Value)
    (props : List Value) : Except TxnError (InsertTxn × Nat) :=
  let types := (g.vertices label).table.map Column.type
  if types.length ≠ props.length then
    .error (.vertexPropertyCount label types.length props.length)
  else match typeMismatch types props with
  | some col => .error (.vertexPropertyType label col)
  | none =>
    match txn.createIdIndexer g label with
    | .error e => .error e
    | .ok txn =>
      match txn.getVertexIndex policy g label id with
      | some vid => .ok (txn, vid)
      | none =>
        .ok ({ txn with
          added := update txn.added label
            ((txn.added label).map (· ++ [id]))
          vertexNums := update txn.vertexNums label (txn.vertexNums label + 1)
          arc := txn.arc ++ [.insertVertex label id props] },
          txn.vertexNums label + txn.base label)

def addEdge (g : Graph) (txn : InsertTxn) (label : EdgeLabel) (srcVid dstVid : Nat)
    (props : List Value) : Except TxnError InsertTxn :=
  match txn.getVertexId g label.src srcVid, txn.getVertexId g label.dst dstVid with
  | .error e, _ => .error e
  | _, .error e => .error e
  | .ok src, .ok dst =>
    match g.edges label with
    | none => .error (.invalidTriplet label)
    | some et =>
      if props.length ≠ et.properties.length then
        .error (.edgePropertyCount label et.properties.length props.length)
      else match typeMismatch et.properties props with
      | some _ => .error (.edgePropertyType label)
      | none => .ok { txn with arc := txn.arc ++ [.insertEdge label src dst props] }

end InsertTxn

/-! ### Applying a record -/

/-- Where a committer stands inside `AddVertex` or `AddEdge` of the live view. -/
inductive IngestPc where
  | checkCapacity
  | probe (index : Nat)
  | checkValid (vid : Nat)
  | claim
  | setKey (ind : Nat)
  | publishIndex (ind index : Nat)
  | materialize (vid : Nat)
  | publishTs (vid : Nat)
  | setProp (vid col : Nat)
  | findSrc
  | findDst (src : Nat)
  | beginEdge (src dst : Nat)
  | putIn (src dst : Nat) (row : Option Nat)
  | putOut (src dst : Nat) (row : Option Nat)
  | setEdgeProp (row col : Nat)
  deriving DecidableEq, Repr

def Redo.start : Redo → IngestPc
  | insertVertex _ _ _ => .checkCapacity
  | insertEdge _ _ _ _ => .findSrc

inductive IngestProgress where
  | running (pc : IngestPc)
  | applied
  | failed (error : TxnError)
  deriving DecidableEq, Repr

/-- One access of `AddVertex(label, oid, props, ts)` on the live view. -/
def vertexStep (policy : HashPolicy) (vt : VertexTable) (oid : Value) (props : List Value)
    (ts : Nat) (pc : IngestPc) (spurious : Bool) : VertexTable × IngestProgress :=
  let ix := vt.indexer
  match pc with
  | .checkCapacity =>
    if ix.capacity ≤ ix.numElements then (vt, .failed (.vertex .failToAdd))
    else if oid = .null then (vt, .failed (.vertex .nullKey))
    else if ¬ix.Accepts oid then (vt, .failed (.vertex .keyTypeMismatch))
    else if ix.numSlots = 0 then (vt, .running .claim)
    else (vt, .running (.probe (policy.home ix.numSlots oid)))
  | .probe index =>
    match ix.indices index with
    | none => (vt, .running .claim)
    | some lid =>
      if ix.getKey lid = oid then (vt, .running (.checkValid lid))
      else (vt, .running (.probe ((index + 1) % ix.numSlots)))
  | .checkValid vid =>
    if vt.vts.isVertexValid vid ts then (vt, .failed (.vertex (.alreadyExists vid)))
    else (vt, .running (.materialize vid))
  | .claim =>
    let vt' := { vt with indexer := { ix with numElements := ix.numElements + 1 } }
    if ix.capacity ≤ ix.numElements then
      (vt', .failed (.vertex (.reservedNotEnough ix.capacity ix.numElements)))
    else (vt', .running (.setKey ix.numElements))
  | .setKey ind =>
    match ix.keys.setKeyValue ind oid with
    | .error e => (vt, .failed (.vertex (.column e)))
    | .ok keys =>
      ({ vt with indexer := { ix with keys := keys } },
        .running (.publishIndex ind (policy.home ix.numSlots oid)))
  | .publishIndex ind index =>
    match ix.indices index with
    | none =>
      ({ vt with indexer :=
          { ix with indices := update ix.indices index (some ind) } },
        .running (.materialize ind))
    | some _ => (vt, .running (.publishIndex ind ((index + 1) % ix.numSlots)))
  | .materialize vid =>
    if hlow : vid < vt.vts.initVertexNum then
      if ts = 0 then
        ({ vt with vts := { vt.vts with removed := vt.vts.removed.erase vid } },
          .running (.setProp vid 0))
      else
        ({ vt with vts := vt.vts.materialize vid (Nat.le_of_lt hlow) },
          .running (.publishTs vid))
    else (vt, .running (.publishTs vid))
  | .publishTs vid =>
    match vt.vts.publish vid ts spurious with
    | .error expected => (vt, .failed (.vertex (.timestampTaken vid expected)))
    | .ok vts => ({ vt with vts := vts }, .running (.setProp vid 0))
  | .setProp vid col =>
    match props[col]?, vt.table[col]? with
    | none, _ => (vt, .applied)
    | some _, none => (vt, .failed (.vertex (.column .indexOutOfRange)))
    | some v, some c =>
      match c.setAny vid v false with
      | .error e => (vt, .failed (.vertex (.column e)))
      | .ok c' =>
        ({ vt with table := vt.table.set col c' }, .running (.setProp vid (col + 1)))
  | _ => (vt, .failed (.vertex .failToAdd))

def edgeData (props : List Value) : Option Nat → Value
  | none => bundledData props
  | some row => rowData row

/-- One access of `AddEdge` on an edge table of the live view, after both
endpoints were found. -/
def edgeStep (et : EdgeTable) (props : List Value) (ts : Nat) (pc : IngestPc) :
    EdgeTable × IngestProgress :=
  match pc with
  | .beginEdge src dst =>
    if et.isBundled then (et, .running (.putIn src dst none))
    else if et.properties.length ≠ props.length then (et, .failed (.edge .dataSizeMismatch))
    else
      ({ et with tableIdx := et.tableIdx + 1 }, .running (.putIn src dst (some et.tableIdx)))
  | .putIn src dst row =>
    match et.inCsr.putEdge dst src (edgeData props row) ts with
    | .error e => (et, .failed (.edge e))
    | .ok csr => ({ et with inCsr := csr }, .running (.putOut src dst row))
  | .putOut src dst row =>
    match et.outCsr.putEdge src dst (edgeData props row) ts with
    | .error e => (et, .failed (.edge e))
    | .ok csr =>
      ({ et with outCsr := csr },
        match row with
        | none => .applied
        | some row => .running (.setEdgeProp row 0))
  | .setEdgeProp row col =>
    match props[col]?, et.table[col]? with
    | none, _ => (et, .applied)
    | some _, none => (et, .failed (.edge (.column .indexOutOfRange)))
    | some v, some c =>
      match c.setAny row v false with
      | .error e => (et, .failed (.edge (.column e)))
      | .ok c' =>
        ({ et with table := et.table.set col c' }, .running (.setEdgeProp row (col + 1)))
  | _ => (et, .failed (.edge .dataSizeMismatch))

/-- One access of `IngestWal` for one record. -/
def ingestStep (policy : HashPolicy) (g : Graph) (ts : Nat) (r : Redo) (pc : IngestPc)
    (spurious : Bool) : Graph × IngestProgress :=
  match r with
  | .insertVertex label oid props =>
    let (vt, progress) := vertexStep policy (g.vertices label) oid props ts pc spurious
    (g.setVertices label vt, progress)
  | .insertEdge label src dst props =>
    match pc with
    | .findSrc =>
      match g.getLid policy label.src src ts with
      | none => (g, .failed .endpointMissing)
      | some srcLid => (g, .running (.findDst srcLid))
    | .findDst srcLid =>
      match g.getLid policy label.dst dst ts with
      | none => (g, .failed .endpointMissing)
      | some dstLid => (g, .running (.beginEdge srcLid dstLid))
    | pc =>
      match g.edges label with
      | none => (g, .failed (.edge (.noSuchTable label)))
      | some et =>
        let (et, progress) := edgeStep et props ts pc
        (g.setEdges label et, progress)

/-! ### The system of insert transactions -/

inductive Outcome where
  | committed
  | refused
  | aborted
  | threw (error : TxnError)
  deriving DecidableEq, Repr

inductive TxnPc where
  | closed
  | opened
  | ingesting (record : Redo) (pc : IngestPc) (rest : List Redo)
  | ended (outcome : Outcome)
  deriving DecidableEq, Repr

structure TxnLocal where
  txn : InsertTxn
  pc : TxnPc

/-- What a transaction does next.  Appending to the log may be refused; an
exception while appending ends the process and is no step. -/
inductive InsertAction where
  | begin (timestamp : Nat)
  | addVertex (label : Nat) (id : Value) (props : List Value)
  | addEdge (label : EdgeLabel) (src dst : Nat) (props : List Value)
  | commit (appended : Bool)
  | abort
  | ingest (spurious : Bool)
  deriving DecidableEq, Repr

/-- The live graph, the log, the timestamps handed out so far, and all
transactions. -/
structure InsertState (Tid : Type*) where
  graph : Graph
  wal : List (Nat × List Redo)
  used : List Nat
  threads : Tid → TxnLocal

def TxnPc.ofRecords : List Redo → TxnPc
  | [] => .ended .committed
  | r :: rest => .ingesting r r.start rest

def TxnPc.ofProgress (r : Redo) (rest : List Redo) : IngestProgress → TxnPc
  | .running pc => .ingesting r pc rest
  | .applied => TxnPc.ofRecords rest
  | .failed e => .ended (.threw e)

section System

variable {Tid : Type*} [DecidableEq Tid] (policy : HashPolicy)

def InsertState.setThread (s : InsertState Tid) (t : Tid) (l : TxnLocal) : InsertState Tid :=
  { s with threads := update s.threads t l }

/-- The state after an action of transaction `t`, when the action is enabled.  The
version manager hands out every timestamp once. -/
def InsertState.next (s : InsertState Tid) (t : Tid) (action : InsertAction) :
    Option (InsertState Tid) :=
  let l := s.threads t
  match l.pc, action with
  | .closed, .begin ts =>
    if ts ∉ s.used ∧ 0 < ts ∧ ts < kDeletedTimestamp then
      some { s with
        used := ts :: s.used
        threads := update s.threads t ⟨.start ts, .opened⟩ }
    else none
  | .opened, .addVertex label id props =>
    match l.txn.addVertex policy s.graph label id props with
    | .ok (txn, _) => some (s.setThread t ⟨txn, .opened⟩)
    | .error _ => some s
  | .opened, .addEdge label src dst props =>
    match l.txn.addEdge s.graph label src dst props with
    | .ok txn => some (s.setThread t ⟨txn, .opened⟩)
    | .error _ => some s
  | .opened, .abort => some (s.setThread t ⟨l.txn, .ended .aborted⟩)
  | .opened, .commit appended =>
    if l.txn.arc = [] then some (s.setThread t ⟨l.txn, .ended .committed⟩)
    else if appended then
      some { s with
        wal := s.wal ++ [(l.txn.timestamp, l.txn.arc)]
        threads := update s.threads t ⟨l.txn, .ofRecords l.txn.arc⟩ }
    else some (s.setThread t ⟨l.txn, .ended .refused⟩)
  | .ingesting r pc rest, .ingest spurious =>
    let (graph, progress) := ingestStep policy s.graph l.txn.timestamp r pc spurious
    some { s with
      graph := graph
      threads := update s.threads t ⟨l.txn, .ofProgress r rest progress⟩ }
  | _, _ => none

def InsertState.Step (s s' : InsertState Tid) : Prop :=
  ∃ t action, s.next policy t action = some s'

end System

/-! ### Writes that are several accesses in the source -/

/-- A string column, or the entry of a vertex in the single-entry layout. -/
inductive SharedPlace where
  | keys (label : Nat)
  | column (label col : Nat)
  | inEntry (label : EdgeLabel) (dst : Nat)
  | outEntry (label : EdgeLabel) (src : Nat)
  | edgeColumn (label : EdgeLabel) (col : Nat)
  deriving DecidableEq

def holdsStrings (c : Column) : Bool :=
  match c.type with
  | .varchar _ => true
  | _ => false

/-- The place that the next access of a record writes by several accesses. -/
def Redo.sharedPlace (g : Graph) : Redo → IngestPc → Option SharedPlace
  | insertVertex label _ _, .setKey _ =>
    if holdsStrings (g.vertices label).indexer.keys then some (.keys label) else none
  | insertVertex label _ _, .setProp _ col =>
    if ((g.vertices label).table[col]?).any holdsStrings then some (.column label col)
    else none
  | insertEdge label _ _ _, .putIn _ dst _ =>
    if (g.edges label).any (·.inCsr.type = .singleMutable) then some (.inEntry label dst) else none
  | insertEdge label _ _ _, .putOut src _ _ =>
    if (g.edges label).any (·.outCsr.type = .singleMutable) then some (.outEntry label src)
    else none
  | insertEdge label _ _ _, .setEdgeProp _ col =>
    if (g.edges label).any fun et => (et.table[col]?).any holdsStrings then
      some (.edgeColumn label col)
    else none
  | _, _ => none

namespace InsertState

variable {Tid : Type*} (s : InsertState Tid) (t : Tid)

def sharedPlace : Option SharedPlace :=
  match (s.threads t).pc with
  | .ingesting r pc _ => r.sharedPlace s.graph pc
  | _ => none

/-- The next access uses a deleted id of the compacted range again. -/
def replacesTimestamps : Bool :=
  match (s.threads t).pc with
  | .ingesting (.insertVertex label _ _) (.materialize vid) _ =>
    vid < (s.graph.vertices label).vts.initVertexNum
  | _ => false

/-- The next access of `t` does not replace a timestamp array, and no other committer stands at a
write to the place that it writes by several accesses. -/
def Undisturbed : Prop :=
  s.replacesTimestamps t = false ∧
    ∀ place ∈ s.sharedPlace t, ∀ u, u ≠ t → s.sharedPlace u ≠ some place

instance [Fintype Tid] [DecidableEq Tid] : Decidable (s.Undisturbed t) :=
  inferInstanceAs (Decidable (_ ∧ _))

variable [DecidableEq Tid] (policy : HashPolicy)

def UndisturbedStep (s s' : InsertState Tid) : Prop :=
  ∃ t action, s.Undisturbed t ∧ s.next policy t action = some s'

variable {policy} {s s' : InsertState Tid}

theorem steps_of_undisturbed (hrun : Relation.ReflTransGen (UndisturbedStep policy) s s') :
    Relation.ReflTransGen (Step policy) s s' :=
  Relation.ReflTransGen.mono (fun _ _ ⟨t, action, _, hnext⟩ => ⟨t, action, hnext⟩) _ _ hrun

end InsertState

end Neug.Transaction
