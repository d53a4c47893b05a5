import Neug.Storage.SchemaCompaction

/-! # Property graphs

A property graph has a schema, a vertex table for every slot of a vertex label, and an edge
table for every edge type, under the id of the type.  The tables are a parameter here: creating
and dropping types, and compaction of the schema, only move them.

Which tables changed is tracked twice, since the last checkpoint and since the last compaction.
-/

namespace Neug.Storage

open Library Function

/-! ### Changed tables -/

/-- `DirtyTracker`.  Edges have a flag only where an edge table is. -/
structure DirtyTracker where
  vertex : Nat → Bool
  edge : Nat → Option Bool
  schema : Bool

namespace DirtyTracker

def reset : DirtyTracker := ⟨fun _ => false, fun _ => none, false⟩

variable (d : DirtyTracker)

def setVertex (label : Nat) (dirty : Bool) : DirtyTracker :=
  { d with vertex := update d.vertex label dirty }

def markEdge (index : Nat) : DirtyTracker :=
  { d with edge := update d.edge index ((d.edge index).map fun _ => true) }

def isEdgeDirty (index : Nat) : Bool := (d.edge index).getD false

def addEdgeSlot (index : Nat) (dirty : Bool) : DirtyTracker :=
  { d with edge := update d.edge index (some ((d.edge index).getD dirty)) }

def eraseEdgeSlot (index : Nat) : DirtyTracker :=
  { d with edge := update d.edge index none }

def mergeFrom (d other : DirtyTracker) : DirtyTracker where
  vertex label := d.vertex label || other.vertex label
  edge index :=
    if (d.edge index).isSome || (other.edge index).isSome then
      some (d.isEdgeDirty index || other.isEdgeDirty index)
    else none
  schema := d.schema || other.schema

end DirtyTracker

/-! ### Graphs -/

/-- The names of an edge type: of the source, the destination and the edge label. -/
abbrev EdgeName := String × String × String

structure PropertyGraph (V E VT ET : Type) where
  schema : Schema V E
  /-- A table that was closed is `none`. -/
  vertexTables : List (Option VT)
  edgeTables : Nat → Option ET
  vertexLabelTotalCount : Nat
  edgeLabelTotalCount : Nat
  dirty : DirtyTracker
  uncompactedModules : DirtyTracker

namespace PropertyGraph

variable {V E VT ET : Type}

def empty : PropertyGraph V E VT ET where
  schema := .empty
  vertexTables := []
  edgeTables := fun _ => none
  vertexLabelTotalCount := 0
  edgeLabelTotalCount := 0
  dirty := .reset
  uncompactedModules := .reset

variable (g : PropertyGraph V E VT ET)

def tableAt (label : Nat) : Option VT :=
  (g.vertexTables[label]?).join

def vertexTable (label : String) : Option VT :=
  (g.schema.getVertexLabelId label).bind g.tableAt

/-- The id of an edge type: `edge_triplet_check` and `generate_edge_label`. -/
def edgeIndex (name : EdgeName) : Option Nat := do
  let src ← g.schema.getVertexLabelId name.1
  let dst ← g.schema.getVertexLabelId name.2.1
  let edge ← g.schema.getEdgeLabelId name.2.2
  if g.schema.isEdgeTripletValid src dst edge then some (generateEdgeLabel src dst edge) else none

def edgeTable (name : EdgeName) : Option ET :=
  (g.edgeIndex name).bind g.edgeTables

/-! ### Writes of tables -/

def setVertexTable (label : Nat) (table : VT) (mark : Bool) : PropertyGraph V E VT ET :=
  { g with
    vertexTables := g.vertexTables.set label (some table)
    dirty := if mark then g.dirty.setVertex label true else g.dirty }

def setEdgeTable (index : Nat) (table : ET) (mark : Bool) : PropertyGraph V E VT ET :=
  { g with
    edgeTables := update g.edgeTables index (some table)
    dirty := if mark then g.dirty.markEdge index else g.dirty }

/-! ### Types -/

section

variable (schema : Schema V E)

def withVertexType (id : Nat) (fresh : VT) : PropertyGraph V E VT ET :=
  { g with
    schema := schema
    vertexTables :=
      if id < g.vertexTables.length then g.vertexTables.set id (some fresh)
      else g.vertexTables ++ [some fresh]
    vertexLabelTotalCount := schema.vertexLabelFrontier
    dirty := g.dirty.setVertex id false }

/-- `CreateVertexType`, with the table that `Init` and `EnsureCapacity` make. -/
def createVertexType (fresh : VT) (label : String)
    (temporary : Bool) (info : V) : Attempt SchemaError (PropertyGraph V E VT ET) :=
  if (g.schema.getVertexLabelId label).isSome then .failed .vertexLabelExists g
  else
    match g.schema.addVertexLabel label temporary info with
    | .error e => .failed e g
    | .ok (schema, id) => .done (g.withVertexType schema id fresh)

/-- The graph with an edge type that the schema got.  The schema has it also when there is a
table under its id. -/
def withEdgeType (index : Nat) (fresh : ET) : Attempt SchemaError (PropertyGraph V E VT ET) :=
  let named := { g with
    schema := schema
    edgeLabelTotalCount := schema.edgeLabelFrontier }
  if (g.edgeTables index).isSome then .failed .edgeLabelIdConflict named
  else
    .done { named with
      edgeTables := update g.edgeTables index (some fresh)
      dirty := g.dirty.addEdgeSlot index false
      uncompactedModules := g.uncompactedModules.addEdgeSlot index false }

/-- `CreateEdgeType`, with the table made for the tables of its ends. -/
def createEdgeType (fresh : Option VT → Option VT → ET)
    (name : EdgeName) (temporary : Bool) (info : E) :
    Attempt SchemaError (PropertyGraph V E VT ET) :=
  match g.schema.getVertexLabelId name.1, g.schema.getVertexLabelId name.2.1 with
  | none, _ => .failed (.sourceMissing name.1) g
  | some _, none => .failed (.destinationMissing name.2.1) g
  | some src, some dst =>
    if g.schema.hasEdgeTriplet name.1 name.2.1 name.2.2 then
      .failed (.edgeExists name.1 name.2.1 name.2.2) g
    else if (g.schema.isVertexLabelTemporary src || g.schema.isVertexLabelTemporary dst) &&
        !temporary then
      .failed (.persistentEdge name.2.2) g
    else
      match g.schema.addEdgeLabel name.1 name.2.1 name.2.2 temporary info with
      | .error e => .failed e g
      | .ok (schema, index) =>
        g.withEdgeType schema index (fresh (g.tableAt src) (g.tableAt dst))

def eraseEdgeTable (index : Nat) : PropertyGraph V E VT ET :=
  if (g.edgeTables index).isSome then
    { g with
      edgeTables := update g.edgeTables index none
      dirty := g.dirty.eraseEdgeSlot index
      uncompactedModules := g.uncompactedModules.eraseEdgeSlot index }
  else g

/-- `DeleteEdgeType` by ids. -/
def deleteEdgeTypeAt (src dst edge : Nat) : PropertyGraph V E VT ET :=
  { g with schema := g.schema.deleteEdgeLabel src dst edge }.eraseEdgeTable
    (generateEdgeLabel src dst edge)

def deleteEdgeType (name : EdgeName) : Attempt SchemaError (PropertyGraph V E VT ET) :=
  match g.schema.vlabelIndexer.index name.1, g.schema.vlabelIndexer.index name.2.1,
      g.schema.elabelIndexer.index name.2.2 with
  | none, _, _ => .failed (.vertexLabelNotFound name.1) g
  | some _, none, _ => .failed (.vertexLabelNotFound name.2.1) g
  | some _, some _, none => .failed (.edgeLabelNotFound name.2.2) g
  | some src, some dst, some edge => .done (g.deleteEdgeTypeAt src dst edge)

def dropTriplet (src dst edge : Nat) : PropertyGraph V E VT ET :=
  if g.schema.isEdgeTripletValid src dst edge then g.deleteEdgeTypeAt src dst edge else g

/-- A round of the loops of `DeleteVertexType`: both directions between two vertex labels. -/
def dropBetween (label : Nat) (g : PropertyGraph V E VT ET) (round : Nat × Nat) :
    PropertyGraph V E VT ET :=
  if g.schema.isVertexLabelValid round.1 && g.schema.isEdgeLabelValid round.2 then
    (g.dropTriplet label round.1 round.2).dropTriplet round.1 label round.2
  else g

/-- The loops of `DeleteVertexType` over the other labels and the edge labels. -/
def dropIncident (label : Nat) : PropertyGraph V E VT ET :=
  ((List.range g.vertexLabelTotalCount).product (List.range g.edgeLabelTotalCount)).foldl
    (dropBetween label) g

def deleteVertexType (label : String) : Attempt SchemaError (PropertyGraph V E VT ET) :=
  match g.schema.vlabelIndexer.index label with
  | none => .failed (.vertexLabelNotFound label) g
  | some id =>
    let g := g.dropIncident id
    .done { g with
      schema := g.schema.deleteVertexLabel id
      vertexTables := g.vertexTables.set id none
      dirty := g.dirty.setVertex id false }

/-! ### Compaction of the schema -/

def liveLabels : List Nat :=
  (List.range g.vertexLabelTotalCount).filter g.schema.isVertexLabelValid

/-- The edge types that are left, in the order of the loops of `compact_schema`. -/
def liveTriplets : List (Nat × Nat × Nat) :=
  (g.liveLabels.product (g.liveLabels.product (List.range g.edgeLabelTotalCount))).filter
    fun t => g.schema.isEdgeLabelValid t.2.2 && g.schema.isEdgeTripletValid t.1 t.2.1 t.2.2

def moveVertexTable (label : Nat) : Except CompactError (Nat × Bool) := do
  let new ← Schema.renumber .getVertexLabel g.schema.vlabelIndexer schema.vlabelIndexer label
  .ok (new, g.dirty.vertex label)

def moveEdgeTable (t : Nat × Nat × Nat) : Except CompactError (Nat × ET × Bool) := do
  let src ← Schema.renumber .getVertexLabel g.schema.vlabelIndexer schema.vlabelIndexer t.1
  let dst ← Schema.renumber .getVertexLabel g.schema.vlabelIndexer schema.vlabelIndexer t.2.1
  let edge ← Schema.renumber .getEdgeLabel g.schema.elabelIndexer schema.elabelIndexer t.2.2
  let old := generateEdgeLabel t.1 t.2.1 t.2.2
  match g.edgeTables old with
  | none => .error .noEdgeTable
  | some table => .ok (generateEdgeLabel src dst edge, table, g.dirty.isEdgeDirty old)

end

def movedDirty (schemaDirty : Bool) (vertices : List (Nat × Bool))
    (edges : List (Nat × ET × Bool)) : DirtyTracker :=
  let marked := vertices.foldl (fun d m => DirtyTracker.setVertex d m.1 m.2) .reset
  let marked := edges.foldl (fun d m => DirtyTracker.addEdgeSlot d m.1 m.2.2) marked
  { marked with schema := schemaDirty }

def movedTables (edges : List (Nat × ET × Bool)) : Nat → Option ET :=
  edges.foldl (fun tables m => update tables m.1 (some m.2.1)) fun _ => none

def compactSchema : Except CompactError (PropertyGraph V E VT ET) := do
  let schema ← g.schema.compact
  let vertices ← g.liveLabels.mapM (g.moveVertexTable schema)
  let edges ← g.liveTriplets.mapM (g.moveEdgeTable schema)
  .ok
    { g with
      schema := schema
      -- the tables come in the order of the old labels
      vertexTables := g.liveLabels.map g.tableAt
      edgeTables := movedTables edges
      vertexLabelTotalCount := schema.vertexLabelFrontier
      edgeLabelTotalCount := schema.edgeLabelFrontier
      dirty := movedDirty g.dirty.schema vertices edges }

/-! ### Compaction -/

variable (compactVertex : VT → VT)

def compactVertexTable (g : PropertyGraph V E VT ET) (label : Nat) : PropertyGraph V E VT ET :=
  match g.tableAt label with
  | some table =>
    if g.dirty.vertex label then g.setVertexTable label (compactVertex table) false else g
  | none => g

variable (compactEdge : E → ET → Attempt CompactError ET)

variable (g : PropertyGraph V E VT ET)

def compactEdgeTable (t : Nat × Nat × Nat) : Attempt CompactError (PropertyGraph V E VT ET) :=
  let index := generateEdgeLabel t.1 t.2.1 t.2.2
  match g.schema.edgeSchema index, g.edgeTables index with
  | some type, some table =>
    if !g.schema.isEdgeLabelValid t.2.2 || !g.schema.isEdgeTripletValid t.1 t.2.1 t.2.2 ||
        type.temporary || !g.dirty.isEdgeDirty index then .done g
    else (compactEdge type.info table).lift id fun table => g.setEdgeTable index table false
  | _, _ => .done g

/-- A label whose tables `Compact` looks at. -/
def isCompacted (label : Nat) : Bool :=
  g.schema.isVertexLabelValid label && !g.schema.isVertexLabelTemporary label

def compactFrom (src : Nat) : Attempt CompactError (PropertyGraph V E VT ET) :=
  if g.isCompacted src then
    Attempt.forEach
      (fun g t => if g.isCompacted t.1 then g.compactEdgeTable compactEdge (src, t) else .done g)
      ((List.range g.vertexLabelTotalCount).product (List.range g.edgeLabelTotalCount))
      (g.compactVertexTable compactVertex src)
  else .done g

def compact : Attempt CompactError (PropertyGraph V E VT ET) :=
  let merged := { g with dirty := g.dirty.mergeFrom g.uncompactedModules }
  match merged.compactSchema with
  | .error e => .failed e merged
  | .ok compacted =>
    (Attempt.forEach (compactFrom compactVertex compactEdge)
      (List.range compacted.vertexLabelTotalCount) compacted).andThen fun g =>
        .done { g with uncompactedModules := { DirtyTracker.reset with
          edge := fun index => (g.edgeTables index).map fun _ => false } }

end PropertyGraph

/-! ### The tables by names -/

/-- The tables of a graph by the names of their labels. -/
structure NamedTables (VT ET : Type) where
  vertex : String → Option VT
  edge : EdgeName → Option ET

namespace NamedTables

variable {VT ET : Type}

variable (n : NamedTables VT ET)

def setVertex (label : String) (table : VT) : NamedTables VT ET :=
  { n with vertex := update n.vertex label (some table) }

def setEdge (name : EdgeName) (table : ET) : NamedTables VT ET :=
  { n with edge := update n.edge name (some table) }

def dropEdge (name : EdgeName) : NamedTables VT ET :=
  { n with edge := update n.edge name none }

/-- A vertex label goes with the edge types that have it. -/
def dropVertex (label : String) : NamedTables VT ET where
  vertex := update n.vertex label none
  edge name := if name.1 = label ∨ name.2.1 = label then none else n.edge name

section Lookups

variable (n : NamedTables VT ET) {label other : String} {name name' : EdgeName}

@[simp] theorem setVertex_self (table : VT) : (n.setVertex label table).vertex label = some table :=
  update_self ..

theorem setVertex_of_ne (h : other ≠ label) (table : VT) :
    (n.setVertex label table).vertex other = n.vertex other :=
  update_of_ne h ..

@[simp] theorem setEdge_self (table : ET) : (n.setEdge name table).edge name = some table :=
  update_self ..

theorem setEdge_of_ne (h : name' ≠ name) (table : ET) :
    (n.setEdge name table).edge name' = n.edge name' :=
  update_of_ne h ..

@[simp] theorem dropEdge_self : (n.dropEdge name).edge name = none :=
  update_self ..

theorem dropEdge_of_ne (h : name' ≠ name) : (n.dropEdge name).edge name' = n.edge name' :=
  update_of_ne h ..

@[simp] theorem dropVertex_self : (n.dropVertex label).vertex label = none :=
  update_self ..

theorem dropVertex_of_ne (h : other ≠ label) : (n.dropVertex label).vertex other = n.vertex other :=
  update_of_ne h ..

end Lookups

end NamedTables

def PropertyGraph.named {V E VT ET : Type} (g : PropertyGraph V E VT ET) : NamedTables VT ET :=
  ⟨g.vertexTable, g.edgeTable⟩

end Neug.Storage
