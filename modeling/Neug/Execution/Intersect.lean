import Neug.Library.Tally
import Neug.Execution.VertexColumn

/-! # Expansion to a common neighbour

Two or more columns of matched vertices are expanded to the vertices that are neighbours of
all of them.  The implementations build a set, a counting map or a map of edge combinations
from one side and look the neighbours of the next side up in it.
-/

namespace Neug.Execution

open Library
open Storage (EdgeLabel)

/-- One side: the vertex of each input row, the edges along which it is expanded and the
predicate on the edge and the neighbour.  `edgeAlias` is set if the edge is returned. -/
structure ExpandSide (g : ReadGraph) where
  getVertex : Nat → VertexRecord
  labels : List EdgeLabel
  dir : Direction
  pred : VertexRecord → PathStep → Bool
  edgeAlias : Option Nat
  nodup_labels : labels.Nodup
  labels_valid : ∀ t ∈ labels, t ∈ g.triplets

abbrev EdgeValue := Edge × Direction

/-- Rows of a result: the input row each comes from and what it adds. -/
def forEachRow {β : Type*} (rowNum : Nat) (f : Nat → List β) : List (Nat × β) :=
  (List.range rowNum).flatMap fun i => (f i).map (Prod.mk i)

namespace ExpandSide

variable {g : ReadGraph} (side first second : ExpandSide g) (others : List (ExpandSide g))

/-- The edges that the loops over a side accept, in their order. -/
def matching (i : Nat) : List PathStep :=
  (g.stepsFrom side.labels side.dir (side.getVertex i)).filter (side.pred (side.getVertex i))

def neighborsAt (i : Nat) : List VertexRecord :=
  (side.matching i).map (·.node)

def edgeValue (i : Nat) (s : PathStep) : EdgeValue :=
  (s.edge (side.getVertex i), s.dir)

/-! ## One triplet on each side -/

/-- The entries of `GetGenericOutgoingGraphView`, which takes the label of the vertex itself. -/
def genericOutgoing (g : ReadGraph) (v : VertexRecord) (nbrLabel edgeLabel : Nat) :
    Except ExecError (List Nbr) :=
  if ⟨v.label, nbrLabel, edgeLabel⟩ ∈ g.triplets then
    .ok (g.outgoing ⟨v.label, nbrLabel, edgeLabel⟩ v.vid)
  else .error .edgeTableNotFound

def genericIncoming (g : ReadGraph) (v : VertexRecord) (nbrLabel edgeLabel : Nat) :
    Except ExecError (List Nbr) :=
  if ⟨nbrLabel, v.label, edgeLabel⟩ ∈ g.triplets then
    .ok (g.incoming ⟨nbrLabel, v.label, edgeLabel⟩ v.vid)
  else .error .edgeTableNotFound

section

variable (t : EdgeLabel)

/-- The ids of the entries that pass the predicate; every neighbour is given the label
`label`. -/
def acceptedIds (label i : Nat) (dir : Direction) (nbrs : List Nbr) : List Nat :=
  (nbrs.filter fun n =>
    side.pred (side.getVertex i) ⟨t.edge, dir, n.data, ⟨label, n.neighbor⟩⟩).map (·.neighbor)

def readOutgoing (i : Nat) : Except ExecError (List Nbr) :=
  if side.dir = .kOut ∨ side.dir = .kBoth then
    genericOutgoing g (side.getVertex i) t.dst t.edge
  else .ok []

def readIncoming (i : Nat) : Except ExecError (List Nbr) :=
  if side.dir = .kIn ∨ side.dir = .kBoth then
    genericIncoming g (side.getVertex i) t.src t.edge
  else .ok []

/-- The ids that a side of the single-triplet implementation reads. -/
def readIds (label i : Nat) : Except ExecError (List Nat) := do
  let outs ← side.readOutgoing t i
  let ins ← side.readIncoming t i
  return side.acceptedIds t label i .kOut outs ++ side.acceptedIds t label i .kIn ins

/-- The label that the single-triplet implementation gives to all neighbours. -/
def nbrLabel : Nat :=
  if side.dir = .kOut then t.dst else t.src

end

/-- One row of `Binary_Intersect_SL_Impl`. -/
def intersectIds (t0 t1 : EdgeLabel) (i : Nat) : Except ExecError (List VertexRecord) := do
  let ids0 ← first.readIds t0 (first.nbrLabel t0) i
  let vertexSet := ids0.foldl (fun set vid => set.insert vid) []
  let ids1 ← second.readIds t1 (first.nbrLabel t0) i
  return (ids1.filter (· ∈ vertexSet)).map (VertexRecord.mk (first.nbrLabel t0))

def binaryIntersectSL (t0 t1 : EdgeLabel) : Nat → Except ExecError (List (Nat × VertexRecord))
  | 0 => .ok []
  | i + 1 => do
    let rows ← binaryIntersectSL t0 t1 i
    let row ← first.intersectIds second t0 t1 i
    return rows ++ row.map (Prod.mk i)

/-! ## Counting -/

/-- One row of `Binary_Intersect_ML_Impl`. -/
def intersectCounted (i : Nat) : List VertexRecord :=
  let vertexSet := countUp (fun _ => some 1) (first.neighborsAt i)
  (second.neighborsAt i).flatMap fun rcd =>
    match vertexSet.lookup rcd with
    | some count => List.replicate count rcd
    | none => []

variable (rowNum : Nat)

def binaryIntersectML : List (Nat × VertexRecord) :=
  forEachRow rowNum (first.intersectCounted second)

def binaryIntersect : Except ExecError (List (Nat × VertexRecord)) :=
  match first.labels, second.labels with
  | [t0], [t1] => first.binaryIntersectSL second t0 t1 rowNum
  | _, _ => .ok (first.binaryIntersectML second rowNum)

/-- The loop of `Multiple_Intersect` over the sides after the first one. -/
def narrow (i : Nat) :
    (AList fun _ : VertexRecord => Nat) → List (ExpandSide g) → AList fun _ : VertexRecord => Nat
  | vertexSet, [] => vertexSet
  | vertexSet, side :: sides =>
    let tmpSet := countUp (fun rcd => vertexSet.lookup rcd) (side.neighborsAt i)
    -- nothing in common: the other sides are not looked at
    if tmpSet.entries.isEmpty then tmpSet else narrow i tmpSet sides

def multipleIntersect : List (Nat × VertexRecord) :=
  forEachRow rowNum fun i =>
    writeOut (narrow i (countUp (fun _ => some 1) (first.neighborsAt i)) others)

/-! ## Returning the edges -/

/-- A map from neighbours to the combinations of edges that lead to them; the slots of sides
not looked at yet are left out. -/
abbrev EdgeCombinations := AList fun _ : VertexRecord => List (List EdgeValue)

/-- `add_edge_matches` for the first side. -/
def firstMatches (i : Nat) : EdgeCombinations :=
  (side.matching i).foldl (fun target s =>
    amend [] target s.node (· ++ [[side.edgeValue i s]])) ∅

/-- `add_edge_matches` for a later side. -/
def addEdgeMatches (i : Nat) (previous : EdgeCombinations) : EdgeCombinations :=
  (side.matching i).foldl (fun target s =>
    match previous.lookup s.node with
    | some combinations =>
      amend [] target s.node (· ++ combinations.map (· ++ [side.edgeValue i s]))
    | none => target) ∅

def narrowWithEdge (i : Nat) : EdgeCombinations → List (ExpandSide g) → EdgeCombinations
  | vertexSet, [] => vertexSet
  | vertexSet, side :: sides =>
    let tmpSet := side.addEdgeMatches i vertexSet
    if tmpSet.entries.isEmpty then tmpSet else narrowWithEdge i tmpSet sides

def returned (sides : List (ExpandSide g)) (values : List EdgeValue) : List (Option EdgeValue) :=
  List.zipWith (fun side value => side.edgeAlias.map fun _ => value) sides values

def multipleIntersectWithEdge : List (Nat × VertexRecord × List (Option EdgeValue)) :=
  forEachRow rowNum fun i =>
    (narrowWithEdge i (first.firstMatches i) others).entries.flatMap fun entry =>
      entry.2.map fun values => (entry.1, returned (first :: others) values)

/-- The map of `Binary_Intersect_With_Edge`: positions in the list of the first side's edges. -/
def edgePositions (i : Nat) : AList fun _ : VertexRecord => List Nat :=
  (side.matching i).zipIdx.foldl (fun vertexSet s => amend [] vertexSet s.1.node (· ++ [s.2])) ∅

def rowsOfEdge (i : Nat) (s : PathStep) : List (VertexRecord × List (Option EdgeValue)) :=
  let auxValues := (first.matching i).map (first.edgeValue i)
  match (first.edgePositions i).lookup s.node with
  | some values => values.flatMap fun value =>
    auxValues[value]?.toList.map fun edge =>
      (s.node, returned [first, second] [edge, second.edgeValue i s])
  | none => []

def binaryIntersectWithEdge : List (Nat × VertexRecord × List (Option EdgeValue)) :=
  forEachRow rowNum fun i => (second.matching i).flatMap (first.rowsOfEdge second i)

end ExpandSide

end Neug.Execution
