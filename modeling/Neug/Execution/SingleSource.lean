import Neug.Library.BreadthFirst
import Neug.Execution.WalkExpansionContract

/-! # Single-source shortest paths

From each start row a search goes level by level and remembers for each vertex the one from
which it was reached.  The start vertex itself is not marked, so the search finds it again
when it comes back to it.  One implementation serves a single triplet between vertices of one
label; the other one, for everything else, clears the vector it is iterating over.
-/

namespace Neug.Execution

open Library
open Storage (EdgeLabel)

/-- What the loops of one search share: the labels given to its vertices and edges, the ids
of the neighbours of a vertex, the first edge between two vertices, the hop range and the
predicate. -/
structure SsspSearch where
  vLabel : Nat
  eLabel : Nat
  nbrs : Nat → List Nat
  edgeData : Nat → Nat → Option (Direction × Nat)
  lower : Nat
  upper : Nat
  pred : VertexRecord → Bool

namespace SsspSearch

abbrev Parents := Nat → Option Nat

structure LevelState where
  parent : Parents
  next : List Nat
  rows : List (VertexRecord × Path)

variable (S : SsspSearch)

/-- The ids of the path of `depth` edges that ends in `x`. -/
def walkBack (parent : Parents) : Nat → Nat → List Nat → Except ExecError (List Nat)
  | 0, x, path => .ok (x :: path)
  | depth + 1, x, path =>
    match parent x with
    | some y => walkBack parent depth y (x :: path)
    | none => .error .outOfBounds

/-- The steps along a list of ids, each by the first edge that is found. -/
def edgeSteps : List Nat → Except ExecError (List PathStep)
  | a :: b :: path =>
    match S.edgeData a b with
    | some (dir, data) =>
      (edgeSteps (b :: path)).map fun steps => ⟨S.eLabel, dir, data, ⟨S.vLabel, b⟩⟩ :: steps
    | none => .error .outOfBounds
  | _ => .ok []

def pathTo (parent : Parents) (depth u : Nat) : Except ExecError Path :=
  (walkBack parent depth u []).bind fun path =>
    match path with
    | source :: _ => (S.edgeSteps path).map fun steps => ⟨⟨S.vLabel, source⟩, steps⟩
    | [] => .error .outOfBounds

def addParent (st : Parents × List Nat) (step : Nat × Nat) : Parents × List Nat :=
  (Function.update st.1 step.2 (some step.1), st.2 ++ [step.2])

def reach (u : Nat) (st : Parents × List Nat) (nbr : Nat) : Parents × List Nat :=
  if (st.1 nbr).isSome then st else addParent st (u, nbr)

/-- At the last depth vertices are returned but not expanded. -/
def expand (depth u : Nat) (st : Parents × List Nat) : Parents × List Nat :=
  if S.lower ≤ depth ∧ depth + 1 = S.upper then st else (S.nbrs u).foldl (reach u) st

def Emits (depth u : Nat) : Prop :=
  S.lower ≤ depth ∧ S.pred ⟨S.vLabel, u⟩ = true

instance (depth : Nat) : DecidablePred (S.Emits depth) :=
  fun _ => inferInstanceAs (Decidable (_ ∧ _))

def emit (depth u : Nat) (st : LevelState) : Except ExecError (List (VertexRecord × Path)) :=
  if S.Emits depth u then
    (S.pathTo st.parent depth u).map fun path => st.rows ++ [(⟨S.vLabel, u⟩, path)]
  else .ok st.rows

def visit (depth : Nat) (st : LevelState) (u : Nat) : Except ExecError LevelState :=
  (S.emit depth u st).map fun rows =>
    ⟨(S.expand depth u (st.parent, st.next)).1, (S.expand depth u (st.parent, st.next)).2, rows⟩

def rounds : Nat → Nat → List Nat → Parents → Except ExecError (List (VertexRecord × Path))
  | 0, _, _, _ => .ok []
  | n + 1, depth, cur, parent =>
    if cur.isEmpty then .ok []
    else
      (cur.foldlM (S.visit depth) ⟨parent, [], []⟩).bind fun st =>
        (rounds n (depth + 1) st.next st.parent).map (st.rows ++ ·)

def run (v : Nat) : Except ExecError (List (VertexRecord × Path)) :=
  S.rounds S.upper 0 [v] fun _ => none

end SsspSearch

structure ShortestPathParams (g : ReadGraph) extends PathExpandParams g where
  pred : VertexRecord → Bool

namespace ShortestPathParams

variable {g : ReadGraph} (p : ShortestPathParams g)

def firstEdge (dir : Direction) (nbrs : List Nbr) (b : Nat) : Option (Direction × Nat) :=
  (nbrs.find? fun n => n.neighbor = b).map fun n => (dir, n.data)

/-- `sssp_dir` over one view. -/
def ssspDir (label eLabel : Nat) (dir : Direction) (view : Nat → List Nbr) : SsspSearch where
  vLabel := label
  eLabel := eLabel
  nbrs a := (view a).map (·.neighbor)
  edgeData a b := firstEdge dir (view a) b
  lower := p.hopLower
  upper := p.hopUpper
  pred := p.pred

def ssspBothDir (label eLabel : Nat) (view0 view1 : Nat → List Nbr) : SsspSearch where
  vLabel := label
  eLabel := eLabel
  nbrs a := (view0 a).map (·.neighbor) ++ (view1 a).map (·.neighbor)
  edgeData a b := (firstEdge .kOut (view0 a) b).or (firstEdge .kIn (view1 a) b)
  lower := p.hopLower
  upper := p.hopUpper
  pred := p.pred

/-- The search that `single_source_shortest_path_impl` runs for vertices of one label. -/
def ssspSearch (t : EdgeLabel) : SsspSearch :=
  match p.dir with
  | .kOut => p.ssspDir t.src t.edge .kOut (g.outgoing t)
  | .kIn => p.ssspDir t.src t.edge .kIn (g.incoming t)
  | .kBoth => p.ssspBothDir t.src t.edge (g.outgoing t) (g.incoming t)

/-- The rows of all start rows, one after the other; the first failure ends the operator. -/
def eachStart (search : VertexRecord → Except ExecError (List (VertexRecord × Path))) :
    List (VertexRecord × Nat) → Except ExecError (List (Nat × VertexRecord × Path))
  | [] => .ok []
  | (v, i) :: starts =>
    (search v).bind fun rows => (eachStart search starts).map (rows.map (Prod.mk i) ++ ·)

/-- `single_source_shortest_path_impl`.  The views are looked up by the label of the column. -/
def singleSourceShortestPathImpl (label eLabel : Nat) (starts : List VertexRecord) :
    Except ExecError (List (Nat × VertexRecord × Path)) :=
  if ⟨label, label, eLabel⟩ ∈ g.triplets then
    eachStart (fun v => (p.ssspSearch ⟨label, label, eLabel⟩).run v.vid) starts.zipIdx
  else .error .edgeTableNotFound

/-- One start row of `default_single_source_shortest_path_impl`.  The body of its loop over the
current level clears this level and swaps it with the next one; the loop then advances an
iterator into the cleared vector.  The first vertex is the start vertex: the path to it has
no edges and is dropped, so nothing has been returned by then. -/
def defaultSearch (_ : VertexRecord) : Except ExecError (List (VertexRecord × Path)) :=
  if 0 < p.hopUpper then .error .invalidIterator else .ok []

/-- The triplet and the label with which the first implementation is called. -/
def fastPath (col : VertexColumn Nat) : Option (EdgeLabel × Nat) :=
  match p.labels, col.labelsSet with
  | [t], [label] => if t.src = t.dst ∧ p.dir = .kBoth then some (t, label) else none
  | _, _ => none

def singleSourceShortestPath (col : VertexColumn Nat) :
    Except ExecError (List (Nat × VertexRecord × Path)) :=
  match p.fastPath col with
  | some (t, label) => p.singleSourceShortestPathImpl label t.edge col.starts
  | none => eachStart p.defaultSearch col.starts.zipIdx

end ShortestPathParams

end Neug.Execution
