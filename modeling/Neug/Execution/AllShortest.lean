import Neug.Execution.SinglePair

/-! # All shortest paths between two vertices

Two searches go level by level from the source and from the destination, each with an array of
depths, until one of them finds a vertex that the other one has found.  From these vertices the
vertices of shortest paths are marked in both directions, and a recursive search lists the paths
over the marked vertices.  Depths are kept in `int8_t`, where -1 stands for a vertex not found.
-/

namespace Neug.Execution

open Library Function
open Storage (EdgeLabel)

/-- What is left of a number in an `int8_t`. -/
def int8 (n : Int) : Int :=
  n.bmod 256

namespace AllShortest

variable {S : Type} (G : StepGraph Nat S)

/-- `dist_from_src` and `dist_from_dst`, `src_dep` and `dst_dep`, `q1` and `q2`, and `vec`. -/
structure MeetState where
  dist : Side → Nat → Int
  dep : Side → Int
  queue : Side → List Nat
  vec : List Nat

structure MeetScan where
  dist : Side → Nat → Int
  tmp : List Nat
  vec : List Nat

def visit (side : Side) (dep : Int) (scan : MeetScan) (nbr : Nat) : MeetScan :=
  if scan.dist side nbr = -1 then
    { dist := update scan.dist side
        (update (scan.dist side) nbr (int8 (dep + 1)))
      tmp := scan.tmp ++ [nbr]
      vec := if scan.dist side.other nbr ≠ -1 then scan.vec ++ [nbr] else scan.vec }
  else scan

def scanLevel (side : Side) (st : MeetState) : MeetScan :=
  (st.queue side).foldl
    (fun scan v => (G.next v).foldl (fun scan s => visit side (st.dep side) scan (G.target s)) scan)
    ⟨st.dist, [], st.vec⟩

def MeetState.turn (st : MeetState) : Side :=
  if (st.queue .fromSrc).length ≤ (st.queue .fromDst).length then .fromSrc else .fromDst

def expand (st : MeetState) : MeetState where
  dist := (scanLevel G st.turn st).dist
  dep := update st.dep st.turn (int8 (st.dep st.turn + 1))
  queue := update st.queue st.turn (scanLevel G st.turn st).tmp
  vec := (scanLevel G st.turn st).vec

def goesOn (upper : Nat) (st : MeetState) : Bool :=
  decide (st.dep .fromSrc < upper ∧ st.dep .fromDst < upper ∧ st.vec = [] ∧ st.queue st.turn ≠ [])

def meetInit (src dst : Nat) : MeetState where
  dist
    | .fromSrc => update (fun _ => -1) src 0
    | .fromDst => update (fun _ => -1) dst 0
  dep _ := 0
  queue
    | .fromSrc => [src]
    | .fromDst => [dst]
  vec := []

/-! ## Marking the vertices of shortest paths -/

/-- `visited`, `dist_from_src` and the queue. -/
structure MarkState where
  visited : Nat → Bool
  dist : Nat → Int
  queue : List Nat

def markNearer (v : Nat) (st : MarkState) (nbr : Nat) : MarkState :=
  if st.dist nbr ≠ -1 ∧ st.dist nbr + 1 = st.dist v then
    { st with visited := update st.visited nbr true, queue := st.queue ++ [nbr] }
  else st

def markFurther (distDst : Nat → Int) (v : Nat) (st : MarkState) (nbr : Nat) : MarkState :=
  if distDst nbr ≠ -1 ∧ distDst nbr + 1 = distDst v then
    { visited := update st.visited nbr true
      dist := update st.dist nbr (int8 (st.dist v + 1))
      queue := st.queue ++ [nbr] }
  else st

def markNbr (distDst : Nat → Int) (v : Nat) (st : MarkState) (nbr : Nat) : MarkState :=
  if st.visited nbr then st else markFurther distDst v (markNearer v st nbr) nbr

def markNext (distDst : Nat → Int) (st : MarkState) : MarkState :=
  match st.queue with
  | [] => st
  | v :: rest =>
    (G.next v).foldl (fun st s => markNbr distDst v st (G.target s)) { st with queue := rest }

def markInit (st : MeetState) : MarkState where
  visited x := decide (x ∈ st.vec)
  dist := st.dist .fromSrc
  queue := st.vec

def mark (fuel : Nat) (st : MeetState) : Option MarkState :=
  whileLoop (fun m => !m.queue.isEmpty) (markNext G (st.dist .fromDst)) fuel (markInit st)

/-! ## Listing the paths -/

/-- The step leads to a marked vertex one level further. -/
def MarkState.allows (m : MarkState) (v : Nat) (s : S) : Bool :=
  m.visited (G.target s) && decide (m.dist (G.target s) = m.dist v + 1)

def dfs (m : MarkState) (dst : Nat) : Nat → Nat → Option (List (List S))
  | 0, _ => none
  | fuel + 1, v =>
    if v = dst then some [[]]
    else
      collect (fun s => (dfs m dst fuel (G.target s)).map (List.map (s :: ·)))
        ((G.next v).filter (m.allows G v))

def listPaths (upper fuel src dst : Nat) (st : MeetState) : Option (List (List S)) :=
  if st.vec = [] then some []
  else if (upper : Int) ≤ st.dep .fromSrc + st.dep .fromDst then some []
  else (mark G fuel st).bind fun m => dfs G m dst fuel src

/-- `all_shortest_path_with_given_source_and_dest_impl`. -/
def paths (upper fuel src dst : Nat) : Option (List (List S)) :=
  (whileLoop (goesOn upper) (expand G) fuel (meetInit src dst)).bind
    (listPaths G upper fuel src dst)

end AllShortest

/-- The edges of one triplet between vertices of one label, walked in both directions. -/
def ReadGraph.loopGraph (g : ReadGraph) (label edge : Nat) : StepGraph Nat PathStep where
  next a :=
    ((g.outgoing ⟨label, label, edge⟩ a).map fun n =>
        (⟨edge, .kOut, n.data, ⟨label, n.neighbor⟩⟩ : PathStep)) ++
      (g.incoming ⟨label, label, edge⟩ a).map fun n => ⟨edge, .kIn, n.data, ⟨label, n.neighbor⟩⟩
  target s := s.node.vid

namespace ShortestPathParams

variable {g : ReadGraph} (p : ShortestPathParams g)

def allShortestPaths (label edge fuel src dst : Nat) : Option (List Path) :=
  (AllShortest.paths (g.loopGraph label edge) p.hopUpper fuel src dst).map
    (List.map (Path.mk ⟨label, src⟩))

end ShortestPathParams

end Neug.Execution
