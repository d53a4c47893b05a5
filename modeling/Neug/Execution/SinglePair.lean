import Neug.Execution.SingleSourceContract
import Neug.Library.TwoSided

/-! # Single-pair shortest paths

Two searches, from the source and from the destination, share one array of signed depths: the
search from the source marks vertices with positive depths, the search from the destination
with negative ones, and zero stands for a vertex not found yet.  The search whose queue is
shorter takes the next level.  A neighbour with a depth of the other sign joins the two.
-/

namespace Neug.Execution

open Library Function
open Storage (EdgeLabel)

/-- The two searches: `q1` from the source and `q2` from the destination. -/
inductive Side where
  | fromSrc
  | fromDst
  deriving DecidableEq, Repr

def Side.other : Side → Side
  | .fromSrc => .fromDst
  | .fromDst => .fromSrc

def Side.sign : Side → Int
  | .fromSrc => 1
  | .fromDst => -1

namespace SsspSearch

structure PairState where
  dis : Nat → Int
  pre : Parents
  queue : Side → List Nat

/-- What the loops over one queue change; `tmp` is the next queue. -/
structure LevelScan where
  dis : Nat → Int
  pre : Parents
  tmp : List Nat

/-- Why the loops over one queue are left before its end. -/
inductive PairStop where
  | tooFar
  | met (x y : Nat) (pre : Parents)

variable (S : SsspSearch)

def visitNbr (side : Side) (x : Nat) (st : LevelScan) (y : Nat) : Except PairStop LevelScan :=
  if st.dis y = 0 then
    .ok ⟨update st.dis y (st.dis x + side.sign), update st.pre y (some x),
      st.tmp ++ [y]⟩
  else if side.sign * st.dis y < 0 then .error (.met x y st.pre)
  else .ok st

def visitVertex (side : Side) (st : LevelScan) (x : Nat) : Except PairStop LevelScan :=
  if (S.upper : Int) + 1 ≤ side.sign * st.dis x then .error .tooFar
  else (S.nbrs x).foldlM (visitNbr side x) st

def expandSide (side : Side) (st : PairState) : Except PairStop LevelScan :=
  (st.queue side).foldlM (S.visitVertex side) ⟨st.dis, st.pre, []⟩

/-- The vertex and those before it, up to one that was not reached from another one. -/
def followPre (pre : Parents) : Nat → Option Nat → Option (List Nat)
  | _, none => some []
  | 0, some _ => none
  | fuel + 1, some x => (followPre pre fuel (pre x)).map (x :: ·)

/-- The vertices from the source to `u` and on from `v` to the destination. -/
def joined (fuel : Nat) (pre : Parents) (u v : Nat) : Option (List Nat) :=
  (followPre pre fuel (some u)).bind fun front =>
    (followPre pre fuel (some v)).map fun back => front.reverse ++ back

/-- The path through the edge between `x`, a vertex of the queue, and its neighbour `y`. -/
def stitch (fuel : Nat) (pre : Parents) (x y : Nat) : Side → Option (List Nat)
  | .fromSrc => joined fuel pre x y
  | .fromDst => joined fuel pre y x

def pairAnswer (path : List Nat) : Bool × List Nat :=
  (decide (S.lower ≤ path.length - 1 ∧ path.length - 1 < S.upper), path)

def PairState.turn (st : PairState) : Side :=
  if (st.queue .fromSrc).length ≤ (st.queue .fromDst).length then .fromSrc else .fromDst

def PairState.advance (st : PairState) (scan : LevelScan) : PairState :=
  ⟨scan.dis, scan.pre, update st.queue st.turn scan.tmp⟩

/-- The loop of `single_source_single_dest_shortest_path_impl`. -/
def pairRounds : Nat → PairState → Option (Bool × List Nat)
  | 0, _ => none
  | fuel + 1, st =>
    if (st.queue st.turn).isEmpty then some (false, [])
    else
      match S.expandSide st.turn st with
      | .error .tooFar => some (false, [])
      | .error (.met x y pre) => (stitch fuel pre x y st.turn).map S.pairAnswer
      | .ok scan => pairRounds fuel (st.advance scan)

/-- The first state.  If the source is the destination, the second depth replaces the first. -/
def pairInit (src dst : Nat) : PairState where
  dis := update (update (fun _ => 0) src 1) dst (-1)
  pre _ := none
  queue
    | .fromSrc => [src]
    | .fromDst => [dst]

def singlePair (fuel src dst : Nat) : Option (Bool × List Nat) :=
  S.pairRounds fuel (pairInit src dst)

/-- The path along a list of ids, with the first edge between every two of them. -/
def pathOfIds (path : List Nat) : Except ExecError Path :=
  match path with
  | source :: _ => (S.edgeSteps path).map fun steps => ⟨⟨S.vLabel, source⟩, steps⟩
  | [] => .error .outOfBounds

/-- The path to the destination, if the search is successful. -/
def pairPath (answer : Bool × List Nat) : Except ExecError (Option Path) :=
  if answer.1 then (S.pathOfIds answer.2).map some else .ok none

end SsspSearch

namespace ShortestPathParams

variable {g : ReadGraph} (p : ShortestPathParams g)

def pairSearch (t : EdgeLabel) : SsspSearch :=
  p.ssspBothDir t.src t.edge (g.outgoing ⟨t.src, t.src, t.edge⟩) (g.incoming ⟨t.src, t.src, t.edge⟩)

def shortestPathTo (t : EdgeLabel) (fuel src dst : Nat) : Option (Except ExecError (Option Path)) :=
  ((p.pairSearch t).singlePair fuel src dst).map (p.pairSearch t).pairPath

end ShortestPathParams

end Neug.Execution
