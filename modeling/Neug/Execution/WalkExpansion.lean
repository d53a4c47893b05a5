import Neug.Library.WhileLoop
import Neug.Execution.VertexColumn

/-! # Variable-length expansion along walks

Three loops expand a frontier one edge at a time and return what they find after `lower` to
`upper - 1` edges: one over bare vertex ids for a single triplet whose ends have the same
label, one over labelled vertices, and one over paths.
-/

namespace Neug.Execution

open Library List
open Storage (EdgeLabel)

/-! ## The single-label fast path -/

/-- The frontier and what was emitted; entries carry their input row. -/
structure IterativeExpand where
  depth : Nat
  outputList : List (Nat × Nat)
  emitted : List (Nat × Nat)

def IterativeExpand.round (neighbors : Nat → List Nat) (lower upper : Nat) (s : IterativeExpand) :
    IterativeExpand :=
  let inputList := s.outputList
  if lower ≤ s.depth ∧ s.depth < upper then
    -- the last level is emitted without being expanded
    if s.depth = upper - 1 then ⟨s.depth + 1, [], s.emitted ++ inputList⟩
    else ⟨s.depth + 1, inputList.flatMap (carry neighbors), s.emitted ++ inputList⟩
  else if s.depth < lower then
    ⟨s.depth + 1, inputList.flatMap (carry neighbors), s.emitted⟩
  else ⟨s.depth + 1, [], s.emitted⟩

/-- The body that `iterative_expand_vertex_on_graph_view` shares with its variant for two
views; they differ in the neighbours they list. -/
def iterativeExpandVertex (neighbors : Nat → List Nat) (vertices : List Nat) (lower upper : Nat)
    (fuel : Nat) : Option (Except ExecError (List (Nat × Nat))) :=
  if upper = lower then some (.ok [])
  else if upper = 1 then
    if lower = 0 then some (.ok vertices.zipIdx) else some (.error .checkFailed)
  else
    (whileLoop (fun s : IterativeExpand => !s.outputList.isEmpty)
      (IterativeExpand.round neighbors lower upper) fuel ⟨0, vertices.zipIdx, []⟩).map
      fun s => .ok s.emitted

def iterativeExpandVertexOnGraphView (view : Nat → List Nbr) (vertices : List Nat)
    (lower upper fuel : Nat) : Option (Except ExecError (List (Nat × Nat))) :=
  iterativeExpandVertex (fun v => (view v).map (·.neighbor)) vertices lower upper fuel

def iterativeExpandVertexOnDualGraphView (iview oview : Nat → List Nbr) (vertices : List Nat)
    (lower upper fuel : Nat) : Option (Except ExecError (List (Nat × Nat))) :=
  iterativeExpandVertex
    (fun v => (iview v).map (·.neighbor) ++ (oview v).map (·.neighbor)) vertices lower upper fuel

/-- The rows are pairs of a vertex id and an input row. -/
def pathExpandVertexWithoutPredicateImpl (g : ReadGraph) (t : EdgeLabel) (vertices : List Nat)
    (dir : Direction) (lower upper fuel : Nat) : Option (Except ExecError (List (Nat × Nat))) :=
  let iview := g.incoming ⟨t.dst, t.src, t.edge⟩
  let oview := g.outgoing ⟨t.src, t.dst, t.edge⟩
  match dir with
  | .kBoth => iterativeExpandVertexOnDualGraphView iview oview vertices lower upper fuel
  | .kIn => iterativeExpandVertexOnGraphView iview vertices lower upper fuel
  | .kOut => iterativeExpandVertexOnGraphView oview vertices lower upper fuel

/-! ## The general vertex-returning path -/

namespace ReadGraph

variable (g : ReadGraph) (labels : List EdgeLabel)

def outNeighbors (v : VertexRecord) : List VertexRecord :=
  (outLabelsMap labels v.label).flatMap fun t =>
    (g.outgoing t v.vid).map fun n => ⟨t.dst, n.neighbor⟩

def inNeighbors (v : VertexRecord) : List VertexRecord :=
  (inLabelsMap labels v.label).flatMap fun t =>
    (g.incoming t v.vid).map fun n => ⟨t.src, n.neighbor⟩

def neighbors (dir : Direction) (v : VertexRecord) : List VertexRecord :=
  match dir with
  | .kOut => g.outNeighbors labels v
  | .kIn => g.inNeighbors labels v
  | .kBoth => g.outNeighbors labels v ++ g.inNeighbors labels v

theorem map_node_stepsFrom (dir : Direction) (v : VertexRecord) :
    (g.stepsFrom labels dir v).map (·.node) = g.neighbors labels dir v := by
  cases dir <;>
    simp [stepsFrom, neighbors, outSteps, inSteps, outNeighbors, inNeighbors, map_flatMap,
      Function.comp_def]

end ReadGraph

/-- The loop of `edge_expand_v`; the first argument counts the rounds left before `depth`
reaches `upper`. -/
def vertexRounds (neighbors : VertexRecord → List VertexRecord) (lower upper : Nat) :
    Nat → Nat → List (VertexRecord × Nat) → List (VertexRecord × Nat)
  | 0, _, _ => []
  | rounds + 1, depth, input =>
    if input.isEmpty then []
    else
      let emitted := if lower ≤ depth then input else []
      if upper ≤ depth + 1 then emitted
      else emitted ++ vertexRounds neighbors lower upper rounds (depth + 1)
        (input.flatMap (carry neighbors))

namespace PathExpandParams

variable {g : ReadGraph} (p : PathExpandParams g)

def builderLabels : List Nat :=
  p.labels.flatMap fun t =>
    match p.dir with
    | .kOut => if p.hopLower = 0 then [t.dst, t.src] else [t.dst]
    | .kIn => if p.hopLower = 0 then [t.src, t.dst] else [t.src]
    | .kBoth => [t.dst, t.src]

/-- `edge_expand_v` without its fast path.  A row is an input row and a vertex. -/
def edgeExpandVGeneral (col : VertexColumn Nat) : Except ExecError (List (Nat × VertexRecord)) :=
  let pushes := vertexRounds (g.neighbors p.labels p.dir) p.hopLower p.hopUpper p.hopUpper 0
    col.starts.zipIdx
  ((pushes.map (·.1)).foldlM MLVertexColumnBuilderOpt.pushBackOpt
      (MLVertexColumnBuilderOpt.new p.builderLabels)).map
    fun b => (pushes.map (·.2)).zip b.vertices

def fastPath : VertexColumn Nat → Option (EdgeLabel × List Nat)
  | .single label vertices =>
    match p.labels with
    | [t] => if t.src = t.dst ∧ label = t.src then some (t, vertices) else none
    | _ => none
  | _ => none

def edgeExpandV (col : VertexColumn Nat) (fuel : Nat) :
    Option (Except ExecError (List (Nat × VertexRecord))) :=
  match p.fastPath col with
  | some (t, vertices) =>
    (pathExpandVertexWithoutPredicateImpl g t vertices p.dir p.hopLower p.hopUpper fuel).map
      fun result => result.map fun rows => rows.map fun row => (row.2, ⟨t.src, row.1⟩)
  | none => some (p.edgeExpandVGeneral col)

end PathExpandParams

/-! ## The path-returning path -/

def Path.expandAll (steps : VertexRecord → List PathStep) (p : Path) : List Path :=
  (steps p.endNode).map p.expand

/-- The loop of `path_expand_p_arbitrary`; it expands before it emits. -/
def pathRounds (steps : VertexRecord → List PathStep) (lower upper : Nat) :
    Nat → Nat → List (Path × Nat) → List (Path × Nat)
  | 0, _, _ => []
  | rounds + 1, depth, input =>
    let output :=
      if depth + 1 < upper then
        input.flatMap (carry (Path.expandAll steps))
      else []
    let emitted := if lower ≤ depth then input else []
    if upper ≤ depth + 1 then emitted
    else emitted ++ pathRounds steps lower upper rounds (depth + 1) output

def PathExpandParams.pathExpandPArbitrary {g : ReadGraph} (p : PathExpandParams g)
    (col : VertexColumn Nat) : List (Nat × Path) :=
  (pathRounds (g.stepsFrom p.labels p.dir) p.hopLower p.hopUpper p.hopUpper 0
    (col.starts.map fun v => ⟨v, []⟩).zipIdx).map Prod.swap

/-! ## What the loops collect -/

/-- A loop that emits a level if it is in range, and goes on with the next one. -/
theorem rounds_eq {α : Type} {loop : Nat → Nat → List α → List α} {next : α → List α}
    {lower upper : Nat} {roots : List α} (hdone : ∀ depth input, loop 0 depth input = [])
    (hround : ∀ rounds depth, rounds + 1 + depth = upper →
      loop (rounds + 1) depth (levels next roots depth) =
        (if lower ≤ depth then levels next roots depth else []) ++
          loop rounds (depth + 1) (levels next roots (depth + 1))) :
    loop upper 0 roots = levelsBetween next roots lower upper := by
  have hall : ∀ rounds depth, rounds + depth = upper →
      levelsBetween next roots lower depth ++ loop rounds depth (levels next roots depth) =
        levelsBetween next roots lower upper := by
    intro rounds
    induction rounds with
    | zero =>
      intro depth h
      rw [hdone, append_nil, ← h, Nat.zero_add]
    | succ rounds ih =>
      intro depth h
      rw [hround rounds depth h, ← append_assoc, ← levelsBetween_succ]
      exact ih (depth + 1) (by omega)
  have h := hall upper 0 rfl
  rwa [levelsBetween_self roots (Nat.zero_le lower), nil_append, levels_zero] at h

theorem vertexRounds_eq (neighbors : VertexRecord → List VertexRecord) (lower upper : Nat)
    (roots : List (VertexRecord × Nat)) : vertexRounds neighbors lower upper upper 0 roots =
      levelsBetween (carry neighbors) roots lower upper := by
  refine rounds_eq (fun _ _ => rfl) fun rounds depth h => ?_
  rw [vertexRounds, levels_succ]
  by_cases hnil : levels (carry neighbors) roots depth = []
  · cases rounds <;> simp [hnil, vertexRounds]
  · cases rounds with
    | zero => simp [hnil, vertexRounds, ← h]
    | succ rounds => simp [hnil, show ¬ upper ≤ depth + 1 by omega]

theorem pathRounds_eq (steps : VertexRecord → List PathStep) (lower upper : Nat)
    (roots : List (Path × Nat)) : pathRounds steps lower upper upper 0 roots =
      levelsBetween (carry (Path.expandAll steps)) roots lower upper := by
  refine rounds_eq (fun _ _ => rfl) fun rounds depth h => ?_
  rw [pathRounds, levels_succ]
  cases rounds with
  | zero => simp [pathRounds, ← h]
  | succ rounds =>
    have hmore : depth + 1 < upper := by omega
    simp only [if_pos hmore, if_neg hmore.not_ge]

namespace IterativeExpand

/-- The depth at which the fast loop has stopped expanding. -/
def lastDepth (lower upper : Nat) : Nat :=
  if lower < upper then upper else lower + 1

/-- The frontier is a level until the last depth, and the levels in range so far are
emitted. -/
structure Collecting (neighbors : Nat → List Nat) (roots : List (Nat × Nat)) (lower upper : Nat)
    (s : IterativeExpand) : Prop where
  frontier : s.depth < lastDepth lower upper ∧
      s.outputList = levels (carry neighbors) roots s.depth ∨
    s.depth = lastDepth lower upper ∧ s.outputList = []
  emitted : s.emitted = levelsBetween (carry neighbors) roots lower (min s.depth upper)

variable {neighbors : Nat → List Nat} {roots : List (Nat × Nat)} {lower upper : Nat}
  {s : IterativeExpand}

theorem Collecting.round (h : Collecting neighbors roots lower upper s) (hne : s.outputList ≠ []) :
    Collecting neighbors roots lower upper (s.round neighbors lower upper) ∧
      s.depth < lastDepth lower upper ∧ (s.round neighbors lower upper).depth = s.depth + 1 := by
  obtain ⟨hdepth, hout⟩ | ⟨-, hout⟩ := h.frontier
  swap
  · exact absurd hout hne
  refine ⟨?_, hdepth, ?_⟩
  swap
  · unfold IterativeExpand.round
    split_ifs <;> rfl
  have hemitted := h.emitted
  unfold lastDepth at hdepth
  unfold IterativeExpand.round
  split_ifs with hrange hlast hbelow
  · -- the last level in range
    refine ⟨.inr ⟨?_, rfl⟩, ?_⟩
    · unfold lastDepth
      rw [if_pos (by omega)]
      show s.depth + 1 = upper
      omega
    · rw [hemitted, hout, Nat.min_eq_left hrange.2.le,
        Nat.min_eq_left (by omega : s.depth + 1 ≤ upper), levelsBetween_succ, if_pos hrange.1]
  · -- a level in range that is also expanded
    refine ⟨.inl ⟨?_, ?_⟩, ?_⟩
    · unfold lastDepth
      rw [if_pos (by omega)]
      show s.depth + 1 < upper
      omega
    · rw [hout, levels_succ]
    · rw [hemitted, hout, Nat.min_eq_left hrange.2.le,
        Nat.min_eq_left (by omega : s.depth + 1 ≤ upper), levelsBetween_succ, if_pos hrange.1]
  · -- a level below the range
    refine ⟨.inl ⟨?_, ?_⟩, ?_⟩
    · unfold lastDepth
      show s.depth + 1 < _
      split_ifs <;> omega
    · rw [hout, levels_succ]
    · show s.emitted = levelsBetween (carry neighbors) roots lower (min (s.depth + 1) upper)
      rw [hemitted, levelsBetween_self _ (by omega), levelsBetween_self _ (by omega)]
  · -- past an empty range
    have hge : ¬ lower < upper := by
      intro hlt
      rw [if_pos hlt] at hdepth
      omega
    rw [if_neg hge] at hdepth
    refine ⟨.inr ⟨?_, rfl⟩, ?_⟩
    · unfold lastDepth
      rw [if_neg hge]
      show s.depth + 1 = lower + 1
      omega
    · rw [hemitted, levelsBetween_self _ (by omega), levelsBetween_self _ (by omega)]

/-- When the frontier is empty, all levels in range are emitted. -/
theorem Collecting.emitted_of_nil (h : Collecting neighbors roots lower upper s)
    (hnil : s.outputList = []) : s.emitted = levelsBetween (carry neighbors) roots lower upper := by
  rw [h.emitted]
  obtain ⟨hdepth, hout⟩ | ⟨hdepth, -⟩ := h.frontier
  · rcases Nat.le_total s.depth upper with hle | hge
    · rw [Nat.min_eq_left hle]
      exact (levelsBetween_of_nil (hout.symm.trans hnil) hle).symm
    · rw [Nat.min_eq_right hge]
  · rw [Nat.min_eq_right]
    rw [hdepth, lastDepth]
    split_ifs <;> omega

end IterativeExpand

open IterativeExpand (Collecting lastDepth)

/-- Unless its check fails, the fast path ends with the levels in range. -/
theorem iterativeExpandVertex_returns (neighbors : Nat → List Nat) (vertices : List Nat)
    {lower upper : Nat} (hcheck : upper = 1 → lower ≤ 1) :
    Returns (iterativeExpandVertex neighbors vertices lower upper)
      (.ok (levelsBetween (carry neighbors) vertices.zipIdx lower upper)) := by
  unfold Returns iterativeExpandVertex
  by_cases heq : upper = lower
  · exact ⟨0, by rw [if_pos heq, levelsBetween_self _ heq.le]⟩
  by_cases hone : upper = 1
  · have hzero : lower = 0 := by
      omega
    subst hone hzero
    exact ⟨0, by simp [levelsBetween]⟩
  simp only [if_neg heq, if_neg hone]
  have hinit : Collecting neighbors vertices.zipIdx lower upper
      ⟨0, vertices.zipIdx, []⟩ := by
    refine ⟨.inl ⟨?_, rfl⟩, ?_⟩
    · show 0 < lastDepth lower upper
      unfold lastDepth
      split_ifs <;> omega
    · exact (levelsBetween_self _ (by simp)).symm
  have hround : ∀ s : IterativeExpand,
      Collecting neighbors vertices.zipIdx lower upper s →
      (!s.outputList.isEmpty) = true →
      Collecting neighbors vertices.zipIdx lower upper
        (s.round neighbors lower upper) ∧
      lastDepth lower upper - (s.round neighbors lower upper).depth <
        lastDepth lower upper - s.depth := by
    intro s hs hguard
    obtain ⟨hs', hlt, hdepth⟩ := hs.round (by simpa using hguard)
    exact ⟨hs', by omega⟩
  obtain ⟨s, hs⟩ := exists_whileLoop_of_measure
    (fun s : IterativeExpand => lastDepth lower upper - s.depth) hinit hround
  obtain ⟨hcollected, hguard⟩ := whileLoop_invariant hs hinit fun t ht hg => (hround t ht hg).1
  have hemitted := hcollected.emitted_of_nil (by simpa using hguard)
  exact ⟨_, Option.map_eq_some_iff.mpr ⟨s, hs, congrArg Except.ok hemitted⟩⟩

end Neug.Execution
