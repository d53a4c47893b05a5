import Neug.Execution.AllShortestSelf

/-! # What the all-shortest-paths operator returns

Between different vertices the operator returns the shortest paths, whatever the lower bound of
the range is, unless they have 128 steps or more.  From a vertex to itself it returns the empty
path only if the two searches meet.
-/

namespace Neug.Execution

open Library List ReadGraph StepGraph
open Storage (EdgeLabel)

/-! ## The edges of the triplet as a graph -/

namespace ReadGraph

variable {g : ReadGraph} {label edge a d : Nat} {x : VertexRecord}

theorem loopGraph_next : (g.loopGraph label edge).next a =
    g.stepsFrom [⟨label, label, edge⟩] .kBoth ⟨label, a⟩ := by
  rw [stepsFrom, outSteps_loop, inSteps_loop]
  rfl

theorem node_eq_of_mem_loopGraph {s : PathStep} (h : s ∈ (g.loopGraph label edge).next a) :
    s.node = ⟨label, (g.loopGraph label edge).target s⟩ := by
  rcases mem_append.mp h with h | h
  · obtain ⟨n, -, rfl⟩ := mem_map.mp h
    rfl
  · obtain ⟨n, -, rfl⟩ := mem_map.mp h
    rfl

theorem nodup_loopGraph : ((g.loopGraph label edge).next a).Nodup := by
  rw [loopGraph_next]
  exact nodup_stepsFrom (nodup_singleton _)

theorem loopGraph_reversible : (g.loopGraph label edge).Reversible := by
  intro a s hs
  have hnode := node_eq_of_mem_loopGraph hs
  rw [loopGraph_next] at hs
  obtain ⟨s', hs', hback⟩ := exists_step_back hs
  rw [hnode, ← loopGraph_next] at hs'
  exact ⟨s', hs', congrArg VertexRecord.vid hback⟩

theorem loopGraph_target_mem {s : PathStep} (h : s ∈ (g.loopGraph label edge).next a) :
    (g.loopGraph label edge).target s ∈ g.edges.map (·.src) ++ g.edges.map (·.dst) := by
  rw [loopGraph_next] at h
  obtain ⟨hdir, hedge, -⟩ := mem_stepsFrom.mp h
  obtain ⟨el, dir, data, node⟩ := s
  rcases hdir with hdir | hdir
  · obtain rfl : dir = .kOut := hdir
    exact mem_append_right _ (mem_map.mpr ⟨_, hedge, rfl⟩)
  · obtain rfl : dir = .kIn := hdir
    exact mem_append_left _ (mem_map.mpr ⟨_, hedge, rfl⟩)

/-- Walks over the edges of the triplet stay at vertices of its label. -/
theorem loopGraph_walk_iff {w : List PathStep} :
    ((g.stepGraph [⟨label, label, edge⟩] .kBoth).IsWalk ⟨label, a⟩ w ∧
        (g.stepGraph [⟨label, label, edge⟩] .kBoth).finish ⟨label, a⟩ w = x) ↔
      (g.loopGraph label edge).IsWalk a w ∧ x = ⟨label, (g.loopGraph label edge).finish a w⟩ := by
  induction w generalizing a with
  | nil => simp [eq_comm]
  | cons s w ih =>
    have hnext : (g.stepGraph [⟨label, label, edge⟩] .kBoth).next ⟨label, a⟩ =
        (g.loopGraph label edge).next a := loopGraph_next.symm
    rw [isWalk_cons, isWalk_cons, finish_cons, finish_cons,
      and_assoc, and_assoc, hnext]
    refine and_congr_right fun hs => ?_
    have htarget : (g.stepGraph [⟨label, label, edge⟩] .kBoth).target s =
        ⟨label, (g.loopGraph label edge).target s⟩ := node_eq_of_mem_loopGraph hs
    rw [htarget]
    exact ih

theorem loopGraph_reaches_iff : (g.stepGraph [⟨label, label, edge⟩] .kBoth).Reaches ⟨label, a⟩ x d ↔
    x.label = label ∧ (g.loopGraph label edge).Reaches a x.vid d := by
  constructor
  · rintro ⟨w, hwalk, hfinish, hlen⟩
    obtain ⟨hwalk', rfl⟩ := loopGraph_walk_iff.mp ⟨hwalk, hfinish⟩
    exact ⟨rfl, w, hwalk', rfl, hlen⟩
  · rintro ⟨rfl, w, hwalk, hfinish, hlen⟩
    obtain ⟨hwalk', hfinish'⟩ := loopGraph_walk_iff.mpr ⟨hwalk, rfl⟩
    rw [hfinish] at hfinish'
    exact ⟨w, hwalk', hfinish', hlen⟩

theorem loopGraph_isDist_iff {dst : Nat} :
    (g.stepGraph [⟨label, label, edge⟩] .kBoth).IsDist ⟨label, a⟩ ⟨label, dst⟩ d ↔
      (g.loopGraph label edge).IsDist a dst d := by
  simp only [StepGraph.IsDist, loopGraph_reaches_iff, true_and]

end ReadGraph

namespace ShortestPathParams

variable {g : ReadGraph} {p : ShortestPathParams g} {label edge src dst : Nat}

theorem allShortestPaths_mono {n m : Nat} {ps : List Path} (hle : n ≤ m)
    (h : p.allShortestPaths label edge n src dst = some ps) :
    p.allShortestPaths label edge m src dst = some ps := by
  obtain ⟨ws, hws, rfl⟩ := Option.map_eq_some_iff.mp h
  exact Option.map_eq_some_iff.mpr ⟨ws, AllShortest.paths_mono hle hws, rfl⟩

/-- The shortest paths between two vertices, if their length is in the range. -/
def IsShortestBetween (p : ShortestPathParams g) (label edge src dst : Nat) (q : Path) : Prop :=
  g.IsPathFrom [⟨label, label, edge⟩] .kBoth ⟨label, src⟩ q ∧ q.endNode = ⟨label, dst⟩ ∧
    (g.stepGraph [⟨label, label, edge⟩] .kBoth).IsDist ⟨label, src⟩ ⟨label, dst⟩ q.length ∧
    p.hopLower ≤ q.length ∧ q.length < p.hopUpper

/-- The pairs that the search serves.  Between different vertices, distances below the upper bound
have to reach the lower bound, unless they are not found because they are 128 or more.  For a vertex
and itself, the searches have to meet when the empty path is asked for, and only then. -/
def ServesAllPaths (p : ShortestPathParams g) (label edge src dst : Nat) : Prop :=
  if src = dst then
    AllShortest.MeetsItself (g.loopGraph label edge) p.hopUpper src ↔
      p.hopLower = 0 ∧ 0 < p.hopUpper
  else
    ∀ d, (g.stepGraph [⟨label, label, edge⟩] .kBoth).IsDist ⟨label, src⟩ ⟨label, dst⟩ d →
      d < p.hopUpper → (p.hopLower ≤ d ↔ d < 128)

theorem isShortestBetween_iff {q : Path} : p.IsShortestBetween label edge src dst q ↔
    ∃ w, ((g.loopGraph label edge).IsWalk src w ∧ (g.loopGraph label edge).finish src w = dst ∧
      (g.loopGraph label edge).IsDist src dst w.length ∧ p.hopLower ≤ w.length ∧
      w.length < p.hopUpper) ∧ Path.mk ⟨label, src⟩ w = q := by
  obtain ⟨start, w⟩ := q
  have hend : start = ⟨label, src⟩ →
      Path.endNode ⟨start, w⟩ =
        (g.stepGraph [⟨label, label, edge⟩] .kBoth).finish ⟨label, src⟩ w := by
    rintro rfl
    exact Path.endNode_eq_finish g _ _ _
  constructor
  · rintro ⟨⟨rfl, hwalk⟩, hfinish, hdist, hrange⟩
    rw [hend rfl] at hfinish
    obtain ⟨hwalk', heq⟩ := loopGraph_walk_iff.mp ⟨hwalk, hfinish⟩
    have heq' := congrArg VertexRecord.vid heq
    exact ⟨w, ⟨hwalk', heq'.symm, loopGraph_isDist_iff.mp hdist, hrange⟩, rfl⟩
  · rintro ⟨w, ⟨hwalk, hfinish, hdist, hrange⟩, ⟨⟩⟩
    obtain ⟨hwalk', heq⟩ := loopGraph_walk_iff.mpr ⟨hwalk, rfl⟩
    refine ⟨⟨rfl, hwalk'⟩, ?_, loopGraph_isDist_iff.mpr hdist, hrange⟩
    rw [hend rfl, heq, hfinish]

/-- A result that lists the walks with a property is right when this is the right property. -/
theorem exists_shortestBetween_iff {ws : List (List PathStep)} {Q : List PathStep → Prop}
    (hws : Returns (fun fuel => AllShortest.paths (g.loopGraph label edge) p.hopUpper fuel src dst)
      ws)
    (hexact : ExactlyOnce ws Q) :
    (∃ ps, Returns (fun fuel => p.allShortestPaths label edge fuel src dst) ps ∧
        ExactlyOnce ps (p.IsShortestBetween label edge src dst)) ↔
      ∀ w, Q w ↔ (g.loopGraph label edge).IsWalk src w ∧
        (g.loopGraph label edge).finish src w = dst ∧
        (g.loopGraph label edge).IsDist src dst w.length ∧ p.hopLower ≤ w.length ∧
        w.length < p.hopUpper := by
  have hinj : Function.Injective (Path.mk ⟨label, src⟩) := fun _ _ heq => (Path.mk.inj heq).2
  have hpaths : Returns (fun fuel => p.allShortestPaths label edge fuel src dst)
      (ws.map (Path.mk ⟨label, src⟩)) := by
    obtain ⟨fuel, hfuel⟩ := hws
    exact ⟨fuel, Option.map_eq_some_iff.mpr ⟨ws, hfuel, rfl⟩⟩
  constructor
  · rintro ⟨ps, hps, hshortest⟩ w
    obtain rfl := Returns.unique (fun _ _ _ hle h => allShortestPaths_mono hle h) hpaths hps
    have hmem := hshortest.2 (Path.mk ⟨label, src⟩ w)
    rw [mem_map_of_injective hinj, hexact.2, isShortestBetween_iff] at hmem
    rw [hmem]
    constructor
    · rintro ⟨w', hw', heq⟩
      exact hinj heq ▸ hw'
    · intro hw
      exact ⟨w, hw, rfl⟩
  · intro hQ
    refine ⟨_, hpaths, (hexact.map hinj).congr fun q => ?_⟩
    rw [isShortestBetween_iff]
    simp only [hQ]

theorem shortestBetween_iff_servesAllPaths (p : ShortestPathParams g) (label edge src dst : Nat) :
    (∃ ps, Returns (fun fuel => p.allShortestPaths label edge fuel src dst) ps ∧
        ExactlyOnce ps (p.IsShortestBetween label edge src dst)) ↔
      p.ServesAllPaths label edge src dst := by
  have hU : ∀ v, ∀ s ∈ (g.loopGraph label edge).next v, (g.loopGraph label edge).target s ∈
      g.edges.map (·.src) ++ g.edges.map (·.dst) := fun v s hs => loopGraph_target_mem hs
  have hrev : (g.loopGraph label edge).Reversible := loopGraph_reversible
  have hnodup : ∀ v, ((g.loopGraph label edge).next v).Nodup := fun v => nodup_loopGraph
  unfold ServesAllPaths
  split_ifs with hsame
  · subst hsame
    obtain ⟨ws, hws, hexact⟩ := AllShortest.exists_paths_self hU hrev hnodup p.hopUpper src
    rw [exists_shortestBetween_iff hws hexact]
    have hzero : ∀ w : List PathStep, (g.loopGraph label edge).IsDist src src w.length ↔
        w = [] := by
      intro w
      constructor
      · intro hdist
        exact length_eq_zero_iff.mp (hdist.unique (isDist_self src))
      · rintro rfl
        exact isDist_self src
    constructor
    · intro h
      have hnil := h []
      simpa [hzero, isDist_self] using hnil
    · intro h w
      rw [hzero]
      constructor
      · rintro ⟨rfl, hmeets⟩
        obtain ⟨hlower, hupper⟩ := h.mp hmeets
        exact ⟨trivial, rfl, rfl, hlower.le, hupper⟩
      · rintro ⟨-, -, rfl, hlower, hupper⟩
        exact ⟨rfl, h.mpr ⟨Nat.le_zero.mp hlower, hupper⟩⟩
  · obtain ⟨ws, hws, hexact⟩ := AllShortest.exists_paths_of_ne hU hrev hnodup hsame p.hopUpper
    rw [exists_shortestBetween_iff hws hexact]
    simp only [loopGraph_isDist_iff]
    constructor
    · intro h d hd hupper
      obtain ⟨w, hwalk, hfinish, rfl⟩ := id hd.1
      have hw := h w
      constructor
      · intro hlower
        have := (hw.mpr ⟨hwalk, hfinish, hd, hlower, hupper⟩).2.2.2.1
        omega
      · intro hsmall
        exact (hw.mp ⟨hwalk, hfinish, hd, by omega, hupper⟩).2.2.2.1
    · intro h w
      refine and_congr_right fun _ => and_congr_right fun _ => and_congr_right fun hdist => ?_
      refine and_congr_left fun hupper => ?_
      rw [h w.length hdist hupper]
      omega

end ShortestPathParams

def star : ReadGraph :=
  ReadGraph.ofEdges [⟨0, 0, 0⟩] [⟨⟨0, 0, 0⟩, 0, 1, 0⟩, ⟨⟨0, 0, 0⟩, 0, 2, 1⟩] (by simp) (by simp)

def starParams : ShortestPathParams star :=
  ⟨⟨[⟨0, 0, 0⟩], .kBoth, 1, 3, nodup_label_zero, by simp [star, ReadGraph.ofEdges]⟩, fun _ => true⟩

/-- Asked for paths of one or two steps from the middle of a star to itself, the search returns the
path without steps. -/
theorem not_shortestBetween_star :
    ¬ ∃ ps, Returns (fun fuel => starParams.allShortestPaths 0 0 fuel 0 0) ps ∧
      ExactlyOnce ps (starParams.IsShortestBetween 0 0 0 0) := by
  rintro ⟨ps, hps, hexact⟩
  have hrun : starParams.allShortestPaths 0 0 5 0 0 = some [⟨⟨0, 0⟩, []⟩] := by decide
  have heq := Returns.unique
    (fun _ _ _ hle h => ShortestPathParams.allShortestPaths_mono hle h) hps ⟨5, hrun⟩
  subst heq
  have hpath := (hexact.2 _).mp (mem_singleton_self _)
  exact absurd hpath.2.2.2.1 (by decide)

end Neug.Execution
