import Neug.Execution.PathSearch

/-! # Simple paths and trails

The search emits a path by its number of vertices, one more than its number of edges, never
walks incoming edges alone, and knows a step only by its two ends and its edge label.  The
results here say exactly for which start rows this gives the simple paths and the trails of
the hop range.
-/

namespace Neug.Execution

open Library List Neug.Execution.Path
open Storage (EdgeLabel)

namespace Path

/-- The steps of a path from `u` as a start, an end and an edge label. -/
def arcsFrom : VertexRecord → List PathStep → List (VertexRecord × VertexRecord × Nat)
  | _, [] => []
  | u, s :: w => (u, s.node, s.edgeLabel) :: arcsFrom s.node w

def edgesFrom : VertexRecord → List PathStep → List Edge
  | _, [] => []
  | u, s :: w => s.edge u :: edgesFrom s.node w

def arcs (q : Path) : List (VertexRecord × VertexRecord × Nat) :=
  arcsFrom q.start q.steps

def edges (q : Path) : List Edge :=
  edgesFrom q.start q.steps

def lastNode (u : VertexRecord) (w : List PathStep) : VertexRecord :=
  w.foldl (fun _ s => s.node) u

section

variable (u : VertexRecord)

theorem arcsFrom_append (w x : List PathStep) :
    arcsFrom u (w ++ x) = arcsFrom u w ++ arcsFrom (lastNode u w) x := by
  induction w generalizing u with
  | nil => rfl
  | cons s w ih => simp [arcsFrom, ih, lastNode]

theorem edgesFrom_append (w x : List PathStep) :
    edgesFrom u (w ++ x) = edgesFrom u w ++ edgesFrom (lastNode u w) x := by
  induction w generalizing u with
  | nil => rfl
  | cons s w ih => simp [edgesFrom, ih, lastNode]

@[simp] theorem length_arcsFrom (w : List PathStep) : (arcsFrom u w).length = w.length := by
  induction w generalizing u with
  | nil => rfl
  | cons s w ih => simp [arcsFrom, ih]

theorem zip_nodes_steps (w : List PathStep) :
    ((⟨u, w⟩ : Path).nodes.zip w).map (fun taken => (taken.1, taken.2.node, taken.2.edgeLabel)) =
      arcsFrom u w := by
  induction w generalizing u with
  | nil => rfl
  | cons s w ih => simpa [nodes, arcsFrom] using ih s.node

theorem endNode_mk (w : List PathStep) : (⟨u, w⟩ : Path).endNode = lastNode u w := by
  cases w using reverseRecOn with
  | nil => rfl
  | append_singleton w s => simp [endNode, lastNode]

end

end Path

def ReadGraph.endpoints (g : ReadGraph) : List VertexRecord :=
  g.edges.flatMap fun e => [⟨e.label.src, e.src⟩, ⟨e.label.dst, e.dst⟩]

def ReadGraph.arcs (g : ReadGraph) : List (VertexRecord × VertexRecord × Nat) :=
  g.edges.flatMap fun e =>
    [(⟨e.label.src, e.src⟩, ⟨e.label.dst, e.dst⟩, e.label.edge),
      (⟨e.label.dst, e.dst⟩, ⟨e.label.src, e.src⟩, e.label.edge)]

namespace PathExpandParams

open StepGraph

variable {g : ReadGraph} (p : PathExpandParams g)

/-! ## The two rules -/

section

variable (v : VertexRecord) (w : List PathStep)

theorem admits_onPath_iff : Admits (allowed onPath v) w ↔ (⟨v, w⟩ : Path).nodes.Nodup := by
  induction w using reverseRecOn with
  | nil => exact ⟨fun _ => by simp [nodes], fun _ => admits_nil⟩
  | append_singleton w s ih =>
    have hnodes : (⟨v, w ++ [s]⟩ : Path).nodes = (⟨v, w⟩ : Path).nodes ++ [s.node] := by
      simp [nodes]
    rw [admits_concat, ih, hnodes, nodup_concat_iff]
    simp [allowed, onPath]

theorem arcTaken_iff (s : PathStep) : arcTaken ⟨v, w⟩ s = true ↔
      (lastNode v w, s.node, s.edgeLabel) ∈ arcsFrom v w := by
  rw [← zip_nodes_steps, mem_map]
  simp only [arcTaken, any_eq_true, Bool.and_eq_true, decide_eq_true_eq, endNode_mk,
    Prod.mk.injEq, and_assoc]

theorem admits_arcTaken_iff : Admits (allowed arcTaken v) w ↔ (arcsFrom v w).Nodup := by
  induction w using reverseRecOn with
  | nil => exact ⟨fun _ => nodup_nil, fun _ => admits_nil⟩
  | append_singleton w s ih =>
    have hs : allowed arcTaken v w s = true ↔
        (lastNode v w, s.node, s.edgeLabel) ∉ arcsFrom v w := by
      rw [← arcTaken_iff]
      simp [allowed]
    rw [admits_concat, ih, hs, arcsFrom_append]
    exact nodup_concat_iff.symm

end

/-! ## Allowed walks are bounded -/

variable {skip : Path → PathStep → Bool} {u : VertexRecord} {s : PathStep}

theorem edge_mem_of_mem_dfsSteps (h : s ∈ g.dfsSteps p.labels p.dir u) : s.edge u ∈ g.edges := by
  by_cases hdir : p.dir = .kIn
  · rw [hdir, ReadGraph.dfsSteps_kIn] at h
    cases h
  · rw [g.dfsSteps_of_ne_kIn _ hdir] at h
    exact (ReadGraph.mem_stepsFrom.mp h).2.1

theorem arc_mem_arcs (h : s.edge u ∈ g.edges) : (u, s.node, s.edgeLabel) ∈ g.arcs := by
  refine mem_flatMap.mpr ⟨_, h, ?_⟩
  unfold PathStep.edge
  cases s.dir <;> simp

theorem node_mem_endpoints (h : s.edge u ∈ g.edges) : s.node ∈ g.endpoints := by
  refine mem_flatMap.mpr ⟨_, h, ?_⟩
  unfold PathStep.edge
  cases s.dir <;> simp

section

variable {v : VertexRecord} {w : List PathStep} (h : (g.dfsGraph p.labels p.dir).IsWalk v w)
include h

theorem arcsFrom_subset : arcsFrom v w ⊆ g.arcs := by
  induction w generalizing v with
  | nil => exact nil_subset _
  | cons s w ih =>
    refine cons_subset.mpr ⟨?_, ih h.2⟩
    exact arc_mem_arcs (p.edge_mem_of_mem_dfsSteps h.1)

theorem nodes_subset : w.map (·.node) ⊆ g.endpoints := by
  induction w generalizing v with
  | nil => exact nil_subset _
  | cons s w ih =>
    refine cons_subset.mpr ⟨?_, ih h.2⟩
    exact node_mem_endpoints (p.edge_mem_of_mem_dfsSteps h.1)

end

theorem levels_eq_nil_of_bounded {v : VertexRecord} {n : Nat}
    (h : ∀ w, (g.dfsGraph p.labels p.dir).IsWalk v w → Admits (allowed skip v) w → w.length ≤ n) :
    levels ((g.dfsGraph p.labels p.dir).extensions (allowed skip v) v) [[]] (n + 1) = [] := by
  refine eq_nil_iff_forall_not_mem.mpr fun w hw => ?_
  obtain ⟨hwalk, hadm, hlen⟩ := (g.dfsGraph p.labels p.dir).mem_levels_extensions.mp hw
  have := h w hwalk hadm
  omega

theorem levels_onPath_eq_nil (v : VertexRecord) :
    levels ((g.dfsGraph p.labels p.dir).extensions (allowed onPath v) v) [[]]
      (g.endpoints.length + 1) = [] := by
  refine p.levels_eq_nil_of_bounded fun w hwalk hadm => ?_
  have hnodup : (w.map (·.node)).Nodup := ((admits_onPath_iff v w).mp hadm).of_cons
  simpa using (subperm_of_subset hnodup (p.nodes_subset hwalk)).length_le

theorem levels_arcTaken_eq_nil (v : VertexRecord) :
    levels ((g.dfsGraph p.labels p.dir).extensions (allowed arcTaken v) v) [[]]
      (g.arcs.length + 1) = [] := by
  refine p.levels_eq_nil_of_bounded fun w hwalk hadm => ?_
  have hnodup := (admits_arcTaken_iff v w).mp hadm
  simpa using (subperm_of_subset hnodup (p.arcsFrom_subset hwalk)).length_le

/-! ## The hop range -/

section Range

variable {T : Path → Prop} {v : VertexRecord}

/-- Emitting by the number of vertices is right for a family of paths that is closed under
prefixes unless a path has one edge less than the range asks for. -/
theorem emits_in_range_iff (hnil : T ⟨v, []⟩)
    (hcut : ∀ q, T q → ∀ k ≤ q.length, ∃ q', T q' ∧ q'.length = k) (lower upper : Nat) :
    (∀ q, (T q ∧ lower ≤ q.length + 1 ∧ (upper = 0 ∨ q.length < upper)) ↔
        T q ∧ lower ≤ q.length ∧ q.length < upper) ↔ lower = 0 ∧ 0 < upper ∨
        0 < lower ∧ (0 < upper ∧ upper < lower ∨ ¬ ∃ q, T q ∧ q.length = lower - 1) := by
  constructor
  · intro h
    rcases Nat.eq_zero_or_pos lower with hzero | hpos
    · refine .inl ⟨hzero, ?_⟩
      exact ((h ⟨v, []⟩).mp ⟨hnil, by omega, Nat.eq_zero_or_pos upper⟩).2.2
    · refine .inr ⟨hpos, ?_⟩
      by_contra hcon
      push Not at hcon
      obtain ⟨hrange, q, hq, hlen⟩ := hcon
      have := ((h q).mp ⟨hq, by omega, by omega⟩).2.1
      omega
  · rintro (⟨rfl, hpos⟩ | ⟨hpos, ⟨hupper, hlt⟩ | hnone⟩) q
    · refine and_congr_right fun _ => ?_
      omega
    · refine and_congr_right fun _ => ?_
      omega
    · have hshort : T q → q.length < lower - 1 := by
        intro hq
        by_contra hge
        exact hnone (hcut q hq (lower - 1) (Nat.not_lt.mp hge))
      refine and_congr_right fun hq => ?_
      have := hshort hq
      omega

/-- A search that never expands is right only if no path with an edge is asked for. -/
theorem emits_start_iff (hnil : T ⟨v, []⟩) (hzero : ∀ q, T q → q.length = 0 → q = ⟨v, []⟩)
    (hcut : ∀ q, T q → ∀ k ≤ q.length, ∃ q', T q' ∧ q'.length = k) (lower upper : Nat) :
    (∀ q : Path, (q = ⟨v, []⟩ ∧ lower ≤ 1) ↔ T q ∧ lower ≤ q.length ∧ q.length < upper) ↔
      lower = 0 ∧ 0 < upper ∧ (upper = 1 ∨ ¬ ∃ q, T q ∧ q.length = 1) ∨
        2 ≤ lower ∧ (upper ≤ lower ∨ ¬ ∃ q, T q ∧ q.length = lower) := by
  have hstart : (⟨v, []⟩ : Path).length = 0 := rfl
  constructor
  · intro h
    rcases Nat.lt_or_ge lower 2 with hlt | hge
    · have hv := (h ⟨v, []⟩).mp ⟨rfl, by omega⟩
      refine .inl ⟨by omega, hv.2.2, ?_⟩
      by_contra hcon
      push Not at hcon
      obtain ⟨hne, q, hq, hlen⟩ := hcon
      have := ((h q).mpr ⟨hq, by omega, by omega⟩).1
      subst this
      cases hlen
    · refine .inr ⟨hge, ?_⟩
      by_contra hcon
      push Not at hcon
      obtain ⟨hlt, q, hq, hlen⟩ := hcon
      have := ((h q).mpr ⟨hq, by omega, by omega⟩).2
      omega
  · rintro (⟨rfl, hpos, hnone⟩ | ⟨hge, hnone⟩) q
    · constructor
      · rintro ⟨rfl, -⟩
        exact ⟨hnil, Nat.zero_le _, hpos⟩
      · rintro ⟨hq, -, hlt⟩
        refine ⟨hzero q hq ?_, by omega⟩
        by_contra hne
        rcases hnone with rfl | hnone
        · omega
        · exact hnone (hcut q hq 1 (by omega))
    · constructor
      · rintro ⟨-, hle⟩
        omega
      · rintro ⟨hq, hle, hlt⟩
        rcases hnone with hempty | hnone
        · omega
        · exact absurd (hcut q hq lower hle) hnone

end Range

/-! ## Families of paths from a vertex -/

/-- A path from `v` along allowed edges that visits no vertex twice. -/
def IsSimple (v : VertexRecord) (q : Path) : Prop :=
  g.IsPathFrom p.labels p.dir v q ∧ q.nodes.Nodup

/-- A path from `v` along allowed edges that walks no edge twice, in whichever direction. -/
def IsTrail (v : VertexRecord) (q : Path) : Prop :=
  g.IsPathFrom p.labels p.dir v q ∧ q.edges.Nodup

/-- A path from `v` along allowed edges that repeats no step, as the search knows steps. -/
def IsArcTrail (v : VertexRecord) (q : Path) : Prop :=
  g.IsPathFrom p.labels p.dir v q ∧ q.arcs.Nodup

variable {p} {v : VertexRecord} {q : Path}

theorem isPathFrom_take (h : g.IsPathFrom p.labels p.dir v q) (k : Nat) :
    g.IsPathFrom p.labels p.dir v ⟨v, q.steps.take k⟩ := by
  refine ⟨rfl, ?_⟩
  have hwalk := h.2
  rw [← take_append_drop k q.steps, isWalk_append] at hwalk
  exact hwalk.1

theorem IsSimple.exists_shorter (h : p.IsSimple v q) (k : Nat) (hk : k ≤ q.length) :
    ∃ q', p.IsSimple v q' ∧ q'.length = k := by
  refine ⟨⟨v, q.steps.take k⟩, ⟨isPathFrom_take h.1 k, ?_⟩, ?_⟩
  · have hnodup := h.2
    rw [nodes, h.1.1] at hnodup
    refine hnodup.sublist ?_
    exact ((take_sublist k q.steps).map _).cons_cons v
  · exact length_take_of_le hk

theorem IsTrail.exists_shorter (h : p.IsTrail v q) (k : Nat) (hk : k ≤ q.length) :
    ∃ q', p.IsTrail v q' ∧ q'.length = k := by
  refine ⟨⟨v, q.steps.take k⟩, ⟨isPathFrom_take h.1 k, ?_⟩, length_take_of_le hk⟩
  have hnodup := h.2
  rw [edges, h.1.1, ← take_append_drop k q.steps, edgesFrom_append] at hnodup
  exact hnodup.of_append_left

theorem IsArcTrail.exists_shorter (h : p.IsArcTrail v q) (k : Nat) (hk : k ≤ q.length) :
    ∃ q', p.IsArcTrail v q' ∧ q'.length = k := by
  refine ⟨⟨v, q.steps.take k⟩, ⟨isPathFrom_take h.1 k, ?_⟩, length_take_of_le hk⟩
  have hnodup := h.2
  rw [arcs, h.1.1, ← take_append_drop k q.steps, arcsFrom_append] at hnodup
  exact hnodup.of_append_left

theorem eq_start_of_length_eq_zero (h : g.IsPathFrom p.labels p.dir v q) (hlen : q.length = 0) :
    q = ⟨v, []⟩ := by
  obtain ⟨start, steps⟩ := q
  obtain rfl : start = v := h.1
  obtain rfl : steps = [] := length_eq_zero_iff.mp hlen
  rfl

theorem isPathFrom_start (p : PathExpandParams g) (v : VertexRecord) :
    g.IsPathFrom p.labels p.dir v ⟨v, []⟩ :=
  ⟨rfl, trivial⟩

/-! ## What is found -/

theorem found_kIn_iff (hdir : p.dir = .kIn) : p.Found skip v q ↔ q = ⟨v, []⟩ ∧ p.hopLower ≤ 1 := by
  constructor
  · rintro ⟨hstart, hwalk, -, hlower, -⟩
    obtain ⟨start, steps⟩ := q
    obtain rfl : start = v := hstart
    cases steps with
    | nil => exact ⟨rfl, hlower⟩
    | cons s w =>
      have hs : s ∈ g.dfsSteps p.labels p.dir start := hwalk.1
      rw [hdir, ReadGraph.dfsSteps_kIn] at hs
      cases hs
  · rintro ⟨rfl, hlower⟩
    exact ⟨rfl, trivial, admits_nil, hlower, Nat.eq_zero_or_pos _⟩

theorem found_iff (hdir : p.dir ≠ .kIn) : p.Found skip v q ↔
      (g.IsPathFrom p.labels p.dir v q ∧ Admits (allowed skip v) q.steps) ∧
        p.hopLower ≤ q.length + 1 ∧ (p.hopUpper = 0 ∨ q.length < p.hopUpper) := by
  rw [Found, g.dfsGraph_of_ne_kIn _ hdir, ReadGraph.IsPathFrom]
  simp only [and_assoc]

theorem found_onPath_iff (hdir : p.dir ≠ .kIn) : p.Found onPath v q ↔ p.IsSimple v q ∧
      p.hopLower ≤ q.length + 1 ∧ (p.hopUpper = 0 ∨ q.length < p.hopUpper) := by
  rw [found_iff hdir, IsSimple]
  refine and_congr_left fun _ => and_congr_right fun hpath => ?_
  rw [admits_onPath_iff, ← hpath.1]

theorem found_arcTaken_iff (hdir : p.dir ≠ .kIn) : p.Found arcTaken v q ↔ p.IsArcTrail v q ∧
      p.hopLower ≤ q.length + 1 ∧ (p.hopUpper = 0 ∨ q.length < p.hopUpper) := by
  rw [found_iff hdir, IsArcTrail]
  refine and_congr_left fun _ => and_congr_right fun hpath => ?_
  rw [admits_arcTaken_iff, ← hpath.1]
  rfl

/-! ## Simple paths -/

variable (p)

def IsSimpleRow (col : VertexColumn Nat) (row : Nat × Path) : Prop :=
  ∃ v, col.starts[row.1]? = some v ∧
    (p.IsSimple v row.2 ∧ p.hopLower ≤ row.2.length ∧ row.2.length < p.hopUpper)

def HasSimple (v : VertexRecord) (k : Nat) : Prop :=
  ∃ q, p.IsSimple v q ∧ q.length = k

/-- The ranges that the simple-path expansion serves from `v`. -/
def ServesSimple (v : VertexRecord) : Prop :=
  if p.dir = .kIn then
    p.hopLower = 0 ∧ 0 < p.hopUpper ∧ (p.hopUpper = 1 ∨ ¬ p.HasSimple v 1) ∨
      2 ≤ p.hopLower ∧ (p.hopUpper ≤ p.hopLower ∨ ¬ p.HasSimple v p.hopLower)
  else
    p.hopLower = 0 ∧ 0 < p.hopUpper ∨
      0 < p.hopLower ∧ (0 < p.hopUpper ∧ p.hopUpper < p.hopLower ∨
        ¬ p.HasSimple v (p.hopLower - 1))

theorem simplePaths_iff_servesSimple (col : VertexColumn Nat) :
    (∃ rows, Returns (p.pathExpandPSimple col) rows ∧ ExactlyOnce rows (p.IsSimpleRow col)) ↔
      ∀ v ∈ col.starts, p.ServesSimple v := by
  refine (p.exists_searchPaths_iff p.levels_onPath_eq_nil fun v q =>
    p.IsSimple v q ∧ p.hopLower ≤ q.length ∧ q.length < p.hopUpper).trans ?_
  refine forall₂_congr fun v _ => ?_
  have hnil : p.IsSimple v ⟨v, []⟩ := ⟨p.isPathFrom_start v, by simp [nodes]⟩
  have hcut := fun q (hq : p.IsSimple v q) => hq.exists_shorter
  unfold ServesSimple HasSimple
  split_ifs with hdir
  · simp only [found_kIn_iff hdir]
    exact emits_start_iff hnil (fun q hq => eq_start_of_length_eq_zero hq.1) hcut _ _
  · simp only [found_onPath_iff hdir]
    exact emits_in_range_iff hnil hcut _ _

/-! ## Trails -/

def IsTrailRow (col : VertexColumn Nat) (row : Nat × Path) : Prop :=
  ∃ v, col.starts[row.1]? = some v ∧
    (p.IsTrail v row.2 ∧ p.hopLower ≤ row.2.length ∧ row.2.length < p.hopUpper)

def HasTrail (v : VertexRecord) (k : Nat) : Prop :=
  ∃ q, p.IsTrail v q ∧ q.length = k

def HasArcTrail (v : VertexRecord) (k : Nat) : Prop :=
  ∃ q, p.IsArcTrail v q ∧ q.length = k

def WalksBack (q : Path) : Prop :=
  q.arcs.Nodup ∧ ¬ q.edges.Nodup

/-- The path walks two edges of one label between the same two vertices, in the same way. -/
def TakesParallel (q : Path) : Prop :=
  q.edges.Nodup ∧ ¬ q.arcs.Nodup

/-- The ranges that the trail expansion serves from `v`. -/
def ServesTrails (v : VertexRecord) : Prop :=
  if p.dir = .kIn then
    p.hopLower = 0 ∧ 0 < p.hopUpper ∧ (p.hopUpper = 1 ∨ ¬ p.HasTrail v 1) ∨
      2 ≤ p.hopLower ∧ (p.hopUpper ≤ p.hopLower ∨ ¬ p.HasTrail v p.hopLower)
  else
    p.hopLower = 0 ∧ 0 < p.hopUpper ∧
        (∀ q, g.IsPathFrom p.labels p.dir v q → q.length < p.hopUpper →
          ¬ WalksBack q ∧ ¬ TakesParallel q) ∨
      0 < p.hopLower ∧ (0 < p.hopUpper ∧ p.hopUpper < p.hopLower ∨
        ¬ p.HasArcTrail v (p.hopLower - 1) ∧
          (p.hopUpper ≤ p.hopLower ∨ ¬ p.HasTrail v p.hopLower))

variable {p}

theorem arcs_nodup_iff_edges_nodup :
    (¬ WalksBack q ∧ ¬ TakesParallel q) ↔ (q.arcs.Nodup ↔ q.edges.Nodup) := by
  unfold WalksBack TakesParallel
  tauto

/-- The search finds the trails in range exactly if the range is served. -/
theorem found_arcTaken_iff_trail (hdir : p.dir ≠ .kIn) : (∀ q, p.Found arcTaken v q ↔
        p.IsTrail v q ∧ p.hopLower ≤ q.length ∧ q.length < p.hopUpper) ↔ p.ServesTrails v := by
  have hnil : p.IsArcTrail v ⟨v, []⟩ := ⟨p.isPathFrom_start v, nodup_nil⟩
  unfold ServesTrails
  rw [if_neg hdir]
  simp only [found_arcTaken_iff hdir]
  constructor
  · intro h
    rcases Nat.eq_zero_or_pos p.hopLower with hzero | hpos
    · have hupper := ((h ⟨v, []⟩).mp ⟨hnil, by omega, Nat.eq_zero_or_pos _⟩).2.2
      refine .inl ⟨hzero, by omega, fun q hq hlt => arcs_nodup_iff_edges_nodup.mpr ?_⟩
      constructor
      · intro harcs
        exact ((h q).mp ⟨⟨hq, harcs⟩, by omega, .inr hlt⟩).1.2
      · intro hedges
        exact ((h q).mpr ⟨⟨hq, hedges⟩, by omega, hlt⟩).1.2
    · refine .inr ⟨hpos, ?_⟩
      by_contra hcon
      push Not at hcon
      obtain ⟨hrange, hcon⟩ := hcon
      -- a path one edge short of the range would be emitted
      have hnone : ¬ p.HasArcTrail v (p.hopLower - 1) := by
        rintro ⟨q, hq, hlen⟩
        have := ((h q).mp ⟨hq, by omega, by omega⟩).2.1
        omega
      obtain ⟨hlt, q, hq, hlen⟩ := hcon hnone
      have hfound := ((h q).mpr ⟨hq, by omega, by omega⟩).1
      exact hnone (hfound.exists_shorter _ (by omega))
  · rintro (⟨hzero, hupper, hagree⟩ | ⟨hpos, ⟨hupper, hlt⟩ | ⟨hnone, hempty⟩⟩) q
    · constructor
      · rintro ⟨⟨hq, harcs⟩, -, hlen⟩
        have hlt : q.length < p.hopUpper := by omega
        exact ⟨⟨hq, (arcs_nodup_iff_edges_nodup.mp (hagree q hq hlt)).mp harcs⟩, by omega, hlt⟩
      · rintro ⟨⟨hq, hedges⟩, -, hlt⟩
        exact ⟨⟨hq, (arcs_nodup_iff_edges_nodup.mp (hagree q hq hlt)).mpr hedges⟩, by omega,
          .inr hlt⟩
    · constructor
      · rintro ⟨-, hle, hlen⟩
        omega
      · rintro ⟨-, hle, hlen⟩
        omega
    · constructor
      · rintro ⟨hq, hle, -⟩
        exact absurd (hq.exists_shorter _ (by omega)) hnone
      · rintro ⟨hq, hle, hlt⟩
        rcases hempty with hempty | hempty
        · omega
        · exact absurd (hq.exists_shorter _ hle) hempty

variable (p)

theorem trails_iff_servesTrails (col : VertexColumn Nat) :
    (∃ rows, Returns (p.pathExpandPTrail col) rows ∧ ExactlyOnce rows (p.IsTrailRow col)) ↔
      ∀ v ∈ col.starts, p.ServesTrails v := by
  refine (p.exists_searchPaths_iff p.levels_arcTaken_eq_nil fun v q =>
    p.IsTrail v q ∧ p.hopLower ≤ q.length ∧ q.length < p.hopUpper).trans ?_
  refine forall₂_congr fun v _ => ?_
  by_cases hdir : p.dir = .kIn
  · have hnil : p.IsTrail v ⟨v, []⟩ := ⟨p.isPathFrom_start v, nodup_nil⟩
    unfold ServesTrails HasTrail
    simp only [if_pos hdir, found_kIn_iff hdir]
    exact emits_start_iff hnil (fun q hq => eq_start_of_length_eq_zero hq.1)
      (fun q hq => hq.exists_shorter) _ _
  · exact found_arcTaken_iff_trail hdir

end PathExpandParams

/-! ## One edge -/

def oneEdge : ReadGraph :=
  ReadGraph.ofEdges [⟨0, 0, 0⟩] [⟨⟨0, 0, 0⟩, 0, 1, 0⟩] (by simp) (by simp)

def oneEdgeParams (dir : Direction) (lower upper : Nat) : PathExpandParams oneEdge :=
  ⟨[⟨0, 0, 0⟩], dir, lower, upper, nodup_label_zero, by simp [oneEdge, ReadGraph.ofEdges]⟩

/-- Asked for simple paths of one edge, the search also returns the path without edges. -/
theorem not_simplePaths_oneEdge :
    ¬ ∃ rows, Returns ((oneEdgeParams .kOut 1 2).pathExpandPSimple (.single 0 [0])) rows ∧
      ExactlyOnce rows ((oneEdgeParams .kOut 1 2).IsSimpleRow (.single 0 [0])) := by
  rintro ⟨rows, hreturns, hexact⟩
  have hrun : (oneEdgeParams .kOut 1 2).pathExpandPSimple (.single 0 [0]) 3 =
      some [(0, ⟨⟨0, 0⟩, []⟩), (0, ⟨⟨0, 0⟩, [⟨0, .kOut, 0, ⟨0, 1⟩⟩]⟩)] := by decide
  have hrows := Returns.unique (fun _ _ _ hle h => PathExpandParams.searchPaths_mono _ hle h)
    hreturns ⟨3, hrun⟩
  subst hrows
  obtain ⟨v, -, -, hlower, -⟩ := (hexact.2 (0, ⟨⟨0, 0⟩, []⟩)).mp (by simp)
  cases hlower

/-- Asked for trails of at most two edges in both directions, the search also walks the edge
back. -/
theorem not_trails_oneEdge :
    ¬ ∃ rows, Returns ((oneEdgeParams .kBoth 0 3).pathExpandPTrail (.single 0 [0])) rows ∧
      ExactlyOnce rows ((oneEdgeParams .kBoth 0 3).IsTrailRow (.single 0 [0])) := by
  rintro ⟨rows, hreturns, hexact⟩
  have hrun : (oneEdgeParams .kBoth 0 3).pathExpandPTrail (.single 0 [0]) 4 =
      some [(0, ⟨⟨0, 0⟩, []⟩), (0, ⟨⟨0, 0⟩, [⟨0, .kOut, 0, ⟨0, 1⟩⟩]⟩),
        (0, ⟨⟨0, 0⟩, [⟨0, .kOut, 0, ⟨0, 1⟩⟩, ⟨0, .kIn, 0, ⟨0, 0⟩⟩]⟩)] := by decide
  have hrows := Returns.unique (fun _ _ _ hle h => PathExpandParams.searchPaths_mono _ hle h)
    hreturns ⟨4, hrun⟩
  subst hrows
  obtain ⟨v, -, ⟨-, hedges⟩, -⟩ :=
    (hexact.2 (0, ⟨⟨0, 0⟩, [⟨0, .kOut, 0, ⟨0, 1⟩⟩, ⟨0, .kIn, 0, ⟨0, 0⟩⟩]⟩)).mp (by simp)
  revert hedges
  decide

end Neug.Execution
