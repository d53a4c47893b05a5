import Neug.Execution.WalkExpansionContract

/-! # Depth-first path expansion

Simple paths and trails are searched by the same recursive function; they differ in the rule
by which a step is skipped.  The search ends on every graph, and what it emits is described
by that rule and by two comparisons of the number of vertices with the hop range.
-/

namespace Neug.Execution

open Library List
open Storage (EdgeLabel)

namespace ReadGraph

variable (g : ReadGraph) (labels : List EdgeLabel) (dir : Direction)

/-- The steps that the recursive function tries.  Its branch for incoming edges stands inside
the one for outgoing edges. -/
def dfsSteps (v : VertexRecord) : List PathStep :=
  if dir = .kOut ∨ dir = .kBoth then
    g.outSteps labels v ++ if dir = .kIn ∨ dir = .kBoth then g.inSteps labels v else []
  else []

variable {dir} in
theorem dfsSteps_of_ne_kIn (h : dir ≠ .kIn) (v : VertexRecord) :
    g.dfsSteps labels dir v = g.stepsFrom labels dir v := by
  cases dir with
  | kOut => simp [dfsSteps, stepsFrom]
  | kIn => exact absurd rfl h
  | kBoth => simp [dfsSteps, stepsFrom]

@[simp] theorem dfsSteps_kIn (v : VertexRecord) : g.dfsSteps labels .kIn v = [] := by
  simp [dfsSteps]

theorem nodup_dfsSteps {labels : List EdgeLabel} (hlabels : labels.Nodup) (v : VertexRecord) :
    (g.dfsSteps labels dir v).Nodup := by
  by_cases h : dir = .kIn
  · subst h
    simp
  · rw [g.dfsSteps_of_ne_kIn labels h]
    exact nodup_stepsFrom hlabels

def dfsGraph : StepGraph VertexRecord PathStep where
  next := g.dfsSteps labels dir
  target := (·.node)

variable {dir} in
theorem dfsGraph_of_ne_kIn (h : dir ≠ .kIn) : g.dfsGraph labels dir = g.stepGraph labels dir := by
  unfold dfsGraph stepGraph
  congr 1
  funext v
  exact g.dfsSteps_of_ne_kIn labels h v

end ReadGraph

namespace PathExpandParams

variable {g : ReadGraph} (p : PathExpandParams g) (skip : Path → PathStep → Bool)

def dfsChildren (q : Path) : List Path :=
  if q.nodes.length = p.hopUpper then []
  else ((g.dfsSteps p.labels p.dir q.endNode).filter fun s => !skip q s).map q.expand

def dfsEmit (q : Path) : List Path :=
  if p.hopLower ≤ q.nodes.length then [q] else []

def dfs (fuel : Nat) (v : VertexRecord) : Option (List Path) :=
  preorder (p.dfsChildren skip) p.dfsEmit fuel ⟨v, []⟩

def searchPaths (col : VertexColumn Nat) (fuel : Nat) : Option (List (Nat × Path)) :=
  collect (fun row => (p.dfs skip fuel row.1).map (List.map (Prod.mk row.2))) col.starts.zipIdx

/-- The search of simple paths skips vertices of the path. -/
def onPath (q : Path) (s : PathStep) : Bool :=
  q.nodes.contains s.node

/-- The search of trails skips a step if the path already goes from this vertex to the same
vertex over an edge of the same label. -/
def arcTaken (q : Path) (s : PathStep) : Bool :=
  (q.nodes.zip q.steps).any fun taken =>
    taken.1 = q.endNode && taken.2.node = s.node && taken.2.edgeLabel = s.edgeLabel

def pathExpandPSimple (col : VertexColumn Nat) (fuel : Nat) : Option (List (Nat × Path)) :=
  p.searchPaths onPath col fuel

def pathExpandPTrail (col : VertexColumn Nat) (fuel : Nat) : Option (List (Nat × Path)) :=
  p.searchPaths arcTaken col fuel

/-! ## What the search finds -/

/-- The rule as a condition on extensions of a walk from `v`. -/
def allowed (v : VertexRecord) (w : List PathStep) (s : PathStep) : Bool :=
  !skip ⟨v, w⟩ s

def Found (v : VertexRecord) (q : Path) : Prop :=
  q.start = v ∧ (g.dfsGraph p.labels p.dir).IsWalk v q.steps ∧
    StepGraph.Admits (allowed skip v) q.steps ∧
    p.hopLower ≤ q.length + 1 ∧ (p.hopUpper = 0 ∨ q.length < p.hopUpper)

variable {skip}

@[simp] theorem length_nodes (q : Path) : q.nodes.length = q.length + 1 := by
  simp [Path.nodes, Path.length]

theorem dfsChildren_mk (v : VertexRecord) (w : List PathStep) : p.dfsChildren skip ⟨v, w⟩ =
      if w.length + 1 = p.hopUpper then []
      else ((g.dfsGraph p.labels p.dir).extensions (allowed skip v) v w).map (Path.mk v) := by
  have hend : (⟨v, w⟩ : Path).endNode = (g.dfsGraph p.labels p.dir).finish v w :=
    Path.endNode_eq_finish g p.labels p.dir ⟨v, w⟩
  simp only [dfsChildren, length_nodes, Path.length, hend, StepGraph.extensions, map_map]
  rfl

/-- The calls at depth `k`: the allowed walks of `k` steps, cut at the upper bound. -/
theorem levels_dfsChildren (v : VertexRecord) (k : Nat) : levels (p.dfsChildren skip) [⟨v, []⟩] k =
      if p.hopUpper = 0 ∨ k < p.hopUpper then
        (levels ((g.dfsGraph p.labels p.dir).extensions (allowed skip v) v) [[]] k).map (Path.mk v)
      else [] := by
  induction k with
  | zero =>
    rw [if_pos (Nat.eq_zero_or_pos _)]
    rfl
  | succ k ih =>
    rw [levels_succ, ih]
    by_cases hk : p.hopUpper = 0 ∨ k < p.hopUpper
    swap
    · rw [if_neg hk, if_neg (by omega), flatMap_nil]
    rw [if_pos hk, flatMap_map]
    -- all calls at depth `k` have a path of `k + 1` vertices
    have hcall : ∀ w ∈ levels ((g.dfsGraph p.labels p.dir).extensions (allowed skip v) v) [[]] k,
        p.dfsChildren skip ⟨v, w⟩ = if k + 1 = p.hopUpper then []
          else ((g.dfsGraph p.labels p.dir).extensions (allowed skip v) v w).map (Path.mk v) := by
      intro w hw
      rw [dfsChildren_mk, ((g.dfsGraph p.labels p.dir).mem_levels_extensions.mp hw).2.2]
    rw [flatMap_congr hcall]
    by_cases hlast : k + 1 = p.hopUpper
    · simp only [if_pos hlast]
      rw [if_neg (by omega)]
      simp
    · simp only [if_neg hlast]
      rw [if_pos (by omega), levels_succ, map_flatMap]

theorem flatMap_dfsEmit_levels (v : VertexRecord) (k : Nat) :
    (levels (p.dfsChildren skip) [⟨v, []⟩] k).flatMap p.dfsEmit =
      if p.hopLower ≤ k + 1 ∧ (p.hopUpper = 0 ∨ k < p.hopUpper) then
        (levels ((g.dfsGraph p.labels p.dir).extensions (allowed skip v) v) [[]] k).map (Path.mk v)
      else [] := by
  rw [levels_dfsChildren]
  by_cases hk : p.hopUpper = 0 ∨ k < p.hopUpper
  swap
  · rw [if_neg hk, if_neg fun h => hk h.2, flatMap_nil]
  rw [if_pos hk, flatMap_map]
  have hemit : ∀ w ∈ levels ((g.dfsGraph p.labels p.dir).extensions (allowed skip v) v) [[]] k,
      p.dfsEmit ⟨v, w⟩ = if p.hopLower ≤ k + 1 then [⟨v, w⟩] else [] := by
    intro w hw
    have hlen := ((g.dfsGraph p.labels p.dir).mem_levels_extensions.mp hw).2.2
    simp only [dfsEmit, length_nodes, Path.length, hlen]
  rw [flatMap_congr hemit]
  by_cases hlower : p.hopLower ≤ k + 1
  · simp only [if_pos hlower]
    rw [if_pos ⟨hlower, hk⟩, map_eq_flatMap]
  · simp only [if_neg hlower]
    rw [if_neg fun h => hlower h.1]
    simp

variable {n : Nat}

/-- What visiting the calls of the first `n` depths emits, if there are none below. -/
theorem exactlyOnce_visitLevels_dfs {v : VertexRecord}
    (hbound : levels ((g.dfsGraph p.labels p.dir).extensions (allowed skip v) v) [[]] n = []) :
    ExactlyOnce (visitLevels (p.dfsChildren skip) p.dfsEmit [⟨v, []⟩] n) (p.Found skip v) := by
  have hnodup := (g.dfsGraph p.labels p.dir).nodup_levels_extensions (allowed skip v) v
    fun x => g.nodup_dfsSteps p.dir p.nodup_labels x
  -- what is emitted at depth `k` has `k` steps
  have hlength : ∀ k q, (q ∈ if p.hopLower ≤ k + 1 ∧ (p.hopUpper = 0 ∨ k < p.hopUpper) then
      (levels ((g.dfsGraph p.labels p.dir).extensions (allowed skip v) v) [[]] k).map (Path.mk v)
      else []) → q.length = k := by
    intro k q hq
    split_ifs at hq
    · obtain ⟨w, hw, rfl⟩ := mem_map.mp hq
      exact ((g.dfsGraph p.labels p.dir).mem_levels_extensions.mp hw).2.2
    · cases hq
  unfold visitLevels
  simp only [flatMap_dfsEmit_levels]
  refine ⟨?_, ?_⟩
  · rw [nodup_flatMap]
    refine ⟨?_, ?_⟩
    · intro k _
      split_ifs
      · exact (hnodup k).map fun w u hwu => (Path.mk.inj hwu).2
      · exact nodup_nil
    · refine Pairwise.imp ?_ nodup_range
      intro i j hne q hi hj
      exact hne ((hlength i q hi).symm.trans (hlength j q hj))
  · rintro ⟨start, steps⟩
    simp only [mem_flatMap, mem_range]
    constructor
    · rintro ⟨k, -, hq⟩
      split_ifs at hq with hk
      · obtain ⟨w, hw, heq⟩ := mem_map.mp hq
        cases heq
        obtain ⟨hwalk, hadm, rfl⟩ := (g.dfsGraph p.labels p.dir).mem_levels_extensions.mp hw
        exact ⟨rfl, hwalk, hadm, hk⟩
      · cases hq
    · rintro ⟨hstart, hwalk, hadm, hk⟩
      have hmem := (g.dfsGraph p.labels p.dir).mem_levels_extensions.mpr ⟨hwalk, hadm, rfl⟩
      refine ⟨steps.length, ?_, ?_⟩
      · by_contra hge
        rw [levels_eq_nil_of_le hbound (Nat.not_lt.mp hge)] at hmem
        cases hmem
      · obtain rfl : start = v := hstart
        rw [Path.length] at hk
        rw [if_pos hk]
        exact mem_map.mpr ⟨steps, hmem, rfl⟩

theorem dfs_mono {m : Nat} {v : VertexRecord} {found : List Path} (hle : n ≤ m)
    (h : p.dfs skip n v = some found) : p.dfs skip m v = some found :=
  preorder_mono hle h

theorem searchPaths_mono {col : VertexColumn Nat} {m : Nat} {rows : List (Nat × Path)}
    (hle : n ≤ m) (h : p.searchPaths skip col n = some rows) :
    p.searchPaths skip col m = some rows := by
  exact collect_rows_mono (p.dfs skip) (fun _ _ _ _ hle hl => p.dfs_mono hle hl) hle h

/-- When allowed walks are bounded, the search returns, and its rows are right exactly when
what it finds from each start row is. -/
theorem exists_searchPaths_iff {col : VertexColumn Nat}
    (hbound : ∀ v, levels ((g.dfsGraph p.labels p.dir).extensions (allowed skip v) v) [[]] n = [])
    (P : VertexRecord → Path → Prop) : (∃ rows, Returns (p.searchPaths skip col) rows ∧
        ExactlyOnce rows fun row => ∃ v, col.starts[row.1]? = some v ∧ P v row.2) ↔
      ∀ v ∈ col.starts, ∀ q, p.Found skip v q ↔ P v q := by
  have hempty : ∀ v, levels (p.dfsChildren skip) [⟨v, []⟩] n = [] := by
    intro v
    rw [levels_dfsChildren, hbound v, map_nil, ite_self]
  choose found hreturn hperm using fun v => preorder_perm_visitLevels p.dfsEmit (hempty v)
  have hfound : ∀ v, ExactlyOnce (found v) (p.Found skip v) := fun v =>
    (p.exactlyOnce_visitLevels_dfs (hbound v)).perm (hperm v).symm
  have hreturns : ∀ rows, Returns (p.searchPaths skip col) rows ↔ rows = tagged col.starts found :=
    fun rows => returns_collect_iff (p.dfs skip) (fun _ _ _ _ hle hl => p.dfs_mono hle hl)
      fun v _ => hreturn v
  simp only [hreturns, exists_eq_left]
  constructor
  · intro hexact v hv q
    have hv' := exactlyOnce_tagged_iff.mp hexact v hv
    exact ((hfound v).2 q).symm.trans (hv'.2 q)
  · intro h
    exact exactlyOnce_tagged_iff.mpr fun v hv => (hfound v).congr (h v hv)

end PathExpandParams

end Neug.Execution
