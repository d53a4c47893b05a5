import Neug.Execution.WalkExpansion

/-! # The three expansions return the walks

For each start row, the walks whose edge count is in range are listed once; each of the three
expansions returns this list, or the end vertices of this list, in some order.
-/

namespace Neug.Execution

open Library MLVertexColumnBuilderOpt ReadGraph List
open Storage (EdgeLabel)

/-- A path that starts at `v` and walks allowed edges of the graph. -/
def ReadGraph.IsPathFrom (g : ReadGraph) (labels : List EdgeLabel) (dir : Direction)
    (v : VertexRecord) (p : Path) : Prop :=
  p.start = v ∧ (g.stepGraph labels dir).IsWalk v p.steps

theorem Path.endNode_eq_finish (g : ReadGraph) (labels : List EdgeLabel) (dir : Direction)
    (p : Path) : p.endNode = (g.stepGraph labels dir).finish p.start p.steps := by
  obtain ⟨v, steps⟩ := p
  cases steps using reverseRecOn with
  | nil => rfl
  | append_singleton steps s => simp [Path.endNode, stepGraph]

namespace PathExpandParams

variable {g : ReadGraph} (p : PathExpandParams g)

def walksFrom (v : VertexRecord) : List Path :=
  levelsBetween (Path.expandAll (g.stepsFrom p.labels p.dir)) [⟨v, []⟩] p.hopLower p.hopUpper

variable (col : VertexColumn Nat)

/-- What a row of the result says: from which input row it comes and which walk it is. -/
def IsWalkRow (row : Nat × Path) : Prop :=
  ∃ v, col.starts[row.1]? = some v ∧
    g.IsPathFrom p.labels p.dir v row.2 ∧ p.hopLower ≤ row.2.length ∧ row.2.length < p.hopUpper

theorem walksFrom_eq (v : VertexRecord) :
    p.walksFrom v =
      (levelsBetween ((g.stepGraph p.labels p.dir).extensions (fun _ _ => true) v) [[]]
      p.hopLower p.hopUpper).map (Path.mk v) := by
  refine (map_levelsBetween (Path.mk v) ?_ [[]] p.hopLower p.hopUpper).symm
  intro w
  have hend := Path.endNode_eq_finish g p.labels p.dir ⟨v, w⟩
  simp only [StepGraph.extensions, map_map, Path.expandAll, hend, filter_true]
  rfl

theorem exactlyOnce_walksFrom (v : VertexRecord) : ExactlyOnce (p.walksFrom v) fun q =>
      g.IsPathFrom p.labels p.dir v q ∧ p.hopLower ≤ q.length ∧ q.length < p.hopUpper := by
  rw [walksFrom_eq]
  have h := (g.stepGraph p.labels p.dir).exactlyOnce_levelsBetween_extensions (fun _ _ => true) v
    (fun _ => nodup_stepsFrom p.nodup_labels) p.hopLower p.hopUpper
  refine (h.map fun w u hwu => (Path.mk.inj hwu).2).congr ?_
  rintro ⟨start, steps⟩
  constructor
  · rintro ⟨w, ⟨hw, -, hlen⟩, hq⟩
    cases hq
    exact ⟨⟨rfl, hw⟩, hlen⟩
  · rintro ⟨⟨rfl, hw⟩, hlen⟩
    exact ⟨steps, ⟨hw, fun _ _ _ => rfl, hlen⟩, rfl⟩

def walkRows : List (Nat × Path) :=
  tagged col.starts p.walksFrom

theorem exactlyOnce_walkRows : ExactlyOnce (p.walkRows col) (p.IsWalkRow col) :=
  exactlyOnce_tagged_iff.mpr fun v _ => p.exactlyOnce_walksFrom v

/-! ## Paths -/

theorem pathExpandPArbitrary_perm : (p.pathExpandPArbitrary col).Perm (p.walkRows col) := by
  unfold pathExpandPArbitrary walkRows
  rw [pathRounds_eq]
  refine (levelsBetween_carry_perm _ _ _ _).trans ?_
  rw [tagged_map]
  exact Perm.refl _

/-! ## End vertices -/

def endRow (row : Nat × Path) : Nat × VertexRecord :=
  (row.1, row.2.endNode)

theorem map_endNode_walksFrom (v : VertexRecord) : (p.walksFrom v).map Path.endNode =
      levelsBetween (g.neighbors p.labels p.dir) [v] p.hopLower p.hopUpper := by
  refine map_levelsBetween Path.endNode ?_ [⟨v, []⟩] p.hopLower p.hopUpper
  intro q
  rw [Path.expandAll, map_map, ← g.map_node_stepsFrom]
  refine map_congr_left fun s _ => ?_
  simp [Path.endNode, Path.expand]

theorem map_endRow_walkRows : (p.walkRows col).map endRow = tagged col.starts fun v =>
      levelsBetween (g.neighbors p.labels p.dir) [v] p.hopLower p.hopUpper := by
  simp only [← map_endNode_walksFrom]
  exact map_tagged Path.endNode _ _

def pushes : List (VertexRecord × Nat) :=
  levelsBetween (carry (g.neighbors p.labels p.dir)) col.starts.zipIdx p.hopLower p.hopUpper

theorem map_swap_pushes_perm :
    ((p.pushes col).map Prod.swap).Perm ((p.walkRows col).map endRow) := by
  rw [map_endRow_walkRows]
  exact levelsBetween_carry_perm _ _ _ _

def maxLabel : Nat :=
  p.builderLabels.foldr max 0

theorem label_le_maxLabel_of_mem_neighbors {v n : VertexRecord}
    (h : n ∈ g.neighbors p.labels p.dir v) : n.label ≤ p.maxLabel := by
  refine le_max_of_le' 0 ?_ le_rfl
  simp only [builderLabels, mem_flatMap]
  have hout : n ∈ g.outNeighbors p.labels v → ∃ t ∈ p.labels, n.label = t.dst := by
    simp only [outNeighbors, outLabelsMap, mem_flatMap, mem_filter, mem_map]
    rintro ⟨t, ⟨ht, -⟩, m, -, rfl⟩
    exact ⟨t, ht, rfl⟩
  have hin : n ∈ g.inNeighbors p.labels v → ∃ t ∈ p.labels, n.label = t.src := by
    simp only [inNeighbors, inLabelsMap, mem_flatMap, mem_filter, mem_map]
    rintro ⟨t, ⟨ht, -⟩, m, -, rfl⟩
    exact ⟨t, ht, rfl⟩
  cases hdir : p.dir with
  | kOut =>
    rw [hdir] at h
    obtain ⟨t, ht, heq⟩ := hout h
    refine ⟨t, ht, ?_⟩
    split_ifs <;> simp [heq]
  | kIn =>
    rw [hdir] at h
    obtain ⟨t, ht, heq⟩ := hin h
    refine ⟨t, ht, ?_⟩
    split_ifs <;> simp [heq]
  | kBoth =>
    rw [hdir] at h
    rcases mem_append.mp h with h | h
    · obtain ⟨t, ht, heq⟩ := hout h
      exact ⟨t, ht, by simp [heq]⟩
    · obtain ⟨t, ht, heq⟩ := hin h
      exact ⟨t, ht, by simp [heq]⟩

/-- Start rows are returned themselves only when the range starts at zero; then their labels
must fit the builder. -/
def StartLabelsFit : Prop :=
  p.hopLower = 0 → 0 < p.hopUpper → ∀ v ∈ col.starts, v.label ≤ p.maxLabel

variable {col : VertexColumn Nat} {vertices : List Nat} {t : EdgeLabel}

theorem startLabelsFit_iff : p.StartLabelsFit col ↔ ∀ v ∈ (p.pushes col).map (·.1),
    v.label < (new p.builderLabels).labelsBitmap.length := by
  rw [length_labelsBitmap_new]
  constructor
  · intro hfit v hv
    obtain ⟨row, hrow, rfl⟩ := mem_map.mp hv
    refine Nat.lt_succ_of_le ?_
    simp only [pushes, levelsBetween, mem_flatMap, mem_range'_1] at hrow
    obtain ⟨k, ⟨hge, hlt⟩, hk⟩ := hrow
    cases k with
    | zero =>
      refine hfit (by omega) (by omega) row.1 ?_
      exact mem_of_getElem? (mem_zipIdx_iff_getElem?.mp hk)
    | succ k =>
      simp only [levels_succ, carry, mem_flatMap, mem_map] at hk
      obtain ⟨parent, -, n, hn, rfl⟩ := hk
      exact p.label_le_maxLabel_of_mem_neighbors hn
  · intro h hlower hupper v hv
    -- the start row itself is among the pushes
    obtain ⟨i, hi⟩ := mem_iff_getElem?.mp hv
    refine Nat.le_of_lt_succ (h v (mem_map.mpr ⟨(v, i), ?_, rfl⟩))
    simp only [pushes, levelsBetween, mem_flatMap, mem_range'_1]
    exact ⟨0, ⟨by omega, by omega⟩, mem_zipIdx_iff_getElem?.mpr hi⟩

theorem edgeExpandVGeneral_eq_ok_iff {rows : List (Nat × VertexRecord)} :
    p.edgeExpandVGeneral col = .ok rows ↔
      p.StartLabelsFit col ∧ rows = (p.pushes col).map Prod.swap := by
  have hpushes := vertices_foldlM_pushBackOpt ((p.pushes col).map (·.1)) (new p.builderLabels)
  have hmap : p.edgeExpandVGeneral col =
      (((p.pushes col).map (·.1)).foldlM pushBackOpt (new p.builderLabels)).map
        fun b => ((p.pushes col).map (·.2)).zip b.vertices := by
    unfold edgeExpandVGeneral pushes
    rw [vertexRounds_eq]
  rw [hmap, startLabelsFit_iff]
  cases hbuilt : foldlM pushBackOpt (new p.builderLabels) ((p.pushes col).map (·.1)) with
  | error e =>
    rw [hbuilt] at hpushes
    split_ifs at hpushes with hfit
    · cases hpushes
    · exact iff_of_false nofun fun h => hfit h.1
  | ok b =>
    rw [hbuilt] at hpushes
    split_ifs at hpushes with hfit
    · rw [Except.map, Except.ok.inj hpushes, vertices_new, nil_append, zip_map']
      rw [Except.ok.injEq, and_iff_right hfit]
      exact eq_comm
    · cases hpushes

/-! ## The fast path -/

section

variable (h : p.fastPath col = some (t, vertices))
include h

theorem fastPath_eq_some : p.labels = [t] ∧ t.src = t.dst ∧ col = .single t.src vertices := by
  unfold fastPath at h
  split at h
  next label vs =>
    split at h
    next u hlabels =>
      split at h
      next hcond =>
        cases h
        exact ⟨hlabels, hcond.1, by rw [hcond.2]⟩
      next => cases h
    next => cases h
  next => cases h

/-- The neighbours that the fast path lists, in its order. -/
def fastNeighbors (t : EdgeLabel) (v : Nat) : List Nat :=
  let ins := (g.incoming ⟨t.dst, t.src, t.edge⟩ v).map (·.neighbor)
  let outs := (g.outgoing ⟨t.src, t.dst, t.edge⟩ v).map (·.neighbor)
  match p.dir with
  | .kBoth => ins ++ outs
  | .kIn => ins
  | .kOut => outs

omit h in
theorem pathExpandVertexWithoutPredicateImpl_eq (t : EdgeLabel) (vertices : List Nat) (fuel : Nat) :
    pathExpandVertexWithoutPredicateImpl g t vertices p.dir p.hopLower p.hopUpper fuel =
      iterativeExpandVertex (p.fastNeighbors t) vertices p.hopLower p.hopUpper fuel := by
  unfold pathExpandVertexWithoutPredicateImpl fastNeighbors
  cases p.dir <;> rfl

omit h in
theorem map_fastNeighbors_perm (hlabels : p.labels = [t]) (hloop : t.src = t.dst) (v : Nat) :
    ((p.fastNeighbors t v).map (VertexRecord.mk t.src)).Perm
      (g.neighbors p.labels p.dir ⟨t.src, v⟩) := by
  obtain ⟨src, dst, edge⟩ := t
  obtain rfl : src = dst := hloop
  have hout : g.outNeighbors p.labels ⟨src, v⟩ =
      ((g.outgoing ⟨src, src, edge⟩ v).map (·.neighbor)).map (VertexRecord.mk src) := by
    simp [outNeighbors, outLabelsMap, hlabels, Function.comp_def]
  have hin : g.inNeighbors p.labels ⟨src, v⟩ =
      ((g.incoming ⟨src, src, edge⟩ v).map (·.neighbor)).map (VertexRecord.mk src) := by
    simp [inNeighbors, inLabelsMap, hlabels, Function.comp_def]
  unfold fastNeighbors neighbors
  cases p.dir with
  | kOut => rw [hout]
  | kIn => rw [hin]
  | kBoth =>
    -- the fast path lists incoming edges first
    rw [map_append, hout, hin]
    exact perm_append_comm

/-- The rows of the fast path, given that its check does not fail. -/
theorem edgeExpandV_returns_of_fastPath (hcheck : p.hopUpper = 1 → p.hopLower ≤ 1) :
    ∃ rows, Returns (p.edgeExpandV col) (.ok rows) ∧ rows.Perm ((p.walkRows col).map endRow) := by
  obtain ⟨fuel, hfuel⟩ := iterativeExpandVertex_returns (p.fastNeighbors t) vertices hcheck
  obtain ⟨hlabels, hloop, rfl⟩ := p.fastPath_eq_some h
  refine ⟨(levelsBetween (carry (p.fastNeighbors t)) vertices.zipIdx p.hopLower p.hopUpper).map
    fun row => (row.2, ⟨t.src, row.1⟩), ⟨fuel, ?_⟩, ?_⟩
  · unfold edgeExpandV
    rw [h]
    dsimp only
    rw [pathExpandVertexWithoutPredicateImpl_eq, hfuel]
    rfl
  · have hrows := (levelsBetween_carry_perm (p.fastNeighbors t) vertices p.hopLower p.hopUpper).map
      fun r => (r.1, VertexRecord.mk t.src r.2)
    rw [map_tagged, map_map] at hrows
    refine hrows.trans ?_
    rw [map_endRow_walkRows, VertexColumn.starts, VertexColumn.foreachVertex, map_map, tagged_map]
    refine perm_tagged fun v _ => ?_
    exact map_levelsBetween_perm _ (fun u => p.map_fastNeighbors_perm hlabels hloop u) [v] _ _

theorem edgeExpandV_of_check_failed
    (hupper : p.hopUpper = 1) (hlower : 2 ≤ p.hopLower) (fuel : Nat) :
    p.edgeExpandV col fuel = some (.error .checkFailed) := by
  have hne : p.hopUpper ≠ p.hopLower := by omega
  have hpos : p.hopLower ≠ 0 := by omega
  unfold edgeExpandV
  rw [h]
  dsimp only
  rw [pathExpandVertexWithoutPredicateImpl_eq, iterativeExpandVertex, if_neg hne, if_pos hupper,
    if_neg hpos]
  rfl

end

/-- The three expansions return the walks in range, each once, or their end vertices. -/
def ExpandsWalks (col : VertexColumn Nat) : Prop :=
  ∃ walks, ExactlyOnce walks (p.IsWalkRow col) ∧
    (p.pathExpandPArbitrary col).Perm walks ∧
    (∃ rows, Returns (p.edgeExpandV col) (.ok rows) ∧ rows.Perm (walks.map endRow)) ∧
    ∃ rows, p.edgeExpandVGeneral col = .ok rows ∧ rows.Perm (walks.map endRow)

theorem expandsWalks_iff_labels_fit (col : VertexColumn Nat) :
    p.ExpandsWalks col ↔ p.StartLabelsFit col ∧
      ¬ ((p.fastPath col).isSome ∧ p.hopUpper = 1 ∧ 2 ≤ p.hopLower) := by
  constructor
  · rintro ⟨walks, -, -, ⟨rows, ⟨fuel, hrows⟩, -⟩, rows', hrows', -⟩
    refine ⟨(p.edgeExpandVGeneral_eq_ok_iff.mp hrows').1, ?_⟩
    rintro ⟨hfast, hupper, hlower⟩
    obtain ⟨⟨t, vertices⟩, hfast⟩ := Option.isSome_iff_exists.mp hfast
    rw [p.edgeExpandV_of_check_failed hfast hupper hlower fuel] at hrows
    cases hrows
  · rintro ⟨hfit, hcheck⟩
    have hgeneral := p.edgeExpandVGeneral_eq_ok_iff.mpr ⟨hfit, rfl⟩
    refine ⟨p.walkRows col, p.exactlyOnce_walkRows col, p.pathExpandPArbitrary_perm col, ?_,
      _, hgeneral, p.map_swap_pushes_perm col⟩
    cases hfast : p.fastPath col with
    | none =>
      refine ⟨_, ⟨0, ?_⟩, p.map_swap_pushes_perm col⟩
      unfold edgeExpandV
      rw [hfast]
      exact congrArg some hgeneral
    | some fast =>
      refine p.edgeExpandV_returns_of_fastPath hfast ?_
      intro hupper
      by_contra hlower
      exact hcheck ⟨by rw [hfast]; rfl, hupper, by omega⟩

end PathExpandParams

def loneTriplet : ReadGraph :=
  ofEdges [⟨0, 0, 0⟩] [] nodup_nil (by simp)

/-- Expansion along that type by zero edges, from a column that also has a vertex of label
200. -/
theorem not_expandsWalks_unexpected_label :
    ¬ (⟨[⟨0, 0, 0⟩], .kOut, 0, 1, by simp, by simp [loneTriplet, ofEdges]⟩ :
      PathExpandParams loneTriplet).ExpandsWalks (.multiple [0, 200] [(0, 0), (200, 0)]) := by
  rintro ⟨walks, -, -, -, rows, hrows, -⟩
  cases hrows

end Neug.Execution
