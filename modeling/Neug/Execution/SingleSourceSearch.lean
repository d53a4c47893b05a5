import Neug.Execution.SingleSource

/-! # The levels of the single-source search

The levels of the search hold the vertices first reached by each number of steps, where the
start vertex is not reached by zero steps.  Each vertex of a level in range is returned with
a path of that length.
-/

namespace Neug.Execution

open Library List
open Storage (EdgeLabel)

namespace SsspSearch

variable {S : SsspSearch} {parent parent' : Parents} {depth u v x y : Nat} {path : List Nat}

def graph (S : SsspSearch) : StepGraph Nat Nat where
  next := S.nbrs
  target := id

/-! ## Parents are never changed -/

def Extends (parent parent' : Parents) : Prop :=
  ∀ x y, parent x = some y → parent' x = some y

theorem Extends.trans {parent'' : Parents} (h : Extends parent parent')
    (h' : Extends parent' parent'') : Extends parent parent'' :=
  fun x y hx => h' x y (h x y hx)

theorem walkBack_extends (h : Extends parent parent') {l : List Nat}
    (hwalk : walkBack parent depth x path = .ok l) : walkBack parent' depth x path = .ok l := by
  induction depth generalizing x path with
  | zero => exact hwalk
  | succ depth ih =>
    unfold walkBack at hwalk ⊢
    cases hx : parent x with
    | none =>
      rw [hx] at hwalk
      cases hwalk
    | some y =>
      rw [hx] at hwalk
      rw [h x y hx]
      exact ih hwalk

theorem pathTo_extends (h : Extends parent parent') {q : Path}
    (hpath : S.pathTo parent depth u = .ok q) : S.pathTo parent' depth u = .ok q := by
  unfold pathTo at hpath ⊢
  cases hwalk : walkBack parent depth u [] with
  | error e =>
    rw [hwalk] at hpath
    cases hpath
  | ok l =>
    rw [hwalk] at hpath
    rw [walkBack_extends h hwalk]
    exact hpath

theorem reach_extends (st : Parents × List Nat) (nbr : Nat) : Extends st.1 (reach u st nbr).1 := by
  intro x y hx
  unfold reach
  split_ifs with hseen
  · exact hx
  · have hne : x ≠ nbr := by
      rintro rfl
      simp [hx] at hseen
    simpa [addParent, Function.update_of_ne hne] using hx

theorem expand_extends (st : Parents × List Nat) : Extends st.1 (S.expand depth u st).1 := by
  unfold expand
  split_ifs
  · exact fun _ _ h => h
  · generalize S.nbrs u = nbrs
    induction nbrs generalizing st with
    | nil => exact fun _ _ h => h
    | cons nbr nbrs ih => exact (reach_extends st nbr).trans (ih (reach u st nbr))

/-! ## One level -/

def expandAll (S : SsspSearch) (depth : Nat) (level : List Nat) (st : Parents × List Nat) :
    Parents × List Nat :=
  level.foldl (fun acc u => S.expand depth u acc) st

variable {level : List Nat}

/-- A level is expanded and its rows are added, whatever order the two are interleaved in. -/
theorem foldlM_visit {paths : Nat → Path}
    (hpaths : ∀ u ∈ level, S.Emits depth u → S.pathTo parent depth u = .ok (paths u))
    (st : LevelState) (hst : Extends parent st.parent) : level.foldlM (S.visit depth) st =
      .ok ⟨(S.expandAll depth level (st.parent, st.next)).1,
        (S.expandAll depth level (st.parent, st.next)).2,
        st.rows ++ (level.filter (S.Emits depth)).map fun u => (⟨S.vLabel, u⟩, paths u)⟩ := by
  induction level generalizing st with
  | nil =>
    rw [filter_nil, map_nil, append_nil]
    rfl
  | cons u level ih =>
    have hemit : S.emit depth u st = .ok (st.rows ++ ([u].filter (S.Emits depth)).map fun u =>
        (⟨S.vLabel, u⟩, paths u)) := by
      unfold emit
      by_cases hu : S.Emits depth u
      · rw [if_pos hu, pathTo_extends hst (hpaths u mem_cons_self hu)]
        simp [hu, Except.map]
      · simp [hu]
    rw [foldlM_cons, visit, hemit]
    refine (ih (fun w hw => hpaths w (mem_cons_of_mem u hw)) _
      (hst.trans (expand_extends (st.parent, st.next)))).trans ?_
    have hsplit : (u :: level).filter (S.Emits depth) =
        [u].filter (S.Emits depth) ++ level.filter (S.Emits depth) := filter_append [u] level
    rw [hsplit, map_append, ← append_assoc]
    rfl

theorem addParent_fst (st : Parents × List Nat) (step : Nat × Nat) (x : Nat) :
    (addParent st step).1 x = if x = step.2 then some step.1 else st.1 x := by
  simp only [addParent, Function.update_apply]

theorem eq_some_of_foldl_addParent {cs : List (Nat × Nat)} {st : Parents × List Nat}
    (h : (cs.foldl addParent st).1 x = some y) : st.1 x = some y ∨ (y, x) ∈ cs := by
  induction cs generalizing st with
  | nil => exact .inl h
  | cons c cs ih =>
    rcases ih h with hx | hx
    · rw [addParent_fst] at hx
      split_ifs at hx with heq
      · cases hx
        exact .inr (by simp [heq])
      · exact .inl hx
    · exact .inr (mem_cons_of_mem c hx)

theorem isSome_foldl_addParent (cs : List (Nat × Nat)) (st : Parents × List Nat) (x : Nat) :
    ((cs.foldl addParent st).1 x).isSome = true ↔ (st.1 x).isSome = true ∨ x ∈ cs.map (·.2) := by
  induction cs generalizing st with
  | nil => simp
  | cons c cs ih =>
    rw [foldl_cons, ih, addParent_fst]
    by_cases heq : x = c.2
    · simp [heq]
    · simp [heq]

theorem foldl_addParent_snd (cs : List (Nat × Nat)) (st : Parents × List Nat) :
    (cs.foldl addParent st).2 = st.2 ++ cs.map (·.2) := by
  induction cs generalizing st with
  | nil => simp
  | cons c cs ih => simp [ih, addParent]

/-- The steps of a level to vertices not reached before. -/
def arrivals (S : SsspSearch) (parent : Parents) (level : List Nat) : List (Nat × Nat) :=
  S.graph.fresh (fun x => (parent x).isSome) (S.graph.candidates level)

theorem expandAll_eq (hlast : ¬ (S.lower ≤ depth ∧ depth + 1 = S.upper)) (level : List Nat) :
    S.expandAll depth level (parent, []) =
      (S.arrivals parent level).foldl addParent (parent, []) := by
  have hcand := S.graph.foldl_foldl_next
    (fun (acc : Parents × List Nat) c => reach c.1 acc c.2) (parent, []) level
  have hfresh := S.graph.foldl_eq_foldl_fresh
    (fun (acc : Parents × List Nat) x => (acc.1 x).isSome) addParent
    (fun acc c x => by
      rw [addParent_fst]
      by_cases heq : x = c.2 <;> simp [graph, heq])
    (parent, []) (S.graph.candidates level)
  refine Eq.trans ?_ (hcand.trans hfresh)
  simp only [expandAll, expand, if_neg hlast]
  rfl

/-! ## The levels of the search -/

structure Inv (S : SsspSearch) (v depth : Nat) (level : List Nat) (parent : Parents) : Prop where
  layered : S.graph.Layered 1 v depth (fun x => (parent x).isSome) level
  arrival : ∀ x y, parent x = some y → x ∈ S.nbrs y ∧
    ∃ d, S.graph.IsFirst (min 1 d) v y d ∧ S.graph.IsFirst 1 v x (d + 1)

theorem inv_init (S : SsspSearch) (v : Nat) : S.Inv v 0 [v] fun _ => none where
  layered := StepGraph.layered_unmarked fun _ => rfl
  arrival := by simp

theorem Inv.round (h : S.Inv v depth level parent)
    (hlast : ¬ (S.lower ≤ depth ∧ depth + 1 = S.upper)) :
    S.Inv v (depth + 1) (S.expandAll depth level (parent, [])).2
      (S.expandAll depth level (parent, [])).1 := by
  rw [expandAll_eq hlast]
  have hlayer := h.layered.next (by omega) rfl
    (isSome_foldl_addParent (S.arrivals parent level) (parent, []))
  rw [foldl_addParent_snd, nil_append]
  refine ⟨hlayer, fun x y hx => ?_⟩
  rcases eq_some_of_foldl_addParent hx with hx | hx
  · exact h.arrival x y hx
  · obtain ⟨hy, hs⟩ := StepGraph.mem_candidates.mp (StepGraph.fresh_sublist.subset hx)
    have hfirst := (hlayer.mem_level x).mp (mem_map.mpr ⟨(y, x), hx, rfl⟩)
    exact ⟨hs, depth, (h.layered.mem_level y).mp hy, hfirst⟩

/-- Walking back from a vertex of a level spells a walk of that many steps. -/
theorem Inv.exists_walkBack (h : S.Inv v depth level parent) {d : Nat} (hle : d ≤ depth)
    (hx : S.graph.IsFirst (min 1 d) v x d) (path : List Nat) :
    ∃ w, walkBack parent d x path = .ok (v :: (w ++ path)) ∧ S.graph.IsWalk v w ∧
      S.graph.finish v w = x ∧ w.length = d := by
  induction d generalizing x path with
  | zero =>
    obtain rfl : x = v := StepGraph.isDist_zero.mp (StepGraph.isFirst_zero.mp hx)
    exact ⟨[], rfl, trivial, rfl, rfl⟩
  | succ d ih =>
    obtain ⟨y, hy⟩ := Option.isSome_iff_exists.mp ((h.layered.seen_iff x).mpr ⟨d + 1, hle, hx⟩)
    obtain ⟨hnbr, d', hfirst, hx'⟩ := h.arrival x y hy
    obtain rfl : d' = d := by
      have := hx'.unique hx
      omega
    obtain ⟨w, hw, hwalk, hfinish, hlen⟩ := ih (by omega) hfirst (x :: path)
    refine ⟨w ++ [x], ?_, ?_, ?_, ?_⟩
    · rw [walkBack, hy]
      simpa using hw
    · exact (S.graph.isWalk_concat v w x).mpr ⟨hwalk, by rw [hfinish]; exact hnbr⟩
    · exact S.graph.finish_concat v w x
    · simp [hlen]

/-! ## The rows of the search -/

/-- What the edge lookups of a search have to give: for each neighbour a step of the graph. -/
structure Serves (S : SsspSearch) (g : ReadGraph) (t : EdgeLabel) (dir : Direction) : Prop where
  nbrs_iff : ∀ a b, b ∈ S.nbrs a ↔ ∃ s ∈ g.stepsFrom [t] dir ⟨S.vLabel, a⟩, s.node = ⟨S.vLabel, b⟩
  label_eq : ∀ a, ∀ s ∈ g.stepsFrom [t] dir ⟨S.vLabel, a⟩, s.node.label = S.vLabel
  edge_of_nbr : ∀ a, ∀ b ∈ S.nbrs a, ∃ d data, S.edgeData a b = some (d, data) ∧
    ⟨S.eLabel, d, data, ⟨S.vLabel, b⟩⟩ ∈ g.stepsFrom [t] dir ⟨S.vLabel, a⟩

variable {g : ReadGraph} {t : EdgeLabel} {dir : Direction}

theorem Serves.exists_edgeSteps (h : S.Serves g t dir) {w : List Nat} (hw : S.graph.IsWalk v w) :
    ∃ steps, S.edgeSteps (v :: w) = .ok steps ∧ (g.stepGraph [t] dir).IsWalk ⟨S.vLabel, v⟩ steps ∧
      (g.stepGraph [t] dir).finish ⟨S.vLabel, v⟩ steps = ⟨S.vLabel, S.graph.finish v w⟩ ∧
      steps.length = w.length := by
  induction w generalizing v with
  | nil => exact ⟨[], rfl, trivial, rfl, rfl⟩
  | cons b w ih =>
    obtain ⟨hb, hw⟩ := (S.graph.isWalk_cons v b w).mp hw
    obtain ⟨d, data, hedge, hstep⟩ := h.edge_of_nbr v b hb
    obtain ⟨steps, hsteps, hwalk, hfinish, hlen⟩ := ih hw
    refine ⟨⟨S.eLabel, d, data, ⟨S.vLabel, b⟩⟩ :: steps, ?_, ⟨hstep, hwalk⟩, hfinish, ?_⟩
    · rw [edgeSteps, hedge]
      simp only [show S.edgeSteps (b :: w) = .ok steps from hsteps]
      rfl
    · simp [hlen]

def IsPathTo (S : SsspSearch) (g : ReadGraph) (t : EdgeLabel) (dir : Direction) (v d x : Nat)
    (q : Path) : Prop :=
  g.IsPathFrom [t] dir ⟨S.vLabel, v⟩ q ∧ q.endNode = ⟨S.vLabel, x⟩ ∧ q.length = d

theorem Inv.exists_pathTo (hserves : S.Serves g t dir) (h : S.Inv v depth level parent)
    (hx : x ∈ level) : ∃ q, S.pathTo parent depth x = .ok q ∧ S.IsPathTo g t dir v depth x q := by
  obtain ⟨w, hw, hwalk, hfinish, hlen⟩ :=
    h.exists_walkBack le_rfl ((h.layered.mem_level x).mp hx) []
  obtain ⟨steps, hsteps, hwalk', hfinish', hlen'⟩ := hserves.exists_edgeSteps hwalk
  refine ⟨⟨⟨S.vLabel, v⟩, steps⟩, ?_, ⟨rfl, hwalk'⟩, ?_, hlen'.trans hlen⟩
  · rw [append_nil] at hw
    unfold pathTo
    rw [hw, Except.bind]
    rw [hsteps]
    rfl
  · rw [Path.endNode_eq_finish g [t] dir, hfinish', hfinish]

/-- The pairs of a vertex and a depth at which the search from `v` returns it. -/
def Found (S : SsspSearch) (v : Nat) (row : VertexRecord × Nat) : Prop :=
  row.1.label = S.vLabel ∧ S.pred row.1 = true ∧ S.lower ≤ row.2 ∧ row.2 < S.upper ∧
    S.graph.IsFirst (min 1 row.2) v row.1.vid row.2

structure RowsFrom (S : SsspSearch) (g : ReadGraph) (t : EdgeLabel) (dir : Direction)
    (v depth : Nat)
    (rows : List (VertexRecord × Path)) : Prop where
  path : ∀ row ∈ rows, S.IsPathTo g t dir v row.2.length row.1.vid row.2 ∧ row.1.label = S.vLabel
  found : ExactlyOnce (rows.map fun row => (row.1, row.2.length)) fun row =>
    depth ≤ row.2 ∧ S.Found v row

theorem rowsFrom_nil (h : ∀ row, depth ≤ row.2 → ¬ S.Found v row) : S.RowsFrom g t dir v depth [] :=
  ⟨by simp, nodup_nil, fun row => by simpa using h row⟩

/-- The rows of one level followed by those of the deeper ones. -/
theorem RowsFrom.append {paths : Nat → Path} {rest : List (VertexRecord × Path)}
    (hinv : S.Inv v depth level parent) (hupper : depth < S.upper)
    (hpaths : ∀ u ∈ level, S.IsPathTo g t dir v depth u (paths u))
    (hrest : S.RowsFrom g t dir v (depth + 1) rest) : S.RowsFrom g t dir v depth
      ((level.filter (S.Emits depth)).map (fun u => (⟨S.vLabel, u⟩, paths u)) ++ rest) := by
  have hlevel : ((level.filter (S.Emits depth)).map fun u =>
      ((⟨S.vLabel, u⟩, paths u) : VertexRecord × Path)).map (fun row => (row.1, row.2.length)) =
      (level.filter (S.Emits depth)).map fun u => (⟨S.vLabel, u⟩, depth) := by
    rw [map_map]
    refine map_congr_left fun u hu => ?_
    simp [(hpaths u (mem_of_mem_filter hu)).2.2]
  refine ⟨?_, ?_, ?_⟩
  · intro row hrow
    rcases mem_append.mp hrow with hrow | hrow
    · obtain ⟨u, hu, rfl⟩ := mem_map.mp hrow
      have hpath := hpaths u (mem_of_mem_filter hu)
      exact ⟨by rw [hpath.2.2]; exact hpath, rfl⟩
    · exact hrest.path row hrow
  · rw [map_append, hlevel]
    refine Nodup.append ?_ hrest.found.1 ?_
    · refine (hinv.layered.nodup_level.filter _).map ?_
      intro a b hab
      simpa using hab
    · -- the rest is found at greater depths
      intro row hrow hrow'
      obtain ⟨u, -, rfl⟩ := mem_map.mp hrow
      exact absurd ((hrest.found.2 _).mp hrow').1 (Nat.not_succ_le_self depth)
  · rintro ⟨⟨label, u⟩, d⟩
    rw [map_append, hlevel, mem_append, hrest.found.2]
    simp only [mem_map, mem_filter, decide_eq_true_eq, hinv.layered.mem_level, Found,
      Prod.mk.injEq, VertexRecord.mk.injEq]
    constructor
    · rintro (⟨w, ⟨hfirst, hlower, hpred⟩, ⟨rfl, rfl⟩, rfl⟩ | ⟨hle, hfound⟩)
      · exact ⟨le_rfl, rfl, hpred, hlower, hupper, hfirst⟩
      · exact ⟨by omega, hfound⟩
    · rintro ⟨hle, rfl, hpred, hlower, hlt, hfirst⟩
      rcases Nat.lt_or_ge depth d with hgt | hge
      · exact .inr ⟨hgt, rfl, hpred, hlower, hlt, hfirst⟩
      · obtain rfl : d = depth := by omega
        exact .inl ⟨u, ⟨hfirst, hlower, hpred⟩, ⟨rfl, rfl⟩, rfl⟩

theorem exists_rounds (hserves : S.Serves g t dir) {n : Nat} (hn : depth + n = S.upper)
    (h : S.Inv v depth level parent) :
    ∃ rows, S.rounds n depth level parent = .ok rows ∧ S.RowsFrom g t dir v depth rows := by
  induction n generalizing depth level parent with
  | zero =>
    refine ⟨[], rfl, rowsFrom_nil fun row hle hfound => ?_⟩
    have := hfound.2.2.2.1
    omega
  | succ n ih =>
    unfold rounds
    by_cases hempty : level.isEmpty = true
    · refine ⟨[], if_pos hempty, rowsFrom_nil fun row hle hfound => ?_⟩
      obtain ⟨y, hy⟩ := hfound.2.2.2.2.exists_of_le hle
      have hmem := (h.layered.mem_level y).mpr hy
      rw [List.isEmpty_iff.mp hempty] at hmem
      cases hmem
    · have : Nonempty Path := ⟨⟨⟨0, 0⟩, []⟩⟩
      choose! paths hpaths hpath using fun u (hu : u ∈ level) => h.exists_pathTo hserves hu
      rw [if_neg hempty, foldlM_visit (fun u hu _ => hpaths u hu) ⟨parent, [], []⟩ fun _ _ h => h]
      have hrest : ∃ rest, S.rounds n (depth + 1) (S.expandAll depth level (parent, [])).2
          (S.expandAll depth level (parent, [])).1 = .ok rest ∧
          S.RowsFrom g t dir v (depth + 1) rest := by
        by_cases hlast : S.lower ≤ depth ∧ depth + 1 = S.upper
        · obtain rfl : n = 0 := by omega
          refine ⟨[], rfl, rowsFrom_nil fun row hle hfound => ?_⟩
          have := hfound.2.2.2.1
          omega
        · exact ih (by omega) (h.round hlast)
      obtain ⟨rest, hrounds, hrows⟩ := hrest
      refine ⟨_, ?_, hrows.append h (by omega) hpath⟩
      rw [Except.bind]
      rw [hrounds]
      rfl

/-- The search ends and returns each vertex at each depth at which a level holds it. -/
theorem exists_run (hserves : S.Serves g t dir) (v : Nat) :
    ∃ rows, S.run v = .ok rows ∧ S.RowsFrom g t dir v 0 rows :=
  exists_rounds hserves (Nat.zero_add _) (inv_init S v)

end SsspSearch

end Neug.Execution
