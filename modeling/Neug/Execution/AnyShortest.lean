import Neug.Library.BreadthFirst
import Neug.Execution.WalkExpansionContract

/-! # Any-shortest path expansion

From each start row a breadth-first search records, for every vertex it meets, the step by
which it was reached first.  The paths are read off by walking back to the root.  The lower
hop bound is compared with the number of rounds, not with the length of each path.
-/

namespace Neug.Execution

open Library StepGraph List

namespace PathExpandParams

variable {g : ReadGraph} (p : PathExpandParams g)

/-- The map of visited vertices, as a list of its entries in the order in which they were
added; the entry of the root has no meaning. -/
abbrev VisitedMap := List (VertexRecord × Option (VertexRecord × PathStep))

structure BfsState where
  visited : VisitedMap
  currentLevel : List VertexRecord
  depth : Nat
  deriving Repr

def visits (visited : VisitedMap) (x : VertexRecord) : Bool :=
  visited.any fun entry => entry.1 = x

def visitNbr (st : VisitedMap × List VertexRecord) (arrival : VertexRecord × PathStep) :
    VisitedMap × List VertexRecord :=
  if visits st.1 arrival.2.node then st
  else (st.1 ++ [(arrival.2.node, some arrival)], st.2 ++ [arrival.2.node])

def bfsRound (st : BfsState) : BfsState :=
  let next := st.currentLevel.foldl
    (fun acc node => (g.stepsFrom p.labels p.dir node).foldl
      (fun acc s => visitNbr acc (node, s)) acc) (st.visited, [])
  ⟨next.1, next.2, st.depth + 1⟩

def bfsGuard (st : BfsState) : Bool :=
  st.depth + 1 < p.hopUpper && !st.currentLevel.isEmpty

def bfsInit (root : VertexRecord) : BfsState :=
  ⟨[(root, none)], [root], 0⟩

def walkBack (visited : VisitedMap) (root : VertexRecord) :
    Nat → VertexRecord → List PathStep → Option (List PathStep)
  | 0, _, _ => none
  | n + 1, cur, steps =>
    if cur = root then some steps
    else
      match (visited.find? fun entry => entry.1 = cur).bind (·.2) with
      | some (parent, s) => walkBack visited root n parent (s :: steps)
      | none => none

/-- The search from one start row.  The order in which the map is read is left open by the
source. -/
def bfs (fuel : Nat) (root : VertexRecord) : Option (List Path) :=
  (whileLoop p.bfsGuard p.bfsRound fuel (bfsInit root)).bind fun st =>
    if p.hopLower ≤ st.depth then
      collect (fun entry =>
        if entry.1 = root then some []
        else (walkBack st.visited root fuel entry.1 []).map fun steps => [⟨root, steps⟩]) st.visited
    else some []

def pathExpandPAnyShortest (col : VertexColumn Nat) (fuel : Nat) : Option (List (Nat × Path)) :=
  collect (fun row => (p.bfs fuel row.1).map (List.map (Prod.mk row.2))) col.starts.zipIdx

/-! ## More fuel changes nothing -/

variable {visited : VisitedMap} {k n m : Nat}

theorem walkBack_mono {root cur : VertexRecord} {steps w : List PathStep} (hle : n ≤ m)
    (h : walkBack visited root n cur steps = some w) :
    walkBack visited root m cur steps = some w := by
  induction n generalizing m cur steps with
  | zero => cases h
  | succ n ih =>
    obtain ⟨m, rfl⟩ : ∃ k, m = k + 1 := ⟨m - 1, by omega⟩
    unfold walkBack at h ⊢
    split_ifs at h ⊢ with hroot
    · exact h
    · split at h
      next parent s _ => exact ih (by omega) h
      next => cases h

theorem bfs_mono {v : VertexRecord} {found : List Path} (hle : n ≤ m) (h : p.bfs n v = some found) :
    p.bfs m v = some found := by
  unfold bfs at h ⊢
  rw [Option.bind_eq_some_iff] at h ⊢
  obtain ⟨st, hst, h⟩ := h
  refine ⟨st, whileLoop_mono hst hle, ?_⟩
  split_ifs at h ⊢
  · refine collect_mono ?_ h
    rintro ⟨x, a⟩ - b hb
    split_ifs at hb ⊢
    · exact hb
    · obtain ⟨w, hw, rfl⟩ := Option.map_eq_some_iff.mp hb
      exact Option.map_eq_some_iff.mpr ⟨w, walkBack_mono hle hw, rfl⟩
  · exact h

theorem pathExpandPAnyShortest_mono {col : VertexColumn Nat} {rows : List (Nat × Path)}
    (hle : n ≤ m) (h : p.pathExpandPAnyShortest col n = some rows) :
    p.pathExpandPAnyShortest col m = some rows := by
  exact collect_rows_mono p.bfs (fun _ _ _ _ hle hl => p.bfs_mono hle hl) hle h

/-! ## The layers of the search -/

variable {p} {v x : VertexRecord} {st : BfsState}

/-- What holds after each round of the search from `v`. -/
structure BfsInv (p : PathExpandParams g) (v : VertexRecord) (st : BfsState) : Prop where
  layered : (g.stepGraph p.labels p.dir).Layered 0 v st.depth (visits st.visited) st.currentLevel
  nodup : (st.visited.map (·.1)).Nodup
  arrival : ∀ x parent s, (x, some (parent, s)) ∈ st.visited →
    s ∈ g.stepsFrom p.labels p.dir parent ∧ s.node = x ∧
      ∃ d, (g.stepGraph p.labels p.dir).IsDist v parent d ∧
        (g.stepGraph p.labels p.dir).IsDist v x (d + 1)
  root : ∀ x, (x, none) ∈ st.visited → x = v
  rounds : ∀ j < st.depth, j + 1 < p.hopUpper ∧ ∃ x, (g.stepGraph p.labels p.dir).IsDist v x j

theorem visits_eq_true : visits visited x = true ↔ x ∈ visited.map (·.1) := by
  simp [visits]

theorem visits_concat (visited : VisitedMap) (y : VertexRecord)
    (info : Option (VertexRecord × PathStep)) (x : VertexRecord) :
    visits (visited ++ [(y, info)]) x = (visits visited x || decide (x = y)) := by
  rw [Bool.eq_iff_iff, visits_eq_true, Bool.or_eq_true, visits_eq_true, decide_eq_true_eq]
  simp

/-- The candidates of a round that lead to new vertices. -/
def arrivals (p : PathExpandParams g) (st : BfsState) : List (VertexRecord × PathStep) :=
  (g.stepGraph p.labels p.dir).fresh (visits st.visited)
    ((g.stepGraph p.labels p.dir).candidates st.currentLevel)

theorem bfsRound_eq (st : BfsState) :
    p.bfsRound st = ⟨st.visited ++ (p.arrivals st).map fun c => (c.2.node, some c),
      (p.arrivals st).map (·.2.node), st.depth + 1⟩ := by
  have hcand := (g.stepGraph p.labels p.dir).foldl_foldl_next visitNbr (st.visited, [])
    st.currentLevel
  have hfresh := (g.stepGraph p.labels p.dir).foldl_eq_foldl_fresh
    (fun acc : VisitedMap × List VertexRecord => visits acc.1)
    (fun acc c => (acc.1 ++ [(c.2.node, some c)], acc.2 ++ [c.2.node]))
    (fun acc c x => visits_concat acc.1 c.2.node (some c) x)
    (st.visited, [])
    ((g.stepGraph p.labels p.dir).candidates st.currentLevel)
  have hadd : ∀ (cs : List (VertexRecord × PathStep)) (acc : VisitedMap × List VertexRecord),
      cs.foldl (fun acc c => (acc.1 ++ [(c.2.node, some c)], acc.2 ++ [c.2.node])) acc =
        (acc.1 ++ cs.map (fun c => (c.2.node, some c)), acc.2 ++ cs.map (·.2.node)) := by
    intro cs
    induction cs with
    | nil => simp
    | cons c cs ih => simp [ih]
  have hnext := (hcand.trans hfresh).trans (hadd _ _)
  unfold bfsRound
  simp only [ReadGraph.stepGraph] at hnext
  rw [hnext]
  rfl

theorem bfsInv_init (p : PathExpandParams g) (v : VertexRecord) : p.BfsInv v (bfsInit v) where
  layered := layered_marked fun x => by simp [visits, bfsInit, eq_comm]
  nodup := by simp [bfsInit]
  arrival := by simp [bfsInit]
  root := by simp [bfsInit]
  rounds := by simp [bfsInit]

theorem BfsInv.round (h : p.BfsInv v st) (hguard : p.bfsGuard st = true) :
    p.BfsInv v (p.bfsRound st) := by
  simp only [bfsGuard, Bool.and_eq_true, decide_eq_true_eq, Bool.not_eq_true',
    isEmpty_eq_false_iff] at hguard
  have harrival : ∀ c ∈ p.arrivals st, c.1 ∈ st.currentLevel ∧
      c.2 ∈ g.stepsFrom p.labels p.dir c.1 := fun c hc =>
    mem_candidates.mp (fresh_sublist.subset hc)
  have hseen : ∀ x, visits (p.bfsRound st).visited x = true ↔
      visits st.visited x = true ∨ x ∈ (p.arrivals st).map (·.2.node) := by
    intro x
    rw [bfsRound_eq, visits_eq_true, visits_eq_true]
    simp
  have hnext := h.layered.next (Nat.zero_le _) rfl hseen
  have hdist : ∀ c ∈ p.arrivals st,
      (g.stepGraph p.labels p.dir).IsDist v c.2.node (st.depth + 1) := by
    intro c hc
    have := (hnext.mem_level c.2.node).mp (mem_map.mpr ⟨c, hc, rfl⟩)
    rwa [Nat.zero_min, isFirst_zero] at this
  have hlevel : ∀ y ∈ st.currentLevel, (g.stepGraph p.labels p.dir).IsDist v y st.depth := by
    intro y hy
    have := (h.layered.mem_level y).mp hy
    rwa [Nat.zero_min, isFirst_zero] at this
  rw [bfsRound_eq] at hnext ⊢
  refine ⟨hnext, ?_, ?_, ?_, ?_⟩
  · rw [map_append, map_map]
    refine h.nodup.append (nodup_map_target_fresh (G := g.stepGraph p.labels p.dir)) ?_
    intro x hx hx'
    have := (mem_map_target_fresh (G := g.stepGraph p.labels p.dir).mp hx').1
    rw [visits_eq_true.mpr hx] at this
    cases this
  · intro x parent s hmem
    rcases mem_append.mp hmem with hmem | hmem
    · exact h.arrival x parent s hmem
    · obtain ⟨c, hc, heq⟩ := mem_map.mp hmem
      cases heq
      obtain ⟨hparent, hs⟩ := harrival _ hc
      exact ⟨hs, rfl, st.depth, hlevel _ hparent, hdist _ hc⟩
  · intro x hmem
    rcases mem_append.mp hmem with hmem | hmem
    · exact h.root x hmem
    · obtain ⟨c, -, heq⟩ := mem_map.mp hmem
      cases heq
  · intro j hj
    rcases Nat.lt_succ_iff_lt_or_eq.mp hj with hlt | rfl
    · exact h.rounds j hlt
    · obtain ⟨y, hy⟩ := exists_mem_of_ne_nil _ hguard.2
      exact ⟨hguard.1, y, hlevel y hy⟩

theorem find?_eq_some_of_nodup (hnodup : (visited.map (·.1)).Nodup)
    {entry : VertexRecord × Option (VertexRecord × PathStep)} (hmem : entry ∈ visited) :
    visited.find? (fun e => e.1 = entry.1) = some entry := by
  induction visited with
  | nil => cases hmem
  | cons e rest ih =>
    obtain ⟨hhead, hrest⟩ := nodup_cons.mp hnodup
    rcases mem_cons.mp hmem with rfl | hmem
    · simp
    · have hne : e.1 ≠ entry.1 := fun heq => hhead (mem_map.mpr ⟨entry, hmem, heq.symm⟩)
      rw [find?_cons_of_neg (by simpa using hne)]
      exact ih hrest hmem

theorem BfsInv.visits_iff (h : p.BfsInv v st) :
    x ∈ st.visited.map (·.1) ↔ ∃ d ≤ st.depth, (g.stepGraph p.labels p.dir).IsDist v x d := by
  rw [← visits_eq_true, h.layered.seen_iff]
  simp only [isFirst_zero]

/-- The recorded steps spell a shortest walk. -/
theorem BfsInv.exists_walkBack (h : p.BfsInv v st) {d : Nat} (hle : d ≤ st.depth)
    (hdist : (g.stepGraph p.labels p.dir).IsDist v x d) {fuel : Nat} (hfuel : d < fuel)
    (steps : List PathStep) : ∃ w, walkBack st.visited v fuel x steps = some (w ++ steps) ∧
      (g.stepGraph p.labels p.dir).IsWalk v w ∧ (g.stepGraph p.labels p.dir).finish v w = x ∧
      w.length = d := by
  induction d generalizing x fuel steps with
  | zero =>
    obtain ⟨n, rfl⟩ : ∃ n, fuel = n + 1 := ⟨fuel - 1, by omega⟩
    obtain rfl := isDist_zero.mp hdist
    exact ⟨[], by rw [walkBack, if_pos rfl, nil_append], trivial, rfl, rfl⟩
  | succ d ih =>
    obtain ⟨n, rfl⟩ : ∃ n, fuel = n + 1 := ⟨fuel - 1, by omega⟩
    have hne : x ≠ v := by
      rintro rfl
      have := hdist.unique (isDist_self x)
      omega
    obtain ⟨⟨y, info⟩, hmem, rfl⟩ := mem_map.mp (h.visits_iff.mpr ⟨d + 1, hle, hdist⟩)
    cases info with
    | none => exact absurd (h.root _ hmem) hne
    | some a =>
      obtain ⟨parent, s⟩ := a
      obtain ⟨hs, hnode, d', hparent, hdist'⟩ := h.arrival _ _ _ hmem
      obtain rfl : d' = d := by
        have := hdist'.unique hdist
        omega
      obtain ⟨w, hw, hwalk, hfinish, hlen⟩ :=
        ih (by omega) hparent (show d' < n by omega) (s :: steps)
      have hfind := find?_eq_some_of_nodup h.nodup hmem
      refine ⟨w ++ [s], ?_, ?_, ?_, ?_⟩
      · rw [walkBack, if_neg hne, hfind]
        simpa using hw
      · exact (isWalk_concat _ v w s).mpr ⟨hwalk, by rw [hfinish]; exact hs⟩
      · rw [finish_concat]
        exact hnode
      · simp [hlen]

/-! ## What the search returns -/

/-- The search from `v` stops after `k` rounds: each of them started from a vertex, and the
next would reach the upper bound or has nothing to start from. -/
structure StopsAfter (p : PathExpandParams g) (v : VertexRecord) (k : Nat) : Prop where
  rounds : ∀ j < k, j + 1 < p.hopUpper ∧ ∃ x, (g.stepGraph p.labels p.dir).IsDist v x j
  stop : p.hopUpper ≤ k + 1 ∨ ¬ ∃ x, (g.stepGraph p.labels p.dir).IsDist v x k

/-- The vertices to which the search returns a path after `k` rounds. -/
def ReturnedAfter (p : PathExpandParams g) (v : VertexRecord) (k : Nat) (x : VertexRecord) : Prop :=
  p.hopLower ≤ k ∧ x ≠ v ∧ ∃ d ≤ k, (g.stepGraph p.labels p.dir).IsDist v x d

theorem exists_bfs_rounds (p : PathExpandParams g) (v : VertexRecord) :
    ∃ st, whileLoop p.bfsGuard p.bfsRound (p.hopUpper + 1) (bfsInit v) = some st ∧
      p.BfsInv v st ∧ p.StopsAfter v st.depth := by
  have hround : ∀ t, p.BfsInv v t → p.bfsGuard t = true → p.BfsInv v (p.bfsRound t) ∧
      p.hopUpper - (p.bfsRound t).depth < p.hopUpper - t.depth := by
    intro t ht hguard
    refine ⟨ht.round hguard, ?_⟩
    simp only [bfsGuard, Bool.and_eq_true, decide_eq_true_eq] at hguard
    have hdepth : (p.bfsRound t).depth = t.depth + 1 := rfl
    omega
  obtain ⟨st, hst⟩ := exists_whileLoop_of_measure (fun st => p.hopUpper - st.depth)
    (bfsInv_init p v) hround
  obtain ⟨hinv, hguard⟩ := whileLoop_invariant hst (bfsInv_init p v) fun t ht hg => ht.round hg
  refine ⟨st, hst, hinv, hinv.rounds, ?_⟩
  simp only [bfsGuard, Bool.and_eq_false_iff, decide_eq_false_iff_not, Bool.not_eq_false',
    List.isEmpty_iff] at hguard
  rcases hguard with hupper | hlevel
  · exact .inl (by omega)
  · refine .inr ?_
    rintro ⟨x, hx⟩
    have hmem := (hinv.layered.mem_level x).mpr (by rwa [Nat.zero_min, isFirst_zero])
    rw [hlevel] at hmem
    cases hmem

/-- The path to a visited vertex, walked back from its entry. -/
theorem BfsInv.exists_path (h : p.BfsInv v st) (hstop : p.StopsAfter v st.depth)
    {entry : VertexRecord × Option (VertexRecord × PathStep)} (hmem : entry ∈ st.visited) :
    ∃ q : Path, (walkBack st.visited v (p.hopUpper + 1) entry.1 []).map (Path.mk v) = some q ∧
      g.IsPathFrom p.labels p.dir v q ∧ q.endNode = entry.1 ∧
      (g.stepGraph p.labels p.dir).IsDist v entry.1 q.length := by
  obtain ⟨d, hd, hdist⟩ := h.visits_iff.mp (mem_map.mpr ⟨entry, hmem, rfl⟩)
  have hfuel : d < p.hopUpper + 1 := by
    by_contra hge
    have := (hstop.rounds (d - 1) (by omega)).1
    omega
  obtain ⟨w, hw, hwalk, hfinish, rfl⟩ := h.exists_walkBack hd hdist hfuel []
  rw [append_nil] at hw
  refine ⟨⟨v, w⟩, by rw [hw]; rfl, ⟨rfl, hwalk⟩, ?_, hdist⟩
  rw [Path.endNode_eq_finish g p.labels p.dir]
  exact hfinish

theorem flatMap_ite_singleton {α β : Type*} (P : α → Prop) [DecidablePred P] (f : α → β)
    (l : List α) : (l.flatMap fun a => if P a then [] else [f a]) = (l.filter (¬ P ·)).map f := by
  induction l with
  | nil => rfl
  | cons a l ih =>
    rw [flatMap_cons, ih]
    by_cases h : P a <;> simp [h]

/-- The search from `v` ends; it returns one shortest path to each of the vertices described
by the number of its rounds. -/
theorem exists_bfs (p : PathExpandParams g) (v : VertexRecord) :
    ∃ found k, p.bfs (p.hopUpper + 1) v = some found ∧ p.StopsAfter v k ∧
      (∀ q ∈ found, g.IsPathFrom p.labels p.dir v q ∧
        (g.stepGraph p.labels p.dir).IsDist v q.endNode q.length) ∧
      ExactlyOnce (found.map Path.endNode) (p.ReturnedAfter v k) := by
  obtain ⟨st, hst, hinv, hstop⟩ := exists_bfs_rounds p v
  unfold bfs
  rw [hst, Option.bind_some]
  by_cases hlower : p.hopLower ≤ st.depth
  swap
  · refine ⟨[], st.depth, if_neg hlower, hstop, by simp, by simp, fun x => ?_⟩
    simp [ReturnedAfter, hlower]
  have : Nonempty Path := ⟨⟨v, []⟩⟩
  choose! path hpath hfrom hend hdist using
    fun entry (hmem : entry ∈ st.visited) => hinv.exists_path hstop hmem
  have hwalk : ∀ entry ∈ st.visited,
      (if entry.1 = v then some []
        else (walkBack st.visited v (p.hopUpper + 1) entry.1 []).map fun steps => [⟨v, steps⟩]) =
      some (if entry.1 = v then [] else [path entry]) := by
    intro entry hmem
    split_ifs
    · rfl
    · obtain ⟨w, hw, heq⟩ := Option.map_eq_some_iff.mp (hpath entry hmem)
      rw [hw, Option.map_some, heq]
  have hends : (st.visited.flatMap fun entry => if entry.1 = v then [] else [path entry]).map
      Path.endNode = (st.visited.map (·.1)).filter (· ≠ v) := by
    rw [flatMap_ite_singleton, map_map, filter_map]
    exact map_congr_left fun entry hmem => hend entry (mem_of_mem_filter hmem)
  refine ⟨_, st.depth, (if_pos hlower).trans (collect_eq_some hwalk), hstop, ?_, ?_⟩
  · intro q hq
    obtain ⟨entry, hmem, hq⟩ := mem_flatMap.mp hq
    split_ifs at hq
    · cases hq
    · obtain rfl := mem_singleton.mp hq
      refine ⟨hfrom entry hmem, ?_⟩
      rw [hend entry hmem]
      exact hdist entry hmem
  · rw [hends]
    refine ⟨hinv.nodup.filter _, fun x => ?_⟩
    rw [mem_filter, hinv.visits_iff, decide_eq_true_eq, ReturnedAfter, and_comm]
    exact (and_iff_right hlower).symm

/-! ## Which ranges are served -/

/-- The vertex is to be returned: its distance is in range. -/
def InRange (p : PathExpandParams g) (v x : VertexRecord) : Prop :=
  ∃ d, (g.stepGraph p.labels p.dir).IsDist v x d ∧ p.hopLower ≤ d ∧ d < p.hopUpper

/-- The ranges that the search serves from `v`: empty ranges, ranges that start at one, and
ranges that lie beyond every vertex. -/
def ServesAnyShortest (p : PathExpandParams g) (v : VertexRecord) : Prop :=
  p.hopUpper ≤ p.hopLower ∨ p.hopLower = 1 ∨
    2 ≤ p.hopLower ∧ ¬ ∃ x, (g.stepGraph p.labels p.dir).IsDist v x (p.hopLower - 1)

section

variable (h : p.StopsAfter v k)
include h

theorem StopsAfter.lt_upper : k = 0 ∨ k < p.hopUpper := by
  rcases Nat.eq_zero_or_pos k with hk | hk
  · exact .inl hk
  · have := (h.rounds (k - 1) (by omega)).1
    exact .inr (by omega)

/-- A vertex in reach of the upper bound is found by the rounds made. -/
theorem StopsAfter.le_of_isDist {d : Nat}
    (hdist : (g.stepGraph p.labels p.dir).IsDist v x d) (hlt : d < p.hopUpper) : d ≤ k := by
  rcases h.stop with hupper | hempty
  · omega
  · by_contra hgt
    exact hempty (hdist.exists_of_le (by omega))

theorem StopsAfter.serves_of_returned
    (hret : ∀ x, p.ReturnedAfter v k x ↔ p.InRange v x) : p.ServesAnyShortest v := by
  by_contra hserves
  unfold ServesAnyShortest at hserves
  push Not at hserves
  obtain ⟨hrange, hone, hfar⟩ := hserves
  rcases Nat.lt_or_ge p.hopLower 2 with hlt | hge
  · -- the root is at distance zero and never returned
    exact ((hret v).mpr ⟨0, isDist_self v, by omega, by omega⟩).2.1 rfl
  · obtain ⟨x, hx⟩ := hfar hge
    have hk : p.hopLower ≤ k := by
      rcases h.stop with hupper | hempty
      · omega
      · by_contra hgt
        exact hempty (hx.exists_of_le (by omega))
    -- a neighbour of the root is returned although it is too near
    obtain ⟨y, hy⟩ := hx.exists_of_le (show 1 ≤ p.hopLower - 1 by omega)
    have hne : y ≠ v := by
      rintro rfl
      exact absurd (hy.unique (isDist_self y)) (by omega)
    obtain ⟨d, hd, hlower, -⟩ := (hret y).mp ⟨hk, hne, 1, by omega, hy⟩
    have := hd.unique hy
    omega

theorem StopsAfter.returned_iff (hserves : p.ServesAnyShortest v)
    (x : VertexRecord) : p.ReturnedAfter v k x ↔ p.InRange v x := by
  have hupper := h.lt_upper
  constructor
  · rintro ⟨hlower, hne, d, hd, hdist⟩
    have hpos : d ≠ 0 := by
      rintro rfl
      exact hne (isDist_zero.mp hdist)
    refine ⟨d, hdist, ?_, by omega⟩
    rcases hserves with hempty | hone | ⟨htwo, hfar⟩
    · omega
    · omega
    · exact absurd (h.rounds (p.hopLower - 1) (by omega)).2 hfar
  · rintro ⟨d, hdist, hlower, hlt⟩
    have hd := h.le_of_isDist hdist hlt
    refine ⟨by omega, ?_, d, hd, hdist⟩
    rintro rfl
    have hzero := hdist.unique (isDist_self x)
    rcases hserves with hempty | hone | ⟨htwo, -⟩ <;> omega

end

/-- What the rows should be: shortest paths of the graph, and one to each vertex whose
distance from the start row is in range. -/
structure AnyShortestRows (p : PathExpandParams g) (col : VertexColumn Nat)
    (rows : List (Nat × Path)) : Prop where
  shortest : ∀ row ∈ rows, ∃ v, col.starts[row.1]? = some v ∧
    g.IsPathFrom p.labels p.dir v row.2 ∧
      (g.stepGraph p.labels p.dir).IsDist v row.2.endNode row.2.length
  ends : ExactlyOnce (rows.map endRow) fun row =>
    ∃ v, col.starts[row.1]? = some v ∧ p.InRange v row.2

theorem anyShortest_iff_serves (p : PathExpandParams g) (col : VertexColumn Nat) :
    (∃ rows, Returns (p.pathExpandPAnyShortest col) rows ∧ p.AnyShortestRows col rows) ↔
      ∀ v ∈ col.starts, p.ServesAnyShortest v := by
  choose found k hfound hstop hpaths hends using exists_bfs p
  have hreturns : ∀ rows, Returns (p.pathExpandPAnyShortest col) rows ↔
      rows = tagged col.starts found := fun rows =>
    returns_collect_iff p.bfs (fun _ _ _ _ hle h => p.bfs_mono hle h) fun v _ => hfound v
  have hmap : (tagged col.starts found).map endRow =
      tagged col.starts fun v => (found v).map Path.endNode := map_tagged Path.endNode _ _
  simp only [hreturns, exists_eq_left]
  constructor
  · rintro ⟨-, hexact⟩ v hv
    rw [hmap] at hexact
    have hv' := exactlyOnce_tagged_iff.mp hexact v hv
    exact (hstop v).serves_of_returned fun x => ((hends v).2 x).symm.trans (hv'.2 x)
  · intro hserves
    refine ⟨?_, ?_⟩
    · rintro ⟨i, q⟩ hrow
      obtain ⟨v, hv, hq⟩ := mem_tagged.mp hrow
      exact ⟨v, hv, hpaths v q hq⟩
    · rw [hmap]
      refine exactlyOnce_tagged_iff.mpr fun v hv => ?_
      exact (hends v).congr ((hstop v).returned_iff (hserves v hv))

end PathExpandParams

def twoEdges : ReadGraph :=
  ReadGraph.ofEdges [⟨0, 0, 0⟩] [⟨⟨0, 0, 0⟩, 0, 1, 0⟩, ⟨⟨0, 0, 0⟩, 1, 2, 1⟩] (by simp) (by simp)

def twoEdgesParams (lower upper : Nat) : PathExpandParams twoEdges :=
  ⟨[⟨0, 0, 0⟩], .kOut, lower, upper, nodup_label_zero, by simp [twoEdges, ReadGraph.ofEdges]⟩

/-- Asked for vertices at distance two, the search also returns the vertex at distance one. -/
theorem not_anyShortest_twoEdges :
    ¬ ∃ rows, Returns ((twoEdgesParams 2 3).pathExpandPAnyShortest (.single 0 [0])) rows ∧
      (twoEdgesParams 2 3).AnyShortestRows (.single 0 [0]) rows := by
  rintro ⟨rows, hreturns, -, hends⟩
  have hrun : (twoEdgesParams 2 3).pathExpandPAnyShortest (.single 0 [0]) 4 =
      some [(0, ⟨⟨0, 0⟩, [⟨0, .kOut, 0, ⟨0, 1⟩⟩]⟩),
        (0, ⟨⟨0, 0⟩, [⟨0, .kOut, 0, ⟨0, 1⟩⟩, ⟨0, .kOut, 1, ⟨0, 2⟩⟩]⟩)] := by decide
  have hrows :=
    Returns.unique (fun _ _ _ hle h => PathExpandParams.pathExpandPAnyShortest_mono _ hle h)
    hreturns ⟨4, hrun⟩
  subst hrows
  obtain ⟨v, hv, d, hdist, hlower, -⟩ := (hends.2 (0, ⟨0, 1⟩)).mp (by decide)
  obtain rfl : (⟨0, 0⟩ : VertexRecord) = v  := Option.some.inj hv
  refine hdist.2 1 hlower ⟨[⟨0, .kOut, 0, ⟨0, 1⟩⟩], ?_, rfl, rfl⟩
  exact ⟨by decide, trivial⟩

end Neug.Execution
