import Neug.Execution.ReadGraph
import Mathlib.Data.List.Sort
import Mathlib.Data.Finset.Max

/-! # Label propagation

Each vertex starts with its id as label.  In a round, every vertex looks at the labels of its
in- and out-neighbours: a one-pass vote names a candidate, which is taken if it is more than half
of the labels, and otherwise the labels are sorted and their runs counted.  The largest 64-bit
integer stands for "no label" there, so that neighbours with this label are not seen.
-/

namespace Neug.Gds

open Execution Library Function List
open Storage (EdgeLabel)

/-- What an algorithm runs on: the ids in use of one vertex label, and one edge triplet. -/
structure ProjectedGraph where
  graph : ReadGraph
  triplet : EdgeLabel
  vertices : List Nat
  ends : ∀ e ∈ graph.edges, e.label = triplet → e.src ∈ vertices ∧ e.dst ∈ vertices

namespace ProjectedGraph

variable (p : ProjectedGraph)

/-- The in-neighbours, then the out-neighbours, with multiplicity. -/
def neighbors (v : Nat) : List Nat :=
  (p.graph.incoming p.triplet v ++ p.graph.outgoing p.triplet v).map (·.neighbor)

theorem mem_vertices_of_mem_neighbors {u v : Nat} (h : u ∈ p.neighbors v) : u ∈ p.vertices := by
  obtain ⟨nbr, hnbr, rfl⟩ := mem_map.mp h
  rcases mem_append.mp hnbr with hin | hout
  · exact (p.ends _ (p.graph.mem_adjacent.2.mp ⟨nbr, hin, rfl, rfl⟩) rfl).1
  · exact (p.ends _ (p.graph.mem_adjacent.1.mp ⟨nbr, hout, rfl, rfl⟩) rfl).2

end ProjectedGraph

/-! ## The label that a vertex adopts -/

/-- The smallest of the most frequent labels. -/
def mode (labels : List Int) : Option Int :=
  (labels.filter fun x => ∀ y ∈ labels, labels.count y ≤ labels.count x).min?

structure IsMode (labels : List Int) (x : Int) : Prop where
  mem : x ∈ labels
  beats : ∀ y ∈ labels,
    labels.count y < labels.count x ∨ labels.count y = labels.count x ∧ x ≤ y

variable {labels : List Int} {x y : Int}

theorem mode_eq_some_iff : mode labels = some x ↔ IsMode labels x := by
  simp only [mode, min?_eq_some_iff, mem_filter, decide_eq_true_eq]
  constructor
  · rintro ⟨⟨hmem, hmost⟩, hleast⟩
    exact ⟨hmem, fun y hy => (hmost y hy).lt_or_eq.imp_right fun heq =>
      ⟨heq, hleast y ⟨hy, heq ▸ hmost⟩⟩⟩
  · intro h
    refine ⟨⟨h.mem, fun y hy => ?_⟩, fun y hy => ?_⟩
    · have := h.beats y hy
      omega
    · have := h.beats y hy.1
      have := hy.2 x h.mem
      omega

theorem exists_mode (h : labels ≠ []) : ∃ x, mode labels = some x := by
  obtain ⟨x, hx, hmost⟩ := Finset.exists_max_image labels.toFinset labels.count
    (toFinset_nonempty_iff labels |>.mpr h)
  simp only [mem_toFinset] at hx hmost
  refine Option.ne_none_iff_exists'.mp fun hnone => ?_
  rw [mode, min?_eq_none_iff, filter_eq_nil_iff] at hnone
  exact hnone x hx (decide_eq_true hmost)

namespace Cdlp

/-- `std::numeric_limits<int64_t>::max()`. -/
def int64Max : Int := 2 ^ 63 - 1

/-- The vote of one neighbour, over the candidate and its `max_count`. -/
def vote (s : Int × Int) (comm : Int) : Int × Int :=
  if comm = s.1 then (s.1, s.2 + 1)
  else if s.2 - 1 ≤ 0 then (comm, 1)
  else (s.1, s.2 - 1)

/-- The scan of the sorted labels: the run that ends at `last` has `count` labels. -/
structure Scan where
  best : Int
  maxCount : Nat
  count : Nat
  last : Int

/-- `best` and `max_count` when a run ends. -/
def Scan.close (s : Scan) : Int × Nat :=
  if s.maxCount < s.count then (s.last, s.count) else (s.best, s.maxCount)

def Scan.next (s : Scan) (x : Int) : Scan :=
  if x = s.last then { s with count := s.count + 1 } else ⟨s.close.1, s.close.2, 1, x⟩

def scanSorted : List Int → Int
  | [] => -1
  | x :: rest => (rest.foldl Scan.next ⟨x, 0, 1, x⟩).close.1

/-- `CDLP::get_majority_community`. -/
def getMajorityCommunity (community : Nat → Int) (neighbors : List Nat) (dst : Nat) : Int :=
  let buffer := (neighbors.map community).filter (· ≠ int64Max)
  if buffer = [] then community dst
  else
    let best := (buffer.foldl vote (-1, 0)).1
    if buffer.length < buffer.count best * 2 then best
    else scanSorted (buffer.mergeSort (· ≤ ·))

/-- The labels after `CDLP::run_single_iteration`, and whether one was updated. -/
def runSingleIteration (p : ProjectedGraph) (community : Nat → Int) : (Nat → Int) × Bool :=
  let next v := getMajorityCommunity community (p.neighbors v) v
  (next, p.vertices.any fun v => next v ≠ community v)

def iterations (p : ProjectedGraph) : Nat → (Nat → Int) → Nat → Int
  | 0, community => community
  | n + 1, community =>
    let (next, updated) := runSingleIteration p community
    if updated then iterations p n next else community

/-- `CDLP::init_communities`: without an id column the internal ids are the labels. -/
def initCommunities (idColumn : Option (Nat → Int)) (v : Nat) : Int :=
  idColumn.elim v (· v)

/-- `CDLP::compute` and `CDLP::sink`: the rows of the result. -/
def run (p : ProjectedGraph) (idColumn : Option (Nat → Int)) (maxIterations : Int) :
    List (Nat × Int) :=
  p.vertices.map fun v => (v, iterations p maxIterations.toNat (initCommunities idColumn) v)

/-! ## Counting the labels -/

theorem count_add_count_le (hne : y ≠ x) : labels.count y + labels.count x ≤ labels.length := by
  induction labels with
  | nil => simp
  | cons z labels ih =>
    grind

theorem isMode_of_majority (h : labels.length < labels.count x * 2) : IsMode labels x := by
  refine ⟨count_pos_iff.mp (by omega), fun y _ => ?_⟩
  by_cases hne : y = x
  · subst hne
    exact .inr ⟨rfl, le_rfl⟩
  · have hle := @count_add_count_le labels x y hne
    exact .inl (by omega)

/-- The labels before the last run, which are smaller, have been counted. -/
structure Scan.Inv (closed : List Int) (s : Scan) : Prop where
  pos : 0 < s.count
  lt_last : ∀ y ∈ closed, y < s.last
  best : closed = [] ∧ s.maxCount = 0 ∨ IsMode closed s.best ∧ s.maxCount = closed.count s.best

variable {closed rest : List Int} {s : Scan}

theorem Scan.Inv.close (h : s.Inv closed) :
    IsMode (closed ++ replicate s.count s.last) s.close.1 ∧
      s.close.2 = (closed ++ replicate s.count s.last).count s.close.1 := by
  have hlast : (closed ++ replicate s.count s.last).count s.last = s.count := by
    rw [count_append, count_replicate_self, Nat.add_eq_right, count_eq_zero]
    exact fun hmem => (h.lt_last _ hmem).false
  have hclosed : ∀ y ∈ closed,
      (closed ++ replicate s.count s.last).count y = closed.count y := by
    intro y hy
    simp [count_append, count_replicate, (h.lt_last y hy).ne']
  have hmem : ∀ y ∈ closed ++ replicate s.count s.last, y ∈ closed ∨ y = s.last :=
    fun y hy => (mem_append.mp hy).imp_right eq_of_mem_replicate
  rw [Scan.close]
  split
  next hmore =>
    refine ⟨⟨by simp [h.pos.ne'], fun y hy => ?_⟩, hlast.symm⟩
    rcases hmem y hy with hy | rfl
    · rcases h.best with ⟨rfl, -⟩ | ⟨hbest, hmax⟩
      · cases hy
      · have := hbest.beats y hy
        rw [hclosed y hy, hlast]
        omega
    · exact .inr ⟨rfl, le_rfl⟩
  next hmore =>
    obtain ⟨-, hzero⟩ | ⟨hbest, hmax⟩ := h.best
    · exact absurd h.pos (by omega)
    have hcount := hclosed s.best hbest.mem
    refine ⟨⟨by simp [hbest.mem], fun y hy => ?_⟩, by rw [hcount, hmax]⟩
    rw [hcount]
    rcases hmem y hy with hy | rfl
    · rw [hclosed y hy]
      exact hbest.beats y hy
    · have := h.lt_last s.best hbest.mem
      omega

theorem Scan.Inv.isMode_foldl (h : s.Inv closed)
    (hsorted : (closed ++ replicate s.count s.last ++ rest).Pairwise (· ≤ ·)) :
    IsMode (closed ++ replicate s.count s.last ++ rest) (rest.foldl Scan.next s).close.1 := by
  induction rest generalizing closed s with
  | nil => simpa using h.close.1
  | cons x rest ih =>
    have hle := (pairwise_append.mp hsorted).2.2
    rw [append_cons] at hsorted ⊢
    rw [foldl_cons]
    by_cases hx : x = s.last
    · -- the run goes on
      have hrun : replicate s.count s.last ++ [x] = replicate (s.count + 1) s.last := by
        rw [hx, replicate_succ']
      rw [Scan.next, if_pos hx]
      rw [append_assoc closed, hrun] at hsorted ⊢
      exact @ih closed { s with count := s.count + 1 } ⟨Nat.succ_pos _, h.lt_last, h.best⟩ hsorted
    · rw [Scan.next, if_neg hx]
      refine @ih _ ⟨s.close.1, s.close.2, 1, x⟩ ⟨Nat.one_pos, fun y hy => ?_, .inr h.close⟩ hsorted
      have hlast := hle s.last (by simp [h.pos.ne']) x mem_cons_self
      rcases mem_append.mp hy with hy | hy
      · exact (h.lt_last y hy).trans_le hlast
      · rw [eq_of_mem_replicate hy]
        exact lt_of_le_of_ne hlast (Ne.symm hx)

theorem isMode_scanSorted (hne : labels ≠ []) (hsorted : labels.Pairwise (· ≤ ·)) :
    IsMode labels (scanSorted labels) := by
  cases labels with
  | nil => exact absurd rfl hne
  | cons x rest =>
    have hstart : Scan.Inv [] ⟨x, 0, 1, x⟩ := ⟨Nat.one_pos, nofun, .inl ⟨rfl, rfl⟩⟩
    exact hstart.isMode_foldl hsorted

theorem isMode_of_perm {labels' : List Int} (h : IsMode labels x) (hperm : labels.Perm labels') :
    IsMode labels' x := by
  refine ⟨hperm.mem_iff.mp h.mem, fun y hy => ?_⟩
  rw [← hperm.count_eq, ← hperm.count_eq]
  exact h.beats y (hperm.mem_iff.mpr hy)

variable {community : Nat → Int} {neighbors : List Nat}

theorem isMode_getMajorityCommunity (dst : Nat)
    (hne : (neighbors.map community).filter (· ≠ int64Max) ≠ []) :
    IsMode ((neighbors.map community).filter (· ≠ int64Max))
      (getMajorityCommunity community neighbors dst) := by
  rw [getMajorityCommunity, if_neg hne]
  generalize (neighbors.map community).filter (· ≠ int64Max) = buffer at hne ⊢
  dsimp only
  split
  next hmajority => exact isMode_of_majority hmajority
  next =>
    have hperm := mergeSort_perm buffer (· ≤ ·)
    refine isMode_of_perm (isMode_scanSorted ?_ (pairwise_mergeSort' _ _)) hperm
    intro hnil
    rw [hnil] at hperm
    exact hne hperm.nil_eq.symm

/-! ## Rounds of propagation -/

/-- One round of synchronous propagation. -/
def propagate (p : ProjectedGraph) (labels : Nat → Int) (v : Nat) : Int :=
  (mode ((p.neighbors v).map labels)).getD (labels v)

/-- Where the largest integer is the label to adopt, no other label is near. -/
def MaxAlone (p : ProjectedGraph) (labels : Nat → Int) : Prop :=
  ∀ v ∈ p.vertices, mode ((p.neighbors v).map labels) = some int64Max →
    labels v = int64Max ∧ ∀ u ∈ p.neighbors v, labels u = int64Max

theorem isMode_filter (h : IsMode labels x) (hx : x ≠ int64Max) :
    IsMode (labels.filter (· ≠ int64Max)) x := by
  have hcount : ∀ y, y ≠ int64Max →
      (labels.filter (· ≠ int64Max)).count y = labels.count y := fun y hy =>
    count_filter (decide_eq_true hy)
  refine ⟨mem_filter.mpr ⟨h.mem, decide_eq_true hx⟩, fun y hy => ?_⟩
  obtain ⟨hmem, hy⟩ := mem_filter.mp hy
  rw [hcount x hx, hcount y (of_decide_eq_true hy)]
  exact h.beats y hmem

/-- The code adopts the label of the abstract round unless that label hides its neighbours. -/
theorem getMajorityCommunity_eq_iff {dst : Nat} : getMajorityCommunity community neighbors dst =
        (mode (neighbors.map community)).getD (community dst) ↔
      (mode (neighbors.map community) = some int64Max →
        community dst = int64Max ∧ ∀ u ∈ neighbors, community u = int64Max) := by
  by_cases hnil : neighbors = []
  · subst hnil
    exact iff_of_true rfl nofun
  obtain ⟨x, hx⟩ := @exists_mode (neighbors.map community) (by simpa using hnil)
  rw [hx, Option.getD_some, Option.some.injEq]
  by_cases hmax : x = int64Max
  · subst hmax
    by_cases hnone : (neighbors.map community).filter (· ≠ int64Max) = []
    · have hall : ∀ u ∈ neighbors, community u = int64Max := by simpa using hnone
      rw [getMajorityCommunity, if_pos hnone]
      exact ⟨fun h _ => ⟨h, hall⟩, fun h => (h rfl).1⟩
    · have hmem := (isMode_getMajorityCommunity dst hnone).mem
      refine iff_of_false (by simpa using (mem_filter.mp hmem).2) fun h => hnone ?_
      simpa using (h rfl).2
  · have hmode := isMode_filter (mode_eq_some_iff.mp hx) hmax
    have hcode := isMode_getMajorityCommunity dst (ne_nil_of_mem hmode.mem)
    rw [← mode_eq_some_iff] at hmode hcode
    exact iff_of_true (Option.some.inj (hcode.symm.trans hmode)) fun h => absurd h hmax

section Rounds

variable (p : ProjectedGraph) {c c' : Nat → Int} {f g : (Nat → Int) → Nat → Int}

def Agree (c c' : Nat → Int) : Prop :=
  ∀ v ∈ p.vertices, c v = c' v

/-- A round reads the labels of vertices only. -/
def Local (f : (Nat → Int) → Nat → Int) : Prop :=
  ∀ c c', Agree p c c' → Agree p (f c) (f c')

theorem map_neighbors_congr (h : Agree p c c') (v : Nat) :
    (p.neighbors v).map c = (p.neighbors v).map c' :=
  map_congr_left fun u hu => h u (p.mem_vertices_of_mem_neighbors hu)

theorem local_runSingleIteration : Local p fun c => (runSingleIteration p c).1 := by
  intro c c' h v hv
  simp only [runSingleIteration, getMajorityCommunity, map_neighbors_congr p h v, h v hv]

/-- Two rounds lead to the same labels up to a limit if they agree on the labels that the second
one comes to below it. -/
theorem iterate_agree_iff (hf : Local p f) (limit : Nat) :
    (∀ n ≤ limit, Agree p (f^[n] c) (g^[n] c)) ↔
      ∀ n < limit, Agree p (f (g^[n] c)) (g (g^[n] c)) := by
  constructor
  · intro h n hn v hv
    have hnext := h (n + 1) hn v hv
    rw [iterate_succ_apply', iterate_succ_apply'] at hnext
    exact (hf _ _ (h n hn.le) v hv).symm.trans hnext
  · intro h n hn
    induction n with
    | zero => exact fun _ _ => rfl
    | succ n ih =>
      intro v hv
      rw [iterate_succ_apply', iterate_succ_apply']
      exact (hf _ _ (ih (Nat.le_of_lt hn)) v hv).trans (h n hn v hv)

/-- Stopping at a round that changes nothing leaves the labels of all later rounds. -/
theorem iterations_agree (n : Nat) :
    Agree p (iterations p n c) ((fun c => (runSingleIteration p c).1)^[n] c) := by
  induction n generalizing c with
  | zero => exact fun _ _ => rfl
  | succ n ih =>
    rw [iterations]
    by_cases hupdated : (runSingleIteration p c).2 = true
    · simp only [hupdated, if_true]
      exact ih
    · have hsame : Agree p (runSingleIteration p c).1 c := by
        intro v hv
        by_contra hne
        exact hupdated (any_eq_true.mpr ⟨v, hv, decide_eq_true hne⟩)
      have hstays := (@iterate_agree_iff p c _ id (local_runSingleIteration p) (n + 1)).mpr
        (by simpa only [iterate_id, id] using fun _ _ => hsame) (n + 1) le_rfl
      simp only [hupdated]
      intro v hv
      rw [hstays v hv, iterate_id]
      rfl

end Rounds

/-- Up to an iteration limit the result is that of synchronous propagation exactly when the largest
integer hides no label in the rounds below the limit. -/
theorem run_eq_propagate_iff (p : ProjectedGraph) (idColumn : Option (Nat → Int)) (limit : Int) :
    (∀ maxIterations ≤ limit, run p idColumn maxIterations = p.vertices.map fun v =>
        (v, (propagate p)^[maxIterations.toNat] (initCommunities idColumn) v)) ↔
      ∀ n < limit.toNat, MaxAlone p ((propagate p)^[n] (initCommunities idColumn)) := by
  have hround : (∀ n < limit.toNat, MaxAlone p ((propagate p)^[n] (initCommunities idColumn))) ↔
      ∀ n < limit.toNat,
        Agree p (runSingleIteration p ((propagate p)^[n] (initCommunities idColumn))).1
          (propagate p ((propagate p)^[n] (initCommunities idColumn))) :=
    forall₂_congr fun n _ => forall₂_congr fun v _ => getMajorityCommunity_eq_iff.symm
  rw [hround, ← iterate_agree_iff p (local_runSingleIteration p)]
  simp only [run, map_inj_left, Prod.mk.injEq, true_and]
  constructor
  · intro h n hn v hv
    rw [← iterations_agree p n v hv]
    rcases Nat.eq_zero_or_pos n with rfl | hpos
    · rfl
    · exact h n (by omega) v hv
  · intro h m hm v hv
    rw [iterations_agree p _ v hv]
    exact h _ (Int.toNat_le_toNat hm) v hv

/-- The vertex 1 does not see its only neighbour, whose id is the largest integer. -/
theorem run_ne_propagate_max :
    let p : ProjectedGraph := ⟨.ofEdges [⟨0, 0, 0⟩] [⟨⟨0, 0, 0⟩, 0, 1, 0⟩] (by decide) (by decide),
      ⟨0, 0, 0⟩, [0, 1], by decide⟩
    let ids := some fun v => if v = 0 then int64Max else 5
    run p ids 1 = [(0, 5), (1, 5)] ∧
      p.vertices.map (fun v => (v, (propagate p)^[1] (initCommunities ids) v)) =
        [(0, 5), (1, int64Max)] := by
  decide +kernel

end Cdlp

end Neug.Gds
