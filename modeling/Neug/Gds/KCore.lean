import Neug.Gds.LabelPropagation
import Neug.Library.WhileLoop

/-! # The k-core

Vertices with fewer than `k` edge ends are removed round by round, until every vertex that is left
has `k` of them on edges to vertices that are left; a loop has two ends at its vertex.  Reported is
how many a vertex has left.  A core number is never larger; it is smaller where a vertex has more
left than one of its neighbours.
-/

namespace Neug.Gds

open Execution Library Function List

structure KCore extends ProjectedGraph where
  k : Int
  nodup : vertices.Nodup

/-- `degree_`, `removed_` and the vertices removed for the next round. -/
structure KCoreState where
  degree : Nat → Int
  removed : Nat → Bool
  next : List Nat

namespace KCore

variable (c : KCore)

/-- The ends of the out-edges, then those of the in-edges. -/
def incident (v : Nat) : List Nat :=
  (c.graph.outgoing c.triplet v ++ c.graph.incoming c.triplet v).map (·.neighbor)

/-- What a worker does with an edge of a removed vertex to `u`. -/
def relax (s : KCoreState) (u : Nat) : KCoreState :=
  if s.removed u then s
  else
    let degree := update s.degree u (s.degree u - 1)
    if c.k ≤ s.degree u ∧ s.degree u - 1 < c.k then
      ⟨degree, update s.removed u true, s.next ++ [u]⟩
    else ⟨degree, s.removed, s.next⟩

/-- The first loops of `compute`. -/
def start : KCoreState :=
  let few := c.vertices.filter fun v => (c.incident v).length < c.k
  ⟨fun v => (c.incident v).length, (· ∈ few), few⟩

/-- The order in which the workers come to the edges of the frontier. -/
structure Workers where
  order : KCoreState → List Nat
  perm : ∀ s, (order s).Perm (s.next.flatMap c.incident)

def round (w : c.Workers) (s : KCoreState) : KCoreState :=
  (w.order s).foldl c.relax { s with next := [] }

def compute (w : c.Workers) (fuel : Nat) : Option KCoreState :=
  whileLoop (fun s => !s.next.isEmpty) (c.round w) fuel c.start

/-- The rows of the result. -/
def sink (s : KCoreState) : List (Nat × Int) :=
  c.vertices.map fun v => (v, if s.removed v then -1 else s.degree v)

def kept (s : KCoreState) : Finset Nat := (c.vertices.filter (!s.removed ·)).toFinset

/-- How many vertices are kept, or removed for the next round. -/
def left (s : KCoreState) : Nat := (c.kept s).card + s.next.length

/-! ## Cores -/

def degreeIn (S : Finset Nat) (v : Nat) : Nat := (c.incident v).countP (· ∈ S)

/-- Every vertex of the set has `d` edge ends inside; a loop counts twice. -/
def Supports (d : Int) (S : Finset Nat) : Prop :=
  S ⊆ c.vertices.toFinset ∧ ∀ v ∈ S, d ≤ c.degreeIn S v

def IsCoreNumber (v d : Nat) : Prop :=
  IsGreatest {d : Nat | ∃ S : Finset Nat, v ∈ S ∧ c.Supports d S} d

def IsCore (S : Finset Nat) : Prop := IsGreatest {S | c.Supports c.k S} S

variable {c} {S C : Finset Nat} {u v : Nat}

theorem count_incident (u v : Nat) : (c.incident v).count u = (c.incident u).count v := by
  have hout : ∀ u v, ((c.graph.outgoing c.triplet v).map (·.neighbor)).count u =
      ((c.graph.incoming c.triplet u).map (·.neighbor)).count v := by
    intro u v
    have h := ((c.graph.out_perm c.triplet v).map Prod.fst).count_eq u
    have h' := ((c.graph.in_perm c.triplet u).map Prod.fst).count_eq v
    simp only [map_map, comp_def, count_eq_countP, countP_map, countP_filter] at h h'
    simp only [ReadGraph.outgoing, ReadGraph.incoming, count_eq_countP, countP_map, comp_def,
      countP_filter, h, h']
    congr 1
    funext e
    rw [Bool.eq_iff_iff]
    simp only [Bool.and_eq_true, beq_iff_eq, decide_eq_true_eq]
    tauto
  rw [incident, incident, map_append, map_append, count_append, count_append, hout u v, ← hout v u,
    Nat.add_comm]

theorem mem_incident_comm : u ∈ c.incident v ↔ v ∈ c.incident u := by
  rw [← count_pos_iff, count_incident, count_pos_iff]

theorem mem_vertices_of_mem_incident (h : u ∈ c.incident v) : u ∈ c.vertices := by
  refine c.mem_vertices_of_mem_neighbors (v := v) ?_
  rw [incident, map_append, mem_append, or_comm, ← mem_append, ← map_append] at h
  exact h

theorem mem_kept {s : KCoreState} : v ∈ c.kept s ↔ v ∈ c.vertices ∧ s.removed v = false := by
  simp [kept]

theorem degreeIn_mono (h : S ⊆ C) (v : Nat) : c.degreeIn S v ≤ c.degreeIn C v :=
  countP_mono_left fun x _ hx => by simpa using h (by simpa using hx)

namespace IsCore

variable (h : c.IsCore C)
include h

theorem subset {d : Nat} (hk : c.k ≤ d) (hS : c.Supports d S) : S ⊆ C :=
  h.2 ⟨hS.1, fun v hv => hk.trans (hS.2 v hv)⟩

theorem le_degreeIn {d : Nat} (hS : c.Supports d S) (hv : v ∈ S) (hvC : v ∈ C) :
    d ≤ c.degreeIn C v := by
  have hlow := h.1.2 v hvC
  by_cases hk : c.k ≤ d
  · exact Nat.le_trans (by exact_mod_cast hS.2 v hv) (degreeIn_mono (h.subset hk hS) v)
  · omega

/-- The edge ends left are as many as the core number of each vertex exactly if neighbours have
equally many left. -/
theorem isCoreNumber_iff : (∀ v ∈ C, c.IsCoreNumber v (c.degreeIn C v)) ↔
    ∀ u ∈ C, ∀ v ∈ C, v ∈ c.incident u → c.degreeIn C u = c.degreeIn C v := by
  constructor
  · intro hcore
    have hle : ∀ u ∈ C, ∀ v ∈ C, v ∈ c.incident u → c.degreeIn C u ≤ c.degreeIn C v := by
      intro u hu v hv hend
      obtain ⟨S, huS, hS⟩ := (hcore u hu).1
      have hsub := h.subset (h.1.2 u hu) hS
      have hvS : v ∈ S := by
        by_contra hvS
        have hlt : c.degreeIn S u < c.degreeIn C u :=
          countP_lt_countP (fun x _ hx => by simpa using hsub (by simpa using hx)) hend
            (by simpa using hv) (by simpa using hvS)
        have := hS.2 u huS
        omega
      exact Nat.le_trans (by exact_mod_cast hS.2 v hvS) (degreeIn_mono hsub v)
    exact fun u hu v hv hend =>
      Nat.le_antisymm (hle u hu v hv hend) (hle v hv u hu (mem_incident_comm.mp hend))
  · intro heven v hv
    refine ⟨⟨C.filter fun u => c.degreeIn C u = c.degreeIn C v, by simp [hv], ?_, fun u hu => ?_⟩,
      fun d ⟨S, hvS, hS⟩ => h.le_degreeIn hS hvS hv⟩
    · exact (Finset.filter_subset _ _).trans h.1.1
    · obtain ⟨huC, hsame⟩ := Finset.mem_filter.mp hu
      rw [← hsame]
      refine Int.ofNat_le.mpr (countP_mono_left fun x hx hxC => ?_)
      have hxC : x ∈ C := by simpa using hxC
      simp [hxC, heven u huC x hxC hx]

end IsCore

/-! ## Peeling -/

/-- The edges to `T`, and those of the vertices removed for the next round, are still to be
taken off; no more than `n` vertices are kept or removed for the next round. -/
structure Inv (c : KCore) (n : Nat) (s : KCoreState) (T : List Nat) : Prop where
  degree : ∀ u ∈ c.kept s, s.degree u =
    (c.degreeIn (c.kept s) u + (T ++ s.next.flatMap c.incident).count u : Nat)
  enough : ∀ u ∈ c.kept s, c.k ≤ s.degree u
  outside : ∀ S, c.Supports c.k S → S ⊆ c.kept s
  range : ∀ u, 0 ≤ s.degree u ∧ s.degree u ≤ (c.incident u).length
  left : c.left s ≤ n

theorem degreeIn_erase (hv : v ∈ S) (u : Nat) :
    c.degreeIn S u = c.degreeIn (S.erase v) u + (c.incident u).count v := by
  simp only [degreeIn]
  induction c.incident u with
  | nil => rfl
  | cons x l ih =>
    by_cases hx : x = v
    · subst hx
      simp [hv, ih, Nat.add_assoc]
    · simp [hx, ih, countP_cons, Nat.add_right_comm]

theorem length_incident {few : List Nat} (hfew : few ⊆ c.vertices) (hnodup : few.Nodup) :
    (c.incident u).length = c.degreeIn (c.vertices.toFinset \ few.toFinset) u +
      (few.flatMap c.incident).count u := by
  induction few with
  | nil =>
    refine (countP_eq_length.mpr fun x hx => ?_).symm
    simp [mem_vertices_of_mem_incident hx]
  | cons v few ih =>
    obtain ⟨hv, hfew⟩ := cons_subset.mp hfew
    obtain ⟨hnot, hnodup⟩ := nodup_cons.mp hnodup
    rw [ih hfew hnodup, degreeIn_erase (v := v) (by simp [hv, hnot]), toFinset_cons,
      Finset.sdiff_insert, flatMap_cons, count_append, count_incident u v, Nat.add_assoc]

namespace Inv

variable {n : Nat} {s : KCoreState} {T : List Nat} {w : c.Workers}

theorem start : c.Inv (c.left c.start) c.start [] := by
  have hkept : c.kept c.start = c.vertices.toFinset \ c.start.next.toFinset := by
    ext v
    simp only [mem_kept, KCore.start, Finset.mem_sdiff, mem_toFinset, decide_eq_false_iff_not]
  refine ⟨fun u _ => ?_, fun u hu => ?_, fun S hS v hv => ?_,
    fun u => ⟨Int.natCast_nonneg _, Int.le_refl _⟩, Nat.le_refl _⟩
  · rw [hkept, nil_append]
    exact congrArg Int.ofNat (length_incident (filter_subset_self _) (c.nodup.filter _))
  · obtain ⟨hu, hnot⟩ := mem_kept.mp hu
    simpa [KCore.start, hu] using hnot
  · have hle : c.degreeIn S v ≤ (c.incident v).length := countP_le_length
    have := hS.2 v hv
    rw [mem_kept, KCore.start]
    refine ⟨mem_toFinset.mp (hS.1 hv), ?_⟩
    simp
    omega

theorem relax (h : c.Inv n s (u :: T)) (hu : u ∈ c.vertices) : c.Inv n (c.relax s u) T := by
  unfold KCore.relax
  by_cases hremoved : s.removed u = true
  · rw [if_pos hremoved]
    refine ⟨fun x hx => ?_, h.enough, h.outside, h.range, h.left⟩
    have hne : u ≠ x := fun heq => by simp [mem_kept, ← heq, hremoved] at hx
    rw [h.degree x hx, cons_append, count_cons_of_ne hne]
  · have hin : u ∈ c.kept s := mem_kept.mpr ⟨hu, by simpa using hremoved⟩
    have hdegree : ∀ x ∈ c.kept s, update s.degree u (s.degree u - 1) x =
        (c.degreeIn (c.kept s) x + (T ++ s.next.flatMap c.incident).count x : Nat) := by
      intro x hx
      have hdegree := h.degree x hx
      by_cases hxu : x = u
      · subst hxu
        rw [cons_append, count_cons_self] at hdegree
        rw [update_self]
        omega
      · rw [cons_append, count_cons_of_ne (Ne.symm hxu)] at hdegree
        exact (update_of_ne hxu _ _).trans hdegree
    have hrange : ∀ x, 0 ≤ update s.degree u (s.degree u - 1) x ∧
        update s.degree u (s.degree u - 1) x ≤ (c.incident x).length := by
      intro x
      have hx := h.range x
      by_cases hxu : x = u
      · subst hxu
        have hnonneg := hdegree x hin
        rw [update_self] at *
        omega
      · rwa [update_of_ne hxu]
    rw [if_neg hremoved]
    dsimp only
    split
    next hlow =>
      have hkept : c.kept ⟨update s.degree u (s.degree u - 1), update s.removed u true,
          s.next ++ [u]⟩ = (c.kept s).erase u := by
        ext x
        by_cases hx : x = u <;> simp [mem_kept, hx]
      refine ⟨?_, ?_, fun S hS => ?_, hrange, ?_⟩ <;>
        simp only [KCore.left, hkept, Finset.mem_erase, and_imp]
      · intro x hne hx
        rw [hdegree x hx, degreeIn_erase hin, ← count_incident]
        simp only [flatMap_append, flatMap_singleton, count_append]
        omega
      · intro x hne hx
        exact (h.enough x hx).trans_eq (update_of_ne hne _ _).symm
      · refine Finset.subset_erase.mpr ⟨h.outside S hS, fun huS => ?_⟩
        have := hS.2 u huS
        have := hdegree u hin
        have := c.degreeIn_mono (h.outside S hS) u
        rw [update_self] at *
        omega
      · have := h.left
        have := Finset.card_erase_add_one hin
        rw [length_append, length_singleton]
        rw [KCore.left] at *
        omega
    next hlow =>
      refine ⟨hdegree, fun x hx => ?_, h.outside, hrange, h.left⟩
      have := h.enough x hx
      dsimp only
      rw [update_apply]
      split
      next heq =>
        subst heq
        omega
      · exact this

theorem foldl_relax {l : List Nat} (h : c.Inv n s (l ++ T)) (hl : l ⊆ c.vertices) :
    c.Inv n (l.foldl c.relax s) T := by
  induction l generalizing s with
  | nil => exact h
  | cons u l ih =>
    obtain ⟨hu, hl⟩ := cons_subset.mp hl
    exact ih (h.relax hu) hl

theorem round (h : c.Inv n s []) : c.Inv (c.kept s).card (c.round w s) [] := by
  refine foldl_relax ⟨fun u hu => ?_, h.enough, h.outside, h.range, Nat.le_refl _⟩ fun u hu => ?_
  · rw [h.degree u hu, append_nil, nil_append, flatMap_nil, append_nil, (w.perm _).count_eq]
    rfl
  · obtain ⟨v, -, hend⟩ := mem_flatMap.mp ((w.perm _).subset hu)
    exact mem_vertices_of_mem_incident hend

end Inv

/-- Degrees only fall, so one that fits a machine word in the beginning never leaves it. -/
theorem exists_compute (c : KCore) (w : c.Workers) : ∃ s, Returns (c.compute w) s ∧
    c.IsCore (c.kept s) ∧ (∀ v ∈ c.kept s, s.degree v = c.degreeIn (c.kept s) v) ∧
    ∀ v, 0 ≤ s.degree v ∧ s.degree v ≤ (c.incident v).length := by
  have hround : ∀ s, (∃ n, c.Inv n s []) → (!s.next.isEmpty) = true →
      (∃ n, c.Inv n (c.round w s) []) ∧ c.left (c.round w s) < c.left s := by
    rintro s ⟨n, hs⟩ hnext
    have hpos : 0 < s.next.length := length_pos_iff.mpr (by simpa using hnext)
    have := hs.round (w := w)
    exact ⟨⟨_, this⟩, this.left.trans_lt (Nat.lt_add_of_pos_right hpos)⟩
  obtain ⟨s, hs⟩ := exists_whileLoop_of_measure c.left ⟨_, .start⟩ hround
  obtain ⟨⟨n, hinv⟩, hnext⟩ := whileLoop_invariant hs ⟨_, .start⟩
    fun s hs hnext => (hround s hs hnext).1
  have hdegree : ∀ v ∈ c.kept s, s.degree v = c.degreeIn (c.kept s) v := by
    intro v hv
    rw [hinv.degree v hv, show s.next = [] by simpa using hnext]
    rfl
  refine ⟨s, ⟨_, hs⟩, ⟨⟨?_, ?_⟩, hinv.outside⟩, hdegree, hinv.range⟩
  · exact fun v hv => mem_toFinset.mpr (mem_kept.mp hv).1
  · exact fun v hv => (hinv.enough v hv).trans_eq (hdegree v hv)

/-- In whatever order the workers come to the edges, the algorithm ends, and it reports the core
number of every vertex that it keeps exactly if vertices joined inside the `k`-core have equally
many edge ends there. -/
theorem reports_core_numbers_iff (c : KCore) (w : c.Workers) : ∃ s, Returns (c.compute w) s ∧
    ((∀ v ∈ c.kept s, ∃ d : Nat, c.IsCoreNumber v d ∧ (v, (d : Int)) ∈ c.sink s) ↔
      ∀ C, c.IsCore C → ∀ u ∈ C, ∀ v ∈ C, v ∈ c.incident u →
        c.degreeIn C u = c.degreeIn C v) := by
  obtain ⟨s, hs, hcore, hdegree, -⟩ := c.exists_compute w
  have hrow : ∀ v ∈ c.kept s, ∀ d : Nat,
      (v, (d : Int)) ∈ c.sink s ↔ d = c.degreeIn (c.kept s) v := by
    intro v hv d
    obtain ⟨hvert, hkept⟩ := mem_kept.mp hv
    have hd := hdegree v hv
    simp [sink, hvert, hkept]
    omega
  refine ⟨s, hs, Iff.trans ?_ (hcore.isCoreNumber_iff.trans
    ⟨fun h C hC => hC.unique hcore ▸ h, fun h => h _ hcore⟩)⟩
  refine forall₂_congr fun v hv => ?_
  simp only [hrow v hv, exists_eq_right]

/-- The two ends of a path of two edges have one edge each, so no vertex has core number 2. -/
theorem middle_of_path : ∃ c : KCore, c.k = 1 ∧
    (∀ w, (c.compute w 1).map c.sink = some [(0, 1), (1, 2), (2, 1)]) ∧ ¬c.IsCoreNumber 1 2 := by
  refine ⟨⟨⟨.ofEdges [⟨0, 0, 0⟩] [⟨⟨0, 0, 0⟩, 0, 1, 0⟩, ⟨⟨0, 0, 0⟩, 1, 2, 0⟩]
    (by decide) (by decide), ⟨0, 0, 0⟩, [0, 1, 2], by decide⟩, 1, by decide⟩, rfl, fun _ => rfl, ?_⟩
  rintro ⟨⟨S, hmiddle, hS⟩, -⟩
  have hmiddle : 2 ≤ [2, 0].countP (· ∈ S) := by exact_mod_cast hS.2 1 hmiddle
  have hends : 0 ∈ S := by
    by_contra hnot
    simp [countP_cons, hnot] at hmiddle
    split at hmiddle <;> omega
  have hend : 2 ≤ [1].countP (· ∈ S) := by exact_mod_cast hS.2 0 hends
  exact absurd (hend.trans countP_le_length) (by decide)

/-- In whatever order the workers come to the edges, the algorithm ends with the largest set of
vertices with `k` edge ends inside, and none of its 32-bit degrees overflows.  The vertices are
reported with the edge ends that they have inside. -/
theorem reports_core (c : KCore) (w : c.Workers)
    (hfits : ∀ v ∈ c.vertices, (c.incident v).length < 2 ^ 31) : ∃ s C,
      Returns (c.compute w) s ∧ (∀ v ∈ c.vertices, 0 ≤ s.degree v ∧ s.degree v < 2 ^ 31) ∧
      c.IsCore C ∧
      c.sink s = c.vertices.map fun v => (v, if v ∈ C then (c.degreeIn C v : Int) else -1) := by
  obtain ⟨s, hs, hcore, hdegree, hrange⟩ := c.exists_compute w
  refine ⟨s, c.kept s, hs, fun v hv => ?_, hcore, map_congr_left fun v hv => ?_⟩
  · have := hfits v hv
    have := hrange v
    omega
  · by_cases hkept : v ∈ c.kept s
    · rw [if_pos hkept, if_neg (by simp [mem_kept.mp hkept]), hdegree v hkept]
    · rw [if_neg hkept, if_pos (by simpa [mem_kept, hv] using hkept)]

/-- A loop at 0 and an edge to 1. -/
def loop : KCore :=
  ⟨⟨.ofEdges [⟨0, 0, 0⟩] [⟨⟨0, 0, 0⟩, 0, 0, 0⟩, ⟨⟨0, 0, 0⟩, 0, 1, 0⟩] (by decide) (by decide),
    ⟨0, 0, 0⟩, [0, 1], by decide⟩, 2, by decide⟩

theorem reports_core_loop : ∃ w : loop.Workers,
    (loop.compute w 2).map loop.sink = some [(0, 2), (1, -1)] ∧ ∃ s C,
      Returns (loop.compute w) s ∧ (∀ v ∈ [0, 1], 0 ≤ s.degree v ∧ s.degree v < 2 ^ 31) ∧
      loop.IsCore C ∧
      loop.sink s = [0, 1].map fun v => (v, if v ∈ C then (loop.degreeIn C v : Int) else -1) :=
  ⟨⟨fun s => s.next.flatMap loop.incident, fun _ => .rfl⟩, rfl, reports_core loop _ (by decide)⟩

end KCore

end Neug.Gds
