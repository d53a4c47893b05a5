import Neug.Library.Walks

/-! # Breadth-first layers

A breadth-first search keeps the vertices it has seen and the vertices it found last.  One
round looks at the steps that leave the latter and keeps, for each vertex not seen before,
the first step that leads to it.  Whether the root counts as seen at the start is left open:
if it does not, the root is found again when the search comes back to it.
-/

namespace Library

open List

variable {V S : Type*}

namespace StepGraph

variable (G : StepGraph V S)

/-- The steps that leave a list of vertices, each with the vertex it leaves. -/
def candidates (level : List V) : List (V × S) :=
  level.flatMap fun y => (G.next y).map (Prod.mk y)

/-- The candidates that lead to a vertex not seen before. -/
def fresh [DecidableEq V] : (V → Bool) → List (V × S) → List (V × S)
  | _, [] => []
  | seen, c :: cs =>
    if seen (G.target c.2) then fresh seen cs
    else c :: fresh (fun x => seen x || x = G.target c.2) cs

variable {G} {seen : V → Bool} {cs : List (V × S)} {x y : V} {s : S}

theorem mem_candidates {level : List V} :
    (y, s) ∈ G.candidates level ↔ y ∈ level ∧ s ∈ G.next y := by
  simp only [candidates, mem_flatMap, mem_map, Prod.mk.injEq]
  constructor
  · rintro ⟨z, hz, t, ht, rfl, rfl⟩
    exact ⟨hz, ht⟩
  · rintro ⟨hy, hs⟩
    exact ⟨y, hy, s, hs, rfl, rfl⟩

section Fresh

variable [DecidableEq V]

theorem fresh_sublist : (G.fresh seen cs).Sublist cs := by
  induction cs generalizing seen with
  | nil => exact Sublist.refl _
  | cons c cs ih =>
    rw [fresh]
    split_ifs
    · exact ih.cons c
    · exact ih.cons_cons c

theorem mem_map_target_fresh : x ∈ (G.fresh seen cs).map (fun c => G.target c.2) ↔
      seen x = false ∧ ∃ c ∈ cs, G.target c.2 = x := by
  induction cs generalizing seen with
  | nil => simp [fresh]
  | cons c cs ih =>
    rw [fresh]
    by_cases hseen : seen (G.target c.2) = true
    · rw [if_pos hseen, ih]
      refine and_congr_right fun hx => ?_
      constructor
      · rintro ⟨c', hc', heq⟩
        exact ⟨c', mem_cons_of_mem c hc', heq⟩
      · rintro ⟨c', hc', rfl⟩
        rcases mem_cons.mp hc' with rfl | hc'
        · rw [hseen] at hx
          cases hx
        · exact ⟨c', hc', rfl⟩
    · rw [if_neg hseen, map_cons, mem_cons, ih]
      simp only [Bool.or_eq_false_iff, decide_eq_false_iff_not]
      constructor
      · rintro (rfl | ⟨⟨hx, -⟩, c', hc', heq⟩)
        · exact ⟨by simpa using hseen, c, mem_cons_self, rfl⟩
        · exact ⟨hx, c', mem_cons_of_mem c hc', heq⟩
      · rintro ⟨hx, c', hc', rfl⟩
        by_cases heq : G.target c'.2 = G.target c.2
        · exact .inl heq
        · refine .inr ⟨⟨hx, heq⟩, c', ?_, rfl⟩
          refine (mem_cons.mp hc').resolve_left ?_
          rintro rfl
          exact heq rfl

theorem nodup_map_target_fresh : ((G.fresh seen cs).map fun c => G.target c.2).Nodup := by
  induction cs generalizing seen with
  | nil => simp [fresh]
  | cons c cs ih =>
    rw [fresh]
    split_ifs
    · exact ih
    · rw [map_cons, nodup_cons]
      refine ⟨?_, ih⟩
      rw [mem_map_target_fresh]
      simp

/-- Only what has been seen of the candidates' targets matters. -/
theorem fresh_congr {seen' : V → Bool} (h : ∀ c ∈ cs, seen (G.target c.2) = seen' (G.target c.2)) :
    G.fresh seen cs = G.fresh seen' cs := by
  induction cs generalizing seen seen' with
  | nil => rfl
  | cons c cs ih =>
    have htail : ∀ c' ∈ cs, seen (G.target c'.2) = seen' (G.target c'.2) :=
      fun c' hc' => h c' (mem_cons_of_mem c hc')
    rw [fresh, fresh, h c mem_cons_self, ih htail,
      @ih (fun x => seen x || x = G.target c.2) (fun x => seen' x || x = G.target c.2)
        fun c' hc' => by rw [htail c' hc']]

/-- A loop over candidates that adds those not seen adds the fresh ones. -/
theorem foldl_eq_foldl_fresh {σ : Type*} (seenIn : σ → V → Bool) (add : σ → V × S → σ)
    (hadd : ∀ st c x, seenIn (add st c) x = (seenIn st x || x = G.target c.2)) (st : σ)
    (cs : List (V × S)) :
    cs.foldl (fun st c => if seenIn st (G.target c.2) then st else add st c) st =
      (G.fresh (seenIn st) cs).foldl add st := by
  induction cs generalizing st with
  | nil => rfl
  | cons c cs ih =>
    rw [foldl_cons, ih, fresh]
    split_ifs with hseen
    · rfl
    · rw [foldl_cons]
      congr 2
      funext x
      exact hadd st c x

end Fresh

/-- A loop over vertices and the steps that leave them is a loop over candidates. -/
theorem foldl_foldl_next {σ : Type*} (f : σ → V × S → σ) (st : σ) (level : List V) :
    level.foldl (fun st y => (G.next y).foldl (fun st s => f st (y, s)) st) st =
      (G.candidates level).foldl f st := by
  rw [candidates, foldl_flatMap]
  simp only [foldl_map]

/-! ## Layers -/

variable (G) in
/-- The vertices at the first number of steps, from `least` on, that reaches them. -/
def IsFirst (least : Nat) (v x : V) (d : Nat) : Prop :=
  least ≤ d ∧ G.Reaches v x d ∧ ∀ k, least ≤ k → k < d → ¬ G.Reaches v x k

variable {least k d d' : Nat} {root v : V} {level : List V}

theorem isFirst_zero : G.IsFirst 0 v x d ↔ G.IsDist v x d := by
  simp [IsFirst, IsDist]

theorem IsFirst.unique (h : G.IsFirst least v x d) (h' : G.IsFirst least v x d') : d = d' := by
  have hle : d ≤ d' := Nat.not_lt.mp fun hlt => h.2.2 d' h'.1 hlt h'.2.1
  have hge : d' ≤ d := Nat.not_lt.mp fun hlt => h'.2.2 d h.1 hlt h.2.1
  omega

/-- What is reached in at least `least` steps is reached first at some number of steps. -/
theorem Reaches.exists_isFirst (h : G.Reaches v x k) (hle : least ≤ k) :
    ∃ d ≤ k, G.IsFirst least v x d := by
  classical
  have hex : ∃ d, least ≤ d ∧ G.Reaches v x d := ⟨k, hle, h⟩
  refine ⟨Nat.find hex, Nat.find_min' hex ⟨hle, h⟩, (Nat.find_spec hex).1,
    (Nat.find_spec hex).2, ?_⟩
  intro j hj hlt hreach
  exact Nat.find_min hex hlt ⟨hj, hreach⟩

/-- What the search finds in one round leads back to what it found in the round before. -/
theorem IsFirst.exists_pred (h : G.IsFirst (min least (d + 1)) v x (d + 1)) :
    ∃ y, G.IsFirst (min least d) v y d ∧ ∃ s ∈ G.next y, G.target s = x := by
  obtain ⟨y, hy, s, hs, rfl⟩ := reaches_succ.mp h.2.1
  refine ⟨y, ⟨Nat.min_le_right _ _, hy, ?_⟩, s, hs, rfl⟩
  intro j hj hlt hreach
  exact h.2.2 (j + 1) (by omega) (by omega) (hreach.concat hs)

theorem IsFirst.exists_of_le (h : G.IsFirst (min least d) v x d) (hle : k ≤ d) :
    ∃ y, G.IsFirst (min least k) v y k := by
  induction d generalizing x with
  | zero =>
    obtain rfl : k = 0 := by omega
    exact ⟨x, h⟩
  | succ d ih =>
    rcases Nat.lt_or_ge d k with hlt | hge
    · obtain rfl : k = d + 1 := by omega
      exact ⟨x, h⟩
    · obtain ⟨y, hy, -⟩ := h.exists_pred
      exact ih hy hge

theorem IsDist.exists_of_le (h : G.IsDist v x d) (hle : k ≤ d) : ∃ y, G.IsDist v y k := by
  have hfirst : G.IsFirst (min 0 d) v x d := by rwa [Nat.zero_min, isFirst_zero]
  simpa [isFirst_zero] using hfirst.exists_of_le hle

variable (G) in
/-- After `k` rounds the last level holds the vertices first reached by `k` steps, and the
vertices seen are those reached by `least` to `k` steps. -/
structure Layered (least : Nat) (root : V) (k : Nat) (seen : V → Bool) (level : List V) : Prop where
  mem_level : ∀ x, x ∈ level ↔ G.IsFirst (min least k) root x k
  nodup_level : level.Nodup
  seen_iff : ∀ x, seen x = true ↔ ∃ d ≤ k, G.IsFirst least root x d

/-- The start of a search whose root counts as seen. -/
theorem layered_marked (hseen : ∀ x, seen x = true ↔ x = root) :
    G.Layered 0 root 0 seen [root] := by
  refine ⟨fun x => ?_, nodup_singleton root, fun x => ?_⟩
  · rw [mem_singleton, Nat.min_self, isFirst_zero, isDist_zero]
  · rw [hseen]
    constructor
    · intro hx
      exact ⟨0, le_rfl, isFirst_zero.mpr (isDist_zero.mpr hx)⟩
    · rintro ⟨d, hd, hfirst⟩
      obtain rfl : d = 0 := by omega
      exact isDist_zero.mp (isFirst_zero.mp hfirst)

/-- The start of a search whose root does not count as seen. -/
theorem layered_unmarked (hseen : ∀ x, seen x = false) : G.Layered 1 root 0 seen [root] := by
  refine ⟨fun x => ?_, nodup_singleton root, fun x => ?_⟩
  · rw [mem_singleton, Nat.min_zero, isFirst_zero, isDist_zero]
  · rw [hseen]
    constructor
    · intro h
      cases h
    · rintro ⟨d, hd, hfirst⟩
      have := hfirst.1
      omega

/-- One round leads from each layer to the next. -/
theorem Layered.next [DecidableEq V] (h : G.Layered least root k seen level)
    (hleast : least ≤ k + 1)
    {seen' : V → Bool} {level' : List V}
    (hlevel : level' = (G.fresh seen (G.candidates level)).map fun c => G.target c.2)
    (hseen : ∀ x, seen' x = true ↔ seen x = true ∨ x ∈ level') :
    G.Layered least root (k + 1) seen' level' := by
  have hmem : ∀ x, x ∈ level' ↔ G.IsFirst least root x (k + 1) := by
    intro x
    rw [hlevel, mem_map_target_fresh]
    constructor
    · rintro ⟨hx, ⟨y, s⟩, hc, rfl⟩
      obtain ⟨hy, hs⟩ := mem_candidates.mp hc
      refine ⟨hleast, ((h.mem_level y).mp hy).2.1.concat hs, ?_⟩
      intro j hj hlt hreach
      -- an earlier visit would have been seen
      obtain ⟨d, hd, hfirst⟩ := hreach.exists_isFirst hj
      have := (h.seen_iff _).mpr ⟨d, by omega, hfirst⟩
      rw [hx] at this
      cases this
    · rintro ⟨-, hreach, hmin⟩
      obtain ⟨y, hy, s, hs, rfl⟩ := reaches_succ.mp hreach
      refine ⟨?_, (y, s),
        mem_candidates.mpr ⟨(h.mem_level y).mpr ⟨Nat.min_le_right _ _, hy, ?_⟩, hs⟩, rfl⟩
      · by_contra hx
        obtain ⟨d, hd, hfirst⟩ := (h.seen_iff _).mp (by simpa using hx)
        exact hmin d hfirst.1 (by omega) hfirst.2.1
      · intro j hj hlt hyj
        exact hmin (j + 1) (by omega) (by omega) (hyj.concat hs)
  refine ⟨fun x => ?_, ?_, fun x => ?_⟩
  · rw [hmem, Nat.min_eq_left hleast]
  · rw [hlevel]
    exact nodup_map_target_fresh
  · rw [hseen, h.seen_iff, hmem]
    constructor
    · rintro (⟨d, hd, hfirst⟩ | hfirst)
      · exact ⟨d, by omega, hfirst⟩
      · exact ⟨k + 1, le_rfl, hfirst⟩
    · rintro ⟨d, hd, hfirst⟩
      rcases Nat.lt_or_ge k d with hlt | hge
      · obtain rfl : d = k + 1 := by omega
        exact .inr hfirst
      · exact .inl ⟨d, hge, hfirst⟩

end StepGraph

end Library
