import Neug.Execution.AllShortestPaths
import Mathlib.Data.Finset.Card

/-! # All shortest paths from a vertex to itself

The searches do not notice that they start from one vertex.  The search from the source goes on
alone as long as its levels hold one vertex; at the first level with two vertices the other search
takes its first level, and finds vertices that the first one knows.  Only then is the empty path
listed.  The level whose depth is stored as -1 stays unmarked, so that its vertices are found
again, and repeated ones count repeatedly.
-/

namespace Neug.Execution

open Library Function List StepGraph

theorem two_le_length_iff {α : Type*} {l : List α} (hnodup : l.Nodup) :
    2 ≤ l.length ↔ ∃ a ∈ l, ∃ b ∈ l, a ≠ b := by
  classical
  have hcard := @Finset.one_lt_card _ l.toFinset
  simp only [toFinset_card_of_nodup hnodup, mem_toFinset] at hcard
  exact hcard

theorem int8_cases {n : Nat} (h : n ≤ 255) : n < 128 ∧ int8 n = n ∨ 128 ≤ n ∧ int8 n = n - 256 := by
  rw [int8, Int.bmod_def]
  omega

namespace AllShortest

variable {S : Type} {G : StepGraph Nat S} {s k upper x y z : Nat} {st : MeetState}

/-! ## How the loop ends -/

def Closes (G : StepGraph Nat S) (upper : Nat) (st : MeetState) : Prop :=
  ∃ n st', whileLoop (goesOn upper) (expand G) n st = some st' ∧ st'.vec ≠ [] ∧
    st'.dep .fromSrc + st'.dep .fromDst < upper

theorem closes_expand_iff (h : goesOn upper st = true) :
    Closes G upper st ↔ Closes G upper (expand G st) := by
  constructor
  · rintro ⟨n, st', hst', hclosed⟩
    cases n with
    | zero => cases hst'
    | succ n =>
      rw [whileLoop_of_guard h] at hst'
      exact ⟨n, st', hst', hclosed⟩
  · rintro ⟨n, st', hst', hclosed⟩
    exact ⟨n + 1, st', by rw [whileLoop_of_guard h, hst'], hclosed⟩

theorem closes_iff_of_stop (h : goesOn upper st = false) :
    Closes G upper st ↔ st.vec ≠ [] ∧ st.dep .fromSrc + st.dep .fromDst < upper := by
  constructor
  · rintro ⟨n, st', hst', hclosed⟩
    cases n with
    | zero => cases hst'
    | succ n =>
      rw [whileLoop_of_not_guard h] at hst'
      cases hst'
      exact hclosed
  · intro hclosed
    exact ⟨1, st, whileLoop_of_not_guard h, hclosed⟩

/-! ## One search alone -/

structure Alone (s : Nat) (st : MeetState) : Prop where
  vec : st.vec = []
  queue : st.queue .fromDst = [s]
  dep : st.dep .fromDst = 0
  other : ∀ x, st.dist .fromDst x ≠ -1 ↔ x = s
  found : st.dist .fromSrc s ≠ -1

namespace Alone

section

variable (h : Alone s st)
include h

theorem turn_src (hlen : (st.queue .fromSrc).length ≤ 1) : st.turn = .fromSrc := by
  refine if_pos ?_
  rw [h.queue]
  exact hlen

theorem turn_dst (hlen : 2 ≤ (st.queue .fromSrc).length) : st.turn = .fromDst := by
  refine if_neg ?_
  rw [h.queue, length_singleton]
  omega

theorem goesOn (hqueue : st.queue .fromSrc ≠ []) (hdep : st.dep .fromSrc < upper)
    (hupper : 0 < upper) : goesOn upper st = true := by
  refine goesOn_iff.mpr ⟨hdep, by rw [h.dep]; omega, h.vec, ?_⟩
  cases st.turn with
  | fromSrc => exact hqueue
  | fromDst =>
    rw [h.queue]
    exact cons_ne_nil s []

theorem not_closes (hstop : AllShortest.goesOn upper st = false) : ¬ Closes G upper st := by
  rw [closes_iff_of_stop hstop]
  exact fun hclosed => hclosed.1 h.vec

theorem not_closes_of_nil (hqueue : st.queue .fromSrc = []) : ¬ Closes G upper st := by
  refine h.not_closes (Bool.eq_false_iff.mpr fun hgoes => ?_)
  exact queue_ne_nil (goesOn_iff.mp hgoes).2.2.2 hqueue

theorem not_closes_of_le (hdep : (upper : Int) ≤ st.dep .fromSrc) : ¬ Closes G upper st := by
  refine h.not_closes (Bool.eq_false_iff.mpr fun hgoes => ?_)
  have := (goesOn_iff.mp hgoes).1
  omega

section

variable (hlen : (st.queue .fromSrc).length ≤ 1)
include hlen

theorem dist_expand :
    (expand G st).dist .fromSrc x = if x ∈ foundBy G .fromSrc st then int8 (st.dep .fromSrc + 1)
      else st.dist .fromSrc x := by
  have := expand_dist_turn G st
  rw [h.turn_src hlen] at this
  rw [this]

theorem queue_expand : (expand G st).queue .fromSrc = foundBy G .fromSrc st := by
  have := expand_queue_turn G st
  rw [h.turn_src hlen] at this
  exact this

theorem dep_expand : (expand G st).dep .fromSrc = int8 (st.dep .fromSrc + 1) := by
  have := expand_dep_turn G st
  rw [h.turn_src hlen] at this
  exact this

theorem found_expand (hx : st.dist .fromSrc x ≠ -1) : (expand G st).dist .fromSrc x ≠ -1 := by
  rw [h.dist_expand hlen, if_neg fun hmem => hx (mem_foundBy.mp hmem).2]
  exact hx

theorem expand : Alone s (expand G st) := by
  have hturn := h.turn_src hlen
  have hother : Side.fromDst ≠ st.turn := by rw [hturn]; decide
  refine ⟨?_, ?_, ?_, ?_, h.found_expand hlen h.found⟩
  · rw [expand_vec, h.vec, nil_append, filter_eq_nil_iff, hturn]
    intro x hx
    -- the other search knows only `s`, which is not found again
    rw [decide_eq_true_eq]
    intro hknown
    obtain rfl := (h.other x).mp hknown
    exact h.found (mem_foundBy.mp hx).2
  · rw [expand_queue_of_ne G hother, h.queue]
  · rw [expand_dep_of_ne G hother, h.dep]
  · rw [expand_dist_of_ne G hother]
    exact h.other

end

theorem closes_expand (hlen : (st.queue .fromSrc).length = 1)
    (hdep : st.dep .fromSrc < upper) (hupper : 0 < upper) :
    Closes G upper st ↔ Closes G upper (AllShortest.expand G st) :=
  closes_expand_iff (h.goesOn (ne_nil_of_length_pos (by omega)) hdep hupper)

/-- At a level of two vertices the other search takes its first level and meets the first one. -/
theorem closes_iff_of_two (hlen : 2 ≤ (st.queue .fromSrc).length)
    (hnear : ∃ y, G.IsDist s y 1 ∧ st.dist .fromSrc y ≠ -1) (hdep : st.dep .fromSrc < upper)
    (hupper : 0 < upper) : Closes G upper st ↔ st.dep .fromSrc + 1 < upper := by
  obtain ⟨y, hy, hknown⟩ := hnear
  have hturn := h.turn_dst hlen
  have hvec : (AllShortest.expand G st).vec ≠ [] := by
    refine ne_nil_of_mem (a := y) ?_
    rw [expand_vec, hturn]
    refine mem_append_right _ (mem_filter.mpr ⟨mem_foundBy.mpr ⟨⟨s, ?_, ?_⟩, ?_⟩, ?_⟩)
    · rw [h.queue]
      exact mem_singleton_self s
    · exact reaches_one.mp hy.1
    · by_contra hfound
      obtain rfl := (h.other y).mp hfound
      have := hy.unique (isDist_self y)
      omega
    · exact decide_eq_true hknown
  have hstop : AllShortest.goesOn upper (AllShortest.expand G st) = false :=
    Bool.eq_false_iff.mpr fun hgoes => hvec (goesOn_iff.mp hgoes).2.2.1
  have hsrc : (AllShortest.expand G st).dep .fromSrc = st.dep .fromSrc :=
    expand_dep_of_ne G (by rw [hturn]; decide)
  have hdst : (AllShortest.expand G st).dep .fromDst = 1 := by
    have := expand_dep_turn G st
    rw [hturn, h.dep] at this
    exact this
  rw [closes_expand_iff (h.goesOn (ne_nil_of_length_pos (by omega)) hdep hupper),
    closes_iff_of_stop hstop, hsrc, hdst]
  exact and_iff_right hvec

/-- How the loop goes on from a level: it ends if the level is empty, and the searches meet at two
vertices. -/
theorem closes_iff_of_level {P Q : Prop} (hnear : ∃ y, G.IsDist s y 1 ∧ st.dist .fromSrc y ≠ -1)
    (hdep : st.dep .fromSrc + 1 < upper) (hupper : 0 < upper)
    (htwo : 2 ≤ (st.queue .fromSrc).length ↔ P) (hnone : st.queue .fromSrc = [] → ¬ Q)
    (hone : ∀ u, st.queue .fromSrc = [u] → (Closes G upper st ↔ Q)) :
    Closes G upper st ↔ P ∨ Q := by
  rw [← htwo]
  rcases hqueue : st.queue .fromSrc with _ | ⟨u, _ | ⟨v, us⟩⟩
  · exact iff_of_false (h.not_closes_of_nil hqueue) fun hor => hor.elim nofun (hnone hqueue)
  · rw [hone u hqueue, or_iff_right (by simp)]
  · have hlen : 2 ≤ (st.queue .fromSrc).length := by
      rw [hqueue]
      exact Nat.le_add_left 2 us.length
    rw [h.closes_iff_of_two hlen hnear (by omega) hupper]
    exact iff_of_true hdep (.inl (hqueue ▸ hlen))

end

end Alone

theorem alone_init (s : Nat) : Alone s (meetInit s s) := by
  have hdst : (meetInit s s).dist .fromDst = update (fun _ => (-1 : Int)) s 0 := rfl
  have hsrc : (meetInit s s).dist .fromSrc = update (fun _ => (-1 : Int)) s 0 := rfl
  refine ⟨rfl, rfl, rfl, fun x => ?_, ?_⟩
  · rw [hdst]
    by_cases hx : x = s
    · simp [hx]
    · simp [hx]
  · rw [hsrc, update_self]
    decide

/-! ## When the searches meet -/

def Forks (G : StepGraph Nat S) (s a : Nat) : Prop :=
  ∃ x, G.IsDist s x a ∧ ∃ y, G.IsDist s y a ∧ x ≠ y

/-- A meeting at depth `a` is below the upper bound, and so are the stored depths before it. -/
def Fits (upper a : Nat) : Prop :=
  if a < 128 then a + 1 < upper else 128 ≤ upper

/-- How the searches can still meet after a single vertex at distance 254: over two edges to
vertices at distance 255, or at the two rounds after it, where vertices at distance 255 are found
again. -/
def ForksLate (G : StepGraph Nat S) (s : Nat) : Prop :=
  ∃ w, G.IsDist s w 254 ∧
    ((∃ t ∈ G.next w, G.IsDist s (G.target t) 255 ∧
        ∃ u ∈ G.next w, G.IsDist s (G.target u) 255 ∧ t ≠ u) ∨
      ∃ x, G.IsDist s x 255 ∧ (Forks G s 256 ∨
        ((∃ t ∈ G.next x, G.target t = x) ∧ ∃ y, G.IsDist s y 256) ∨ ∃ y, G.IsDist s y 257))

/-- The searches from `s` and from `s` meet below the upper bound. -/
def MeetsItself (G : StepGraph Nat S) (upper s : Nat) : Prop :=
  (∃ a ≤ 254, Forks G s a ∧ (∀ b < a, ¬ Forks G s b) ∧ Fits upper a) ∨
    (128 ≤ upper ∧ (∀ b ≤ 254, ¬ Forks G s b) ∧ ForksLate G s)

/-- The search from the source has taken `k` levels of one vertex each. -/
structure Lone (G : StepGraph Nat S) (upper s k : Nat) (st : MeetState) : Prop
    extends Alone s st where
  ball : Ball G .fromSrc s k st
  forkless : ∀ b < k, ¬ Forks G s b
  passed : 128 ≤ k → 128 ≤ upper

namespace Lone

section

variable (h : Lone G upper s k st)
include h

theorem two_le_iff_forks : 2 ≤ (st.queue .fromSrc).length ↔ Forks G s k := by
  rw [two_le_length_iff h.ball.layered.nodup_level]
  simp only [h.ball.mem_queue]
  rfl

theorem near (hx : G.IsDist s x k) (hk : 1 ≤ k) :
    ∃ y, G.IsDist s y 1 ∧ st.dist .fromSrc y ≠ -1 := by
  obtain ⟨y, hy⟩ := hx.exists_of_le hk
  exact ⟨y, hy, h.ball.found_iff.mpr ⟨1, hk, hy⟩⟩

theorem isDist_iff {w : Nat} (hqueue : st.queue .fromSrc = [w]) : G.IsDist s x k ↔ x = w := by
  rw [← h.ball.mem_queue, hqueue, mem_singleton]

/-- The stored depth, which wraps at 128, and the bound that was passed then. -/
theorem dep_cases (hk : k ≤ 255) : k < 128 ∧ st.dep .fromSrc = k ∨
    128 ≤ k ∧ st.dep .fromSrc = k - 256 ∧ 128 ≤ upper := by
  rw [h.ball.dep_eq]
  exact (int8_cases hk).imp_right fun hge => ⟨hge.1, hge.2, h.passed hge.1⟩

theorem upper_pos (hk : k ≤ 255) (hdep : st.dep .fromSrc < upper) : 0 < upper := by
  rcases h.dep_cases hk with hlt | hge
  · omega
  · omega

theorem forkless_le (hlen : (st.queue .fromSrc).length = 1) {b : Nat} (hb : b ≤ k) :
    ¬ Forks G s b := by
  rcases hb.lt_or_eq with hlt | rfl
  · exact h.forkless b hlt
  · rw [← h.two_le_iff_forks]
    omega

/-- A level of one vertex, whose depth is not stored as -1 in the next level. -/
theorem next (hlen : (st.queue .fromSrc).length = 1)
    (hdep : st.dep .fromSrc < upper) (hk : k < 254) : Lone G upper s (k + 1) (expand G st) := by
  have hnext : int8 ((k + 1 : Nat) : Int) ≠ -1 := by
    have := int8_cases (show k + 1 ≤ 255 by omega)
    omega
  refine ⟨h.toAlone.expand hlen.le, h.ball.next (h.turn_src hlen.le) hnext,
    fun b hb => h.forkless_le hlen (Nat.le_of_lt_succ hb), fun hge => ?_⟩
  have := h.dep_cases (by omega)
  omega

/-- A meeting needs a vertex at the depth that the search has reached. -/
theorem exists_isDist (hk : k ≤ 254) (hmeets : MeetsItself G upper s) : ∃ x, G.IsDist s x k := by
  rcases hmeets with ⟨a, -, hforks, -⟩ | ⟨-, -, w, hw, -⟩
  · obtain ⟨x, hx, -⟩ := id hforks
    refine hx.exists_of_le (Nat.not_lt.mp fun hlt => ?_)
    exact h.forkless a hlt hforks
  · exact hw.exists_of_le hk

/-- At a stored depth that has reached the upper bound there is no meeting. -/
theorem lt_of_meets (hk : k ≤ 254) (hmeets : MeetsItself G upper s) : st.dep .fromSrc < upper := by
  have hdep := h.dep_cases (by omega)
  rcases hmeets with ⟨a, -, hforks, -, hfits⟩ | ⟨hupper, -⟩
  · have hle : k ≤ a := Nat.not_lt.mp fun hlt => h.forkless a hlt hforks
    unfold Fits at hfits
    split_ifs at hfits <;> omega
  · omega

/-- At the first level of two vertices the searches meet, if this is below the upper bound. -/
theorem meets_iff_of_forks (hk : k ≤ 254) (hforks : Forks G s k) :
    MeetsItself G upper s ↔ st.dep .fromSrc + 1 < upper := by
  have hfits : Fits upper k ↔ st.dep .fromSrc + 1 < upper := by
    have hdep := h.dep_cases (by omega)
    rw [Fits]
    split_ifs <;> omega
  rw [← hfits]
  constructor
  · rintro (⟨a, -, ha, hfirst, hfits⟩ | ⟨-, hnone, -⟩)
    · have hle : k ≤ a := Nat.not_lt.mp fun hlt => h.forkless a hlt ha
      have hge : a ≤ k := Nat.not_lt.mp fun hlt => hfirst k hlt hforks
      rwa [Nat.le_antisymm hle hge]
    · exact absurd hforks (hnone k hk)
  · intro hfits
    exact .inl ⟨k, hk, hforks, h.forkless, hfits⟩

end

end Lone

/-! ## The unmarked level -/

/-- After the level whose depth is stored as -1: the only vertex at distance 255 is in the queue
and not marked. -/
structure Unmarked (G : StepGraph Nat S) (s x : Nat) (st : MeetState) : Prop
    extends Alone s st where
  near : ∃ y, G.IsDist s y 1 ∧ st.dist .fromSrc y ≠ -1
  dep_eq : st.dep .fromSrc = -1
  queue_eq : st.queue .fromSrc = [x]
  unfound : ∀ z, st.dist .fromSrc z = -1 ↔ ∀ d ≤ 254, ¬ G.IsDist s z d
  isDist_iff : ∀ z, G.IsDist s z 255 ↔ z = x

variable {w : Nat}

/-- The steps that lead from the vertex at distance 254 to distance 255. -/
theorem Lone.queue_expand (h : Lone G upper s 254 st) (hqueue : st.queue .fromSrc = [w]) :
    (expand G st).queue .fromSrc =
      ((G.next w).filter fun t => decide (st.dist .fromSrc (G.target t) = -1)).map G.target := by
  rw [h.toAlone.queue_expand (by rw [hqueue]; rfl), foundBy, h.ball.dep_eq]
  have hdep : int8 (int8 (254 : Nat) + 1) = -1 := by decide
  rw [hdep, pushes_eq_filter, hqueue, candidates, flatMap_singleton, map_map, filter_map]
  rfl

theorem nodup_foundBy (hdep : int8 (st.dep .fromSrc + 1) ≠ -1) : (foundBy G .fromSrc st).Nodup := by
  rw [foundBy, pushes_eq_fresh hdep]
  exact nodup_map_target_fresh

theorem foundBy_eq_nil (hqueue : st.queue .fromSrc = [x])
    (hsettled : ∀ t ∈ G.next x, st.dist .fromSrc (G.target t) ≠ -1) :
    foundBy G .fromSrc st = [] := by
  refine eq_nil_iff_forall_not_mem.mpr fun z hz => ?_
  obtain ⟨⟨y, hy, t, ht, rfl⟩, hnew⟩ := mem_foundBy.mp hz
  rw [hqueue, mem_singleton] at hy
  exact hsettled t (hy ▸ ht) hnew

/-- A level whose depth is not stored as -1 marks what it finds. -/
theorem Alone.unfound_expand (h : Alone s st) (hlen : (st.queue .fromSrc).length ≤ 1)
    (hdep : int8 (st.dep .fromSrc + 1) ≠ -1) : (AllShortest.expand G st).dist .fromSrc z = -1 ↔
      st.dist .fromSrc z = -1 ∧ z ∉ foundBy G .fromSrc st := by
  rw [h.dist_expand hlen]
  split_ifs with hmem
  · exact iff_of_false hdep fun hz => hz.2 hmem
  · exact (and_iff_left hmem).symm

theorem Alone.near_expand (h : Alone s st) (hlen : (st.queue .fromSrc).length ≤ 1)
    (hnear : ∃ y, G.IsDist s y 1 ∧ st.dist .fromSrc y ≠ -1) :
    ∃ y, G.IsDist s y 1 ∧ (AllShortest.expand G st).dist .fromSrc y ≠ -1 := by
  obtain ⟨y, hy, hfound⟩ := hnear
  exact ⟨y, hy, h.found_expand hlen hfound⟩

theorem Lone.unfound_iff (h : Lone G upper s k st) :
    st.dist .fromSrc z = -1 ↔ ∀ d ≤ k, ¬ G.IsDist s z d := by
  rw [← not_iff_not, ← ne_eq, h.ball.found_iff]
  push Not
  rfl

theorem Lone.mem_foundBy_iff (h : Lone G upper s 254 st) (hqueue : st.queue .fromSrc = [w]) :
    z ∈ foundBy G .fromSrc st ↔ G.IsDist s z 255 := by
  have hw : G.IsDist s w 254 := (h.isDist_iff hqueue).mpr rfl
  rw [mem_foundBy, h.unfound_iff, hqueue]
  constructor
  · rintro ⟨⟨y, hy, t, ht, rfl⟩, hnew⟩
    obtain rfl := mem_singleton.mp hy
    obtain ⟨d, hd, hdist⟩ := (hw.1.concat ht).exists_isDist
    have : ¬ d ≤ 254 := fun hle => hnew d hle hdist
    obtain rfl : d = 255 := by omega
    exact hdist
  · intro hz
    obtain ⟨y, hy, t, ht, rfl⟩ := hz.exists_pred
    have hmem := h.ball.mem_queue.mpr hy
    rw [hqueue] at hmem
    refine ⟨⟨y, hmem, t, ht, rfl⟩, fun d hd hdist => ?_⟩
    have := hdist.unique hz
    omega

theorem Lone.unmarked (h : Lone G upper s 254 st) (hqueue : st.queue .fromSrc = [w])
    (hnext : (expand G st).queue .fromSrc = [x]) : Unmarked G s x (expand G st) := by
  have hw : G.IsDist s w 254 := (h.isDist_iff hqueue).mpr rfl
  have hlen : (st.queue .fromSrc).length ≤ 1 := by rw [hqueue]; exact le_rfl
  have hdep : int8 (st.dep .fromSrc + 1) = -1 := by
    rw [h.ball.dep_eq]
    decide
  refine ⟨h.toAlone.expand hlen, h.toAlone.near_expand hlen (h.near hw (by decide)), ?_, hnext, ?_,
    ?_⟩
  · rw [h.dep_expand hlen, hdep]
  · intro z
    rw [h.dist_expand hlen, ← h.unfound_iff, hdep]
    split_ifs with hmem
    · exact iff_of_true rfl (mem_foundBy.mp hmem).2
    · rfl
  · intro z
    rw [← h.mem_foundBy_iff hqueue, ← h.toAlone.queue_expand hlen, hnext, mem_singleton]

namespace Unmarked

variable (h : Unmarked G s x st)

include h

theorem isDist_self : G.IsDist s x 255 :=
  (h.isDist_iff x).mpr rfl

theorem length_le : (st.queue .fromSrc).length ≤ 1 := by
  rw [h.queue_eq]
  exact le_rfl

theorem next_dep : int8 (st.dep .fromSrc + 1) = 0 := by
  rw [h.dep_eq]
  decide

/-- The next level finds the vertices at distance 256, and `x` again if it has a loop. -/
theorem mem_foundBy_iff : z ∈ foundBy G .fromSrc st ↔
    (z = x ∧ ∃ t ∈ G.next x, G.target t = x) ∨ G.IsDist s z 256 := by
  rw [mem_foundBy, h.unfound, h.queue_eq]
  constructor
  · rintro ⟨⟨y, hy, t, ht, rfl⟩, hnew⟩
    obtain rfl := mem_singleton.mp hy
    obtain ⟨d, hd, hdist⟩ := (h.isDist_self.1.concat ht).exists_isDist
    have hge : ¬ d ≤ 254 := fun hle => hnew d hle hdist
    obtain rfl | rfl : d = 255 ∨ d = 256 := by omega
    · have heq := (h.isDist_iff _).mp hdist
      exact .inl ⟨heq, t, ht, heq⟩
    · exact .inr hdist
  · rintro (⟨rfl, hloop⟩ | hz)
    · refine ⟨⟨z, mem_singleton_self z, hloop⟩, fun d hd hdist => ?_⟩
      have := hdist.unique h.isDist_self
      omega
    · obtain ⟨y, hy, hstep⟩ := hz.exists_pred
      rw [h.isDist_iff] at hy
      refine ⟨⟨y, mem_singleton.mpr hy, hstep⟩, fun d hd hdist => ?_⟩
      have := hdist.unique hz
      omega

end Unmarked

structure Refound (G : StepGraph Nat S) (s x u : Nat) (st : MeetState) : Prop
    extends Alone s st where
  near : ∃ y, G.IsDist s y 1 ∧ st.dist .fromSrc y ≠ -1
  dep_eq : st.dep .fromSrc = 0
  queue_eq : st.queue .fromSrc = [u]
  unfound : ∀ z, st.dist .fromSrc z = -1 ↔ (∀ d ≤ 254, ¬ G.IsDist s z d) ∧ z ≠ u
  isDist_iff : ∀ z, G.IsDist s z 255 ↔ z = x
  eq_of_isDist : ∀ z, G.IsDist s z 256 → z = u
  settled : ∀ t ∈ G.next x, st.dist .fromSrc (G.target t) ≠ -1
  role : u = x ∨ G.IsDist s u 256

theorem Unmarked.refound {u : Nat} (h : Unmarked G s x st) (hfound : foundBy G .fromSrc st = [u]) :
    Refound G s x u (expand G st) := by
  have hunfound : ∀ z, (expand G st).dist .fromSrc z = -1 ↔ st.dist .fromSrc z = -1 ∧ z ≠ u := by
    intro z
    rw [h.toAlone.unfound_expand h.length_le (by rw [h.next_dep]; decide), hfound, mem_singleton]
  have hmem : ∀ z, z ∈ foundBy G .fromSrc st ↔ z = u := by
    intro z
    rw [hfound, mem_singleton]
  refine ⟨h.toAlone.expand h.length_le, h.near_expand h.length_le h.near, ?_, ?_, fun z => ?_,
    h.isDist_iff, fun z hz => ?_, fun t ht hnew => ?_, ?_⟩
  · rw [h.dep_expand h.length_le, h.next_dep]
  · rw [h.queue_expand h.length_le, hfound]
  · rw [hunfound, h.unfound]
  · exact (hmem z).mp (h.mem_foundBy_iff.mpr (.inr hz))
  · obtain ⟨hnew, hne⟩ := (hunfound _).mp hnew
    refine hne ((hmem _).mp (mem_foundBy.mpr ⟨⟨x, ?_, t, ht, rfl⟩, hnew⟩))
    rw [h.queue_eq]
    exact mem_singleton_self x
  · exact (h.mem_foundBy_iff.mp ((hmem u).mpr rfl)).imp_left And.left

namespace Refound

variable {u : Nat} (h : Refound G s x u st)

include h

theorem isDist_self : G.IsDist s x 255 :=
  (h.isDist_iff x).mpr rfl

theorem length_eq : (st.queue .fromSrc).length = 1 := by
  rw [h.queue_eq]
  rfl

theorem next_dep : int8 (st.dep .fromSrc + 1) = 1 := by
  rw [h.dep_eq]
  decide

/-- A vertex at distance 257 is behind `u`. -/
theorem exists_step (hz : G.IsDist s z 257) : G.IsDist s u 256 ∧
    ∃ t ∈ G.next u, G.target t = z := by
  obtain ⟨v, hv, hstep⟩ := hz.exists_pred
  obtain rfl := h.eq_of_isDist v hv
  exact ⟨hv, hstep⟩

/-- Behind a vertex at distance 256 the vertex `x` is found again. -/
theorem mem_foundBy_iff (hrev : G.Reversible) (hu : G.IsDist s u 256) :
    z ∈ foundBy G .fromSrc st ↔ z = x ∨ G.IsDist s z 257 := by
  rw [mem_foundBy, h.queue_eq, h.unfound]
  constructor
  · rintro ⟨⟨y, hy, t, ht, rfl⟩, hnew, hne⟩
    obtain rfl := mem_singleton.mp hy
    obtain ⟨d, hd, hdist⟩ := (hu.1.concat ht).exists_isDist
    have hge : ¬ d ≤ 254 := fun hle => hnew d hle hdist
    obtain rfl | rfl | rfl : d = 255 ∨ d = 256 ∨ d = 257 := by omega
    · exact .inl ((h.isDist_iff _).mp hdist)
    · exact absurd (h.eq_of_isDist _ hdist) hne
    · exact .inr hdist
  · rintro (rfl | hz)
    · obtain ⟨v, hv, t, ht, rfl⟩ := hu.exists_pred
      rw [h.isDist_iff] at hv
      subst hv
      refine ⟨⟨_, mem_singleton_self _, hrev v t ht⟩, fun d hd hdist => ?_, ?_⟩
      · have := hdist.unique h.isDist_self
        omega
      · intro heq
        have := h.isDist_self.unique (heq ▸ hu)
        omega
    · refine ⟨⟨u, mem_singleton_self u, (h.exists_step hz).2⟩, fun d hd hdist => ?_, ?_⟩
      · have := hdist.unique hz
        omega
      · rintro rfl
        have := hu.unique hz
        omega

/-- If nothing else is found than `x`, then nothing is found after it. -/
theorem not_closes_of_again (hupper : 128 ≤ upper) (hagain : foundBy G .fromSrc st = [x]) :
    ¬ Closes G upper (expand G st) := by
  have halone := h.toAlone.expand (G := G) h.length_eq.le
  have hqueue : (expand G st).queue .fromSrc = [x] := by
    rw [h.toAlone.queue_expand h.length_eq.le, hagain]
  have hlen : ((expand G st).queue .fromSrc).length = 1 := by
    rw [hqueue]
    rfl
  have hdep : (expand G st).dep .fromSrc = 1 := by
    rw [h.dep_expand h.length_eq.le, h.next_dep]
  rw [halone.closes_expand hlen (by rw [hdep]; omega) (by omega)]
  refine (halone.expand hlen.le).not_closes_of_nil ?_
  rw [halone.queue_expand hlen.le]
  exact foundBy_eq_nil hqueue fun t ht => h.found_expand h.length_eq.le (h.settled t ht)

theorem closes_iff (hrev : G.Reversible) (hupper : 128 ≤ upper) :
    Closes G upper st ↔ ∃ y, G.IsDist s y 257 := by
  have halone := h.toAlone.expand (G := G) h.length_eq.le
  have hqueue := h.toAlone.queue_expand (G := G) h.length_eq.le
  have hdep : (expand G st).dep .fromSrc = 1 := by
    rw [h.dep_expand h.length_eq.le, h.next_dep]
  have hnodup : (foundBy G .fromSrc st).Nodup := nodup_foundBy (by rw [h.next_dep]; decide)
  rw [h.toAlone.closes_expand h.length_eq (by rw [h.dep_eq]; omega) (by omega)]
  by_cases hex : ∃ y, G.IsDist s y 257
  · refine iff_of_true ?_ hex
    obtain ⟨y, hy⟩ := hex
    have hmem := fun z => h.mem_foundBy_iff (z := z) hrev (h.exists_step hy).1
    have htwo : 2 ≤ ((expand G st).queue .fromSrc).length := by
      rw [hqueue, two_le_length_iff hnodup]
      refine ⟨x, (hmem x).mpr (.inl rfl), y, (hmem y).mpr (.inr hy), ?_⟩
      rintro rfl
      have := hy.unique h.isDist_self
      omega
    have hnear := h.near_expand h.length_eq.le h.near
    rw [halone.closes_iff_of_two htwo hnear (by rw [hdep]; omega) (by omega), hdep]
    omega
  · refine iff_of_false ?_ hex
    rcases h.role with hloop | hu
    · exact halone.not_closes_of_nil
        (hqueue.trans (foundBy_eq_nil (by rw [h.queue_eq, hloop]) h.settled))
    · refine h.not_closes_of_again hupper (perm_singleton.mp ?_)
      refine (perm_ext_iff_of_nodup hnodup (nodup_singleton x)).mpr fun z => ?_
      rw [h.mem_foundBy_iff hrev hu, mem_singleton]
      exact or_iff_left fun hz => hex ⟨z, hz⟩

end Refound

theorem Unmarked.closes_iff (h : Unmarked G s x st) (hrev : G.Reversible) (hupper : 128 ≤ upper) :
    Closes G upper st ↔ Forks G s 256 ∨
      ((∃ t ∈ G.next x, G.target t = x) ∧ ∃ y, G.IsDist s y 256) ∨ ∃ y, G.IsDist s y 257 := by
  have halone := h.toAlone.expand (G := G) h.length_le
  have hqueue := h.toAlone.queue_expand (G := G) h.length_le
  have hdep : (expand G st).dep .fromSrc = 0 := by
    rw [h.dep_expand h.length_le, h.next_dep]
  have hnodup : (foundBy G .fromSrc st).Nodup := nodup_foundBy (by rw [h.next_dep]; decide)
  have hmem := fun z => h.mem_foundBy_iff (z := z)
  -- two vertices are found if two are at distance 256, or one is and `x` has a loop
  have htwo : 2 ≤ (foundBy G .fromSrc st).length ↔
      Forks G s 256 ∨ ((∃ t ∈ G.next x, G.target t = x) ∧ ∃ y, G.IsDist s y 256) := by
    rw [two_le_length_iff hnodup]
    constructor
    · rintro ⟨a, ha, b, hb, hne⟩
      rcases (hmem a).mp ha with ⟨rfl, hloop⟩ | ha
      · rcases (hmem b).mp hb with ⟨rfl, -⟩ | hb
        · exact absurd rfl hne
        · exact .inr ⟨hloop, b, hb⟩
      · rcases (hmem b).mp hb with ⟨rfl, hloop⟩ | hb
        · exact .inr ⟨hloop, a, ha⟩
        · exact .inl ⟨a, ha, b, hb, hne⟩
    · rintro (⟨a, ha, b, hb, hne⟩ | ⟨hloop, y, hy⟩)
      · exact ⟨a, (hmem a).mpr (.inr ha), b, (hmem b).mpr (.inr hb), hne⟩
      · refine ⟨x, (hmem x).mpr (.inl ⟨rfl, hloop⟩), y, (hmem y).mpr (.inr hy), ?_⟩
        rintro rfl
        have := hy.unique h.isDist_self
        omega
  rw [h.toAlone.closes_expand (by rw [h.queue_eq]; rfl) (by rw [h.dep_eq]; omega) (by omega),
    ← or_assoc]
  rw [← hqueue] at htwo hmem
  refine halone.closes_iff_of_level (h.near_expand h.length_le h.near) (by omega) (by omega) htwo ?_
    fun u hu => (h.refound (hqueue ▸ hu)).closes_iff hrev hupper
  rintro hnil ⟨y, hy⟩
  obtain ⟨v, hv, -⟩ := hy.exists_pred
  exact ne_nil_of_mem ((hmem v).mpr (.inr hv)) hnil

/-- The search has reached distance 254 with one vertex in each level. -/
theorem Lone.closes_iff_forksLate (h : Lone G upper s 254 st) (hrev : G.Reversible)
    (hnodup : ∀ v, (G.next v).Nodup) (hqueue : st.queue .fromSrc = [w]) :
    Closes G upper st ↔ ForksLate G s := by
  have hupper : 128 ≤ upper := h.passed (by decide)
  have hlen : (st.queue .fromSrc).length = 1 := by
    rw [hqueue]
    rfl
  have hw : ∀ v, G.IsDist s v 254 ↔ v = w := fun v => h.isDist_iff hqueue
  have halone := h.toAlone.expand (G := G) hlen.le
  have hdep : (expand G st).dep .fromSrc = -1 := by
    rw [h.dep_expand hlen.le, h.ball.dep_eq]
    decide
  have hnear := h.near_expand hlen.le (h.near ((hw w).mpr rfl) (by decide))
  have hmem : ∀ z, z ∈ (expand G st).queue .fromSrc ↔ G.IsDist s z 255 := by
    intro z
    rw [h.toAlone.queue_expand hlen.le, h.mem_foundBy_iff hqueue]
  -- two entries of the queue are two steps from `w`
  have htwo : 2 ≤ ((expand G st).queue .fromSrc).length ↔
      ∃ t ∈ G.next w, G.IsDist s (G.target t) 255 ∧
        ∃ u ∈ G.next w, G.IsDist s (G.target u) 255 ∧ t ≠ u := by
    have hstep : ∀ t ∈ G.next w, st.dist .fromSrc (G.target t) = -1 ↔
        G.IsDist s (G.target t) 255 := by
      intro t ht
      rw [← h.mem_foundBy_iff hqueue, mem_foundBy, hqueue]
      exact (and_iff_right ⟨w, mem_singleton_self w, t, ht, rfl⟩).symm
    rw [h.queue_expand hqueue, length_map, two_le_length_iff ((hnodup w).filter _)]
    simp only [mem_filter, decide_eq_true_eq]
    constructor
    · rintro ⟨t, ⟨ht, hnew⟩, u, ⟨hu, hnew'⟩, hne⟩
      exact ⟨t, ht, (hstep t ht).mp hnew, u, hu, (hstep u hu).mp hnew', hne⟩
    · rintro ⟨t, ht, hdist, u, hu, hdist', hne⟩
      exact ⟨t, ⟨ht, (hstep t ht).mpr hdist⟩, u, ⟨hu, (hstep u hu).mpr hdist'⟩, hne⟩
  have hgoes : st.dep .fromSrc < upper := by
    rw [h.ball.dep_eq]
    have : int8 (254 : Nat) = -2 := by decide
    omega
  unfold ForksLate
  simp only [h.toAlone.closes_expand hlen hgoes (by omega), hw, exists_eq_left]
  refine halone.closes_iff_of_level hnear (by omega) (by omega) htwo ?_ fun x hx => ?_
  · rintro hnil ⟨x, hx, -⟩
    exact ne_nil_of_mem ((hmem x).mpr hx) hnil
  · have hunmarked := h.unmarked hqueue hx
    simp only [hunmarked.closes_iff hrev hupper, hunmarked.isDist_iff, exists_eq_left]

/-! ## From the start -/

/-- The loop ends at the level that the search has reached, or in the next round. -/
theorem Lone.closes_iff_of_stop (h : Lone G upper s k st) (hk : k ≤ 254)
    (hstop : ¬ (st.dep .fromSrc < upper ∧ (st.queue .fromSrc).length = 1)) :
    Closes G upper st ↔ MeetsItself G upper s := by
  by_cases hdep : st.dep .fromSrc < upper
  · rcases Nat.lt_or_ge (st.queue .fromSrc).length 1 with hzero | hone
    · have hnil := eq_nil_of_length_eq_zero (Nat.lt_one_iff.mp hzero)
      refine iff_of_false (h.not_closes_of_nil hnil) fun hmeets => ?_
      obtain ⟨x, hx⟩ := h.exists_isDist hk hmeets
      exact ne_nil_of_mem (h.ball.mem_queue.mpr hx) hnil
    · have htwo : 2 ≤ (st.queue .fromSrc).length := by
        omega
      have hforks := h.two_le_iff_forks.mp htwo
      obtain ⟨x, hx, y, hy, hne⟩ := id hforks
      have hpos : 1 ≤ k := by
        by_contra hzero
        obtain rfl : k = 0 := by omega
        exact hne ((isDist_zero.mp hx).trans (isDist_zero.mp hy).symm)
      rw [h.closes_iff_of_two htwo (h.near hx hpos) hdep (h.upper_pos (by omega) hdep),
        h.meets_iff_of_forks hk hforks]
  · refine iff_of_false (h.not_closes_of_le (Int.not_lt.mp hdep)) fun hmeets => ?_
    exact hdep (h.lt_of_meets hk hmeets)

theorem Lone.closes_iff {n : Nat} (h : Lone G upper s k st) (hrev : G.Reversible)
    (hnodup : ∀ v, (G.next v).Nodup) (hk : k + n = 254) :
    Closes G upper st ↔ MeetsItself G upper s := by
  induction n generalizing k st with
  | zero =>
    obtain rfl : k = 254 := hk
    by_cases hnext : st.dep .fromSrc < upper ∧ (st.queue .fromSrc).length = 1
    · obtain ⟨w, hw⟩ := length_eq_one_iff.mp hnext.2
      have hforkless : ∀ b ≤ 254, ¬ Forks G s b := fun b hb => h.forkless_le hnext.2 hb
      rw [h.closes_iff_forksLate hrev hnodup hw]
      constructor
      · intro hlate
        exact .inr ⟨h.passed (by decide), hforkless, hlate⟩
      · rintro (⟨a, ha, hforks, -⟩ | ⟨-, -, hlate⟩)
        · exact absurd hforks (hforkless a ha)
        · exact hlate
    · exact h.closes_iff_of_stop le_rfl hnext
  | succ n ih =>
    by_cases hnext : st.dep .fromSrc < upper ∧ (st.queue .fromSrc).length = 1
    · obtain ⟨hdep, hlen⟩ := hnext
      rw [h.toAlone.closes_expand hlen hdep (h.upper_pos (by omega) hdep)]
      exact ih (h.next hlen hdep (by omega)) (by omega)
    · exact h.closes_iff_of_stop (by omega) hnext

theorem closes_init_iff (hrev : G.Reversible) (hnodup : ∀ v, (G.next v).Nodup) (upper s : Nat) :
    Closes G upper (meetInit s s) ↔ MeetsItself G upper s :=
  Lone.closes_iff (n := 254) ⟨alone_init s, ball_init G s s .fromSrc, nofun, by omega⟩ hrev hnodup
    (Nat.zero_add 254)

/-- From a vertex to itself the empty path is listed when the searches meet, and nothing else is
ever listed. -/
theorem exists_paths_self {U : List Nat} (hU : ∀ v, ∀ t ∈ G.next v, G.target t ∈ U)
    (hrev : G.Reversible) (hnodup : ∀ v, (G.next v).Nodup) (upper s : Nat) :
    ∃ ps, Returns (fun fuel => paths G upper fuel s s) ps ∧
      ExactlyOnce ps fun w => w = [] ∧ MeetsItself G upper s := by
  obtain ⟨n, st, hst⟩ := exists_meeting hU upper s s
  have hcloses : MeetsItself G upper s ↔ st.vec ≠ [] ∧
      st.dep .fromSrc + st.dep .fromDst < upper := by
    rw [← closes_init_iff hrev hnodup]
    constructor
    · rintro ⟨n', st', hst', hclosed⟩
      have heq := Returns.unique (fun _ _ _ hle h => whileLoop_mono h hle) ⟨n, hst⟩ ⟨n', hst'⟩
      rw [heq]
      exact hclosed
    · intro hclosed
      exact ⟨n, st, hst, hclosed⟩
  by_cases hmeets : MeetsItself G upper s
  · obtain ⟨hvec, hdep⟩ := hcloses.mp hmeets
    obtain ⟨k, m, hm⟩ := exists_mark hU st
    refine ⟨[[]], exists_paths hst (k := k + 1) ?_, nodup_singleton _, fun w => ?_⟩
    · rw [listPaths, if_neg hvec, if_neg (Int.not_le.mpr hdep)]
      refine Option.bind_eq_some_iff.mpr ⟨m, whileLoop_mono hm (Nat.le_succ k), ?_⟩
      rw [dfs, if_pos rfl]
    · rw [mem_singleton]
      exact (and_iff_left hmeets).symm
  · refine ⟨[], exists_paths hst (k := 0) ?_, nodup_nil, fun w => ?_⟩
    · by_cases hvec : st.vec = []
      · exact if_pos hvec
      · rw [listPaths, if_neg hvec, if_pos]
        exact Int.not_lt.mp fun hdep => hmeets (hcloses.mpr ⟨hvec, hdep⟩)
    · exact iff_of_false not_mem_nil fun hw => hmeets hw.2

end AllShortest

end Neug.Execution
