import Neug.Library.BreadthFirst

/-! # Searches from both ends

When every step can be walked back, distances are symmetric.  Two searches from the two ends
that have seen everything up to some depth, and nothing in common, show that the ends are
further apart than both depths together; one more step that joins them is then a shortest
connection.
-/

namespace Library

namespace StepGraph

variable {V S : Type*} {G : StepGraph V S} {u v w x y : V} {a b d j k n : Nat}

theorem reaches_add : G.Reaches u w (j + k) ↔ ∃ v, G.Reaches u v j ∧ G.Reaches v w k := by
  induction k generalizing w with
  | zero => simp [reaches_zero]
  | succ k ih =>
    rw [← Nat.add_assoc, reaches_succ]
    simp only [ih, reaches_succ]
    constructor
    · rintro ⟨y, ⟨v, hv, hy⟩, s, hs, rfl⟩
      exact ⟨v, hv, y, hy, s, hs, rfl⟩
    · rintro ⟨v, hv, y, hy, s, hs, rfl⟩
      exact ⟨y, ⟨v, hv, hy⟩, s, hs, rfl⟩

theorem reaches_one : G.Reaches v x 1 ↔ ∃ s ∈ G.next v, G.target s = x := by
  rw [reaches_succ]
  simp only [reaches_zero, exists_eq_left]

variable (G) in
def Reversible : Prop :=
  ∀ y, ∀ s ∈ G.next y, ∃ s' ∈ G.next (G.target s), G.target s' = y

theorem Reversible.reaches_symm (hrev : G.Reversible) (h : G.Reaches v x k) : G.Reaches x v k := by
  induction k generalizing x with
  | zero =>
    rw [reaches_zero] at h ⊢
    exact h.symm
  | succ k ih =>
    obtain ⟨y, hy, s, hs, rfl⟩ := reaches_succ.mp h
    have hback : G.Reaches (G.target s) y 1 := reaches_one.mpr (hrev y s hs)
    rw [Nat.add_comm]
    exact reaches_add.mpr ⟨y, hback, ih hy⟩

theorem Reversible.isDist_symm (hrev : G.Reversible) (h : G.IsDist v x d) : G.IsDist x v d :=
  ⟨hrev.reaches_symm h.1, fun k hk hreach => h.2 k hk (hrev.reaches_symm hreach)⟩

/-- On the way to a vertex at distance `j + k` there is one at distance `j` from the start and
`k` from the end. -/
theorem IsDist.split (h : G.IsDist u w (j + k)) : ∃ v, G.IsDist u v j ∧ G.IsDist v w k := by
  obtain ⟨v, hj, hk⟩ := reaches_add.mp h.1
  refine ⟨v, ⟨hj, fun i hi hreach => ?_⟩, ⟨hk, fun i hi hreach => ?_⟩⟩
  · exact h.2 (i + k) (by omega) (reaches_add.mpr ⟨v, hreach, hk⟩)
  · exact h.2 (j + i) (by omega) (reaches_add.mpr ⟨v, hj, hreach⟩)

theorem IsDist.le_of_reaches (h : G.IsDist u w d) (hk : G.Reaches u w k) : d ≤ k :=
  Nat.not_lt.mp fun hlt => h.2 k hlt hk

/-- The way over another vertex is not shorter. -/
theorem Reversible.le_add (hrev : G.Reversible) (h : G.IsDist u w d) (hj : G.Reaches u x j)
    (hk : G.Reaches w x k) : d ≤ j + k :=
  h.le_of_reaches (reaches_add.mpr ⟨x, hj, hrev.reaches_symm hk⟩)

variable (G) in
/-- No vertex is within `a` steps of `u` and within `b` steps of `w`. -/
def Apart (u w : V) (a b : Nat) : Prop :=
  ∀ x i j, G.IsDist u x i → G.IsDist w x j → a < i ∨ b < j

theorem Apart.lt_of_isDist (h : G.Apart u w a b) (hrev : G.Reversible) (hd : G.IsDist u w d) :
    a + b < d := by
  by_contra hle
  -- the vertex that a shortest walk has reached after `a` steps, or its end, is near both ends
  have hsum : min a d + (d - min a d) = d := by omega
  rw [← hsum] at hd
  obtain ⟨v, hi, hj⟩ := hd.split
  rcases h v _ _ hi (hrev.isDist_symm hj) with hlt | hlt
  · omega
  · omega

/-- A step between the two searches is part of a shortest walk. -/
theorem Apart.isDist_of_step (h : G.Apart u w a b) (hrev : G.Reversible) (hx : G.IsDist u x a)
    {s : S} (hs : s ∈ G.next x) (hy : G.IsDist w (G.target s) d) (hd : d ≤ b) :
    G.IsDist u w (a + 1 + d) := by
  have hreach : G.Reaches u w (a + 1 + d) :=
    reaches_add.mpr ⟨_, hx.1.concat hs, hrev.reaches_symm hy.1⟩
  obtain ⟨n, hn, hdist⟩ := hreach.exists_isDist
  have hlt := h.lt_of_isDist hrev hdist
  obtain rfl : n = a + 1 + d := by omega
  exact hdist

end StepGraph

end Library
