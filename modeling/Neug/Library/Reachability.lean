import Mathlib.Algebra.GroupWithZero.Nat
import Mathlib.Logic.Relation

/-! # Reachability in a transition system

A transition system is given by a predicate on initial states and a step
relation.  This file states once what every safety argument uses: a predicate
that holds initially and survives each step holds in every reachable state, and
a map that sends steps to runs sends reachable states to reachable states.
-/

namespace Library

variable {σ τ : Type*}

/-- The states in which some run from an initial state ends. -/
def Reachable (init : σ → Prop) (step : σ → σ → Prop) (s : σ) : Prop :=
  ∃ s₀, init s₀ ∧ Relation.ReflTransGen step s₀ s

/-- Runs of two threads are written with literals of `Fin 2`. -/
instance two_neZero : NeZero 2 := ⟨Nat.succ_ne_zero 1⟩

namespace Reachable

variable {init : σ → Prop} {step : σ → σ → Prop} {s s' : σ}

theorem of_init (hinit : init s) : Reachable init step s :=
  ⟨s, hinit, .refl⟩

theorem tail (hreach : Reachable init step s) (hstep : step s s') : Reachable init step s' := by
  obtain ⟨s₀, hinit, hrun⟩ := hreach
  exact ⟨s₀, hinit, hrun.tail hstep⟩

theorem trans (hreach : Reachable init step s)
    (hrun : Relation.ReflTransGen step s s') : Reachable init step s' := by
  obtain ⟨s₀, hinit, hprefix⟩ := hreach
  exact ⟨s₀, hinit, hprefix.trans hrun⟩

/-- Invariant rule.  The step premise may assume that its source is reachable,
so an invariant already established can be used to establish the next one. -/
theorem invariant (inv : σ → Prop) (hinit : ∀ s, init s → inv s)
    (hstep : ∀ s s', Reachable init step s → inv s → step s s' → inv s')
    (hreach : Reachable init step s) : inv s := by
  obtain ⟨s₀, hs₀, hrun⟩ := hreach
  induction hrun with
  | refl => exact hinit s₀ hs₀
  | tail hprefix hlast ih => exact hstep _ _ ⟨s₀, hs₀, hprefix⟩ ih hlast

end Reachable

/-- A schedule whose moves all succeed is a run; what makes a move a step may rest on an
invariant. -/
theorem run_of_foldlM {μ : Type*} {move : σ → μ → Option σ} {step : σ → σ → Prop} (P : σ → Prop)
    (hmove : ∀ s m s', P s → move s m = some s' → step s s' ∧ P s') {s s' : σ} (hs : P s)
    {moves : List μ} (h : moves.foldlM move s = some s') : Relation.ReflTransGen step s s' := by
  induction moves generalizing s with
  | nil =>
    cases h
    exact .refl
  | cons m moves ih =>
    obtain ⟨next, hnext, hrest⟩ := Option.bind_eq_some_iff.mp h
    obtain ⟨hstep, hnext⟩ := hmove s m next hs hnext
    exact .head hstep (ih hnext hrest)

end Library
