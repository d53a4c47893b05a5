import Mathlib.Data.List.Basic

/-! # Changes that may stop half way

An operation changes a state step by step and may stop with an error.  What it changed
before the error stays changed.
-/

namespace Library

inductive Attempt (ε σ : Type*) where
  | done (state : σ)
  | failed (error : ε) (state : σ)
  deriving DecidableEq, Repr

namespace Attempt

variable {ε ε' σ τ α : Type*}

def state : Attempt ε σ → σ
  | done s => s
  | failed _ s => s

def andThen (x : Attempt ε σ) (f : σ → Attempt ε σ) : Attempt ε σ :=
  match x with
  | done s => f s
  | failed e s => failed e s

def lift (x : Attempt ε σ) (error : ε → ε') (put : σ → τ) : Attempt ε' τ :=
  match x with
  | done s => done (put s)
  | failed e s => failed (error e) (put s)

def forEach (f : σ → α → Attempt ε σ) : List α → σ → Attempt ε σ
  | [], s => done s
  | a :: rest, s => (f s a).andThen (forEach f rest)

theorem andThen_eq_done {x : Attempt ε σ} {f : σ → Attempt ε σ} {s : σ} :
    x.andThen f = done s ↔ ∃ mid, x = done mid ∧ f mid = done s := by
  cases x with
  | done mid => simp [andThen]
  | failed e mid => simp [andThen]

section

variable {f : σ → α → Attempt ε σ} (hf : ∀ s a, (f s a).state = s) (l : List α) (s : σ)
include hf

/-- A loop whose rounds change nothing leaves the state, whether or not it gets through. -/
theorem forEach_readOnly : (forEach f l s = done s ∧ ∀ a ∈ l, f s a = done s) ∨
    ∃ e, forEach f l s = failed e s ∧ ¬∀ a ∈ l, f s a = done s := by
  induction l with
  | nil => exact .inl ⟨rfl, by simp⟩
  | cons a rest ih =>
    have hstate := hf s a
    rw [forEach, List.forall_mem_cons]
    cases hround : f s a with
    | done mid =>
      obtain rfl : mid = s := by rwa [hround] at hstate
      simpa [andThen] using ih
    | failed e mid =>
      obtain rfl : mid = s := by rwa [hround] at hstate
      exact .inr ⟨e, rfl, by simp⟩

end

/-- What holds of the state whether or not the operation got through, and of the error. -/
def Meets (P : σ → Prop) (Q : ε → Prop) (x : Attempt ε σ) : Prop :=
  P x.state ∧ ∀ e s, x = failed e s → Q e

section Meets

variable {P : σ → Prop} {Q : ε → Prop}

variable {s : σ}

theorem meets_done (h : P s) : Meets P Q (done s : Attempt ε σ) :=
  ⟨h, fun _ _ hfailed => by cases hfailed⟩

theorem meets_failed {e : ε} (h : P s) (he : Q e) : Meets P Q (failed e s) := by
  refine ⟨h, fun e' s' hfailed => ?_⟩
  cases hfailed
  exact he

theorem Meets.andThen {x : Attempt ε σ} {f : σ → Attempt ε σ} (h : x.Meets P Q)
    (hf : ∀ s, P s → (f s).Meets P Q) : (x.andThen f).Meets P Q := by
  cases x with
  | done s => exact hf s h.1
  | failed e s => exact h

/-- A loop meets what each round meets. -/
theorem meets_forEach {f : σ → α → Attempt ε σ} {l : List α}
    (hround : ∀ s a, a ∈ l → P s → (f s a).Meets P Q) (hs : P s) : (forEach f l s).Meets P Q := by
  induction l generalizing s with
  | nil => exact meets_done hs
  | cons a rest ih =>
    refine (hround s a List.mem_cons_self hs).andThen fun mid hmid => ?_
    exact ih (fun s b hb => hround s b (List.mem_cons_of_mem _ hb)) hmid

end Meets

end Attempt

end Library
