import Mathlib.Algebra.BigOperators.Group.Finset.Piecewise
import Mathlib.Algebra.Order.BigOperators.Group.Finset

/-! # Families of threads

Shared counters are explained by what the threads hold: a counter is right when
it equals the sum, over all threads, of the units each thread accounts for.  A
step of one thread replaces one entry of the family, so its effect on such a sum
is the difference between the new and the old entry.  A quantity that the step
leaves alone is the same for every thread of the family.
-/

namespace Library

open Function Finset

variable {Tid α : Type*} [Fintype Tid]

def tally (units : α → ℕ) (threads : Tid → α) : ℕ :=
  ∑ t, units (threads t)

section

variable (units : α → ℕ) (threads : Tid → α)

theorem units_le_tally (t : Tid) : units (threads t) ≤ tally units threads :=
  single_le_sum (f := fun u => units (threads u)) (fun _ _ => Nat.zero_le _)
    (mem_univ t)

theorem tally_eq_zero_iff : tally units threads = 0 ↔ ∀ t, units (threads t) = 0 := by
  simp [tally, sum_eq_zero_iff]

end

/-- The number of threads satisfying a test is a tally of zeros and ones. -/
theorem card_filter_eq_tally (test : α → Prop) [DecidablePred test] (threads : Tid → α) :
    (univ.filter fun t => test (threads t)).card =
      tally (fun a => if test a then 1 else 0) threads := by
  rw [tally, card_filter]

variable [DecidableEq Tid]

/-- Replacing the state of thread `t` moves the tally by the difference of the
two states' units; stated additively so that no subtraction is truncated. -/
theorem tally_update (units : α → ℕ) (threads : Tid → α) (t : Tid) (a : α) :
    tally units (update threads t a) + units (threads t) = tally units threads + units a := by
  have hsplit : ∀ f : Tid → α, tally units f =
      units (f t) + ∑ u ∈ univ.erase t, units (f u) := fun f =>
    (add_sum_erase univ (fun u => units (f u)) (mem_univ t)).symm
  have hrest : ∑ u ∈ univ.erase t, units (update threads t a u) =
      ∑ u ∈ univ.erase t, units (threads u) := by
    refine sum_congr rfl fun u hu => ?_
    rw [update_of_ne (ne_of_mem_erase hu)]
  rw [hsplit (update threads t a), hsplit threads, hrest, update_self]
  omega

end Library
