import Mathlib.Logic.Function.Basic

/-! # Linear probing

An open-addressing table is an array of slots, each empty or holding an entry.
An entry lives in the first empty slot found by stepping from its home slot, and
a search steps the same way until it meets the entry or an empty slot.  Entries
are never removed here, so a slot once occupied stays occupied; this is what
makes a search agree with insertions that happened while the table was filling.
-/

namespace Library

open Function

variable {α : Type*}

/-- The slot `d` steps after `home` in a table of `n` slots. -/
def slotAt (n home d : Nat) : Nat := (home + d) % n

variable {slots : Nat → Option α} {home n d : Nat}

theorem slotAt_zero (hhome : home < n) : slotAt n home 0 = home :=
  Nat.mod_eq_of_lt hhome

theorem slotAt_succ (n home d : Nat) : (slotAt n home d + 1) % n = slotAt n home (d + 1) := by
  simp [slotAt, Nat.add_assoc]

/-- Every slot before the one `d` steps after `home` is occupied. -/
def Occupied (slots : Nat → Option α) (n home d : Nat) : Prop :=
  ∀ i < d, slots (slotAt n home i) ≠ none

theorem occupied_zero (slots : Nat → Option α) (n home : Nat) : Occupied slots n home 0 := by
  intro i hi
  exact absurd hi (Nat.not_lt_zero i)

theorem Occupied.succ (h : Occupied slots n home d) (hslot : slots (slotAt n home d) ≠ none) :
    Occupied slots n home (d + 1) := by
  intro i hi
  rcases Nat.lt_succ_iff_lt_or_eq.mp hi with hlt | rfl
  · exact h i hlt
  · exact hslot

/-- An empty slot on the way is met within one round. -/
theorem Occupied.lt_of_empty (h : Occupied slots n home d) (hn : 0 < n)
    (hslot : slots (slotAt n home d) = none) : d < n := by
  by_contra hle
  have hround : slotAt n home (d % n) = slotAt n home d := by simp [slotAt]
  apply h (d % n) (Nat.lt_of_lt_of_le (Nat.mod_lt d hn) (Nat.le_of_not_lt hle))
  rw [hround, hslot]

def Extends (slots slots' : Nat → Option α) : Prop :=
  ∀ i a, slots i = some a → slots' i = some a

theorem Extends.refl (slots : Nat → Option α) : Extends slots slots :=
  fun _ _ h => h

theorem extends_update {i : Nat} (hempty : slots i = none) (a : α) :
    Extends slots (update slots i (some a)) := by
  intro j b hj
  by_cases hji : j = i
  · rw [hji, hempty] at hj
    cases hj
  · rwa [update_of_ne hji]

theorem Occupied.mono {slots' : Nat → Option α} (h : Occupied slots n home d)
    (hext : Extends slots slots') : Occupied slots' n home d := by
  intro i hi
  obtain ⟨a, ha⟩ := Option.ne_none_iff_exists'.mp (h i hi)
  rw [hext _ a ha]
  simp

/-- The first entry that passes `test`, stepping from `index`; `none` when an empty
slot comes first. -/
def probe (slots : Nat → Option α) (n : Nat) (test : α → Bool) : Nat → Nat → Option α
  | 0, _ => none
  | fuel + 1, index =>
    match slots index with
    | none => none
    | some a => if test a then some a else probe slots n test fuel ((index + 1) % n)

/-- What a search returns is an entry that passes the test. -/
theorem probe_sound {test : α → Bool} {fuel index : Nat} {a : α}
    (h : probe slots n test fuel index = some a) : test a = true ∧ ∃ i, slots i = some a := by
  induction fuel generalizing index with
  | zero => cases h
  | succ fuel ih =>
    unfold probe at h
    split at h
    next => cases h
    next b hslot =>
      by_cases htest : test b = true
      · rw [if_pos htest, Option.some.injEq] at h
        subst h
        exact ⟨htest, index, hslot⟩
      · rw [if_neg htest] at h
        exact ih h

/-- A search that starts on the way to an entry finds it, when nothing else
passes the test. -/
theorem probe_complete {test : α → Bool} {a : α} (hpath : Occupied slots n home d)
    (hslot : slots (slotAt n home d) = some a) (htest : test a = true)
    (honly : ∀ i b, slots i = some b → test b = true → b = a) {start fuel : Nat}
    (hstart : start ≤ d) (hfuel : d - start < fuel) :
    probe slots n test fuel (slotAt n home start) = some a := by
  induction fuel generalizing start with
  | zero => exact absurd hfuel (Nat.not_lt_zero _)
  | succ fuel ih =>
    rcases Nat.lt_or_eq_of_le hstart with hlt | rfl
    · obtain ⟨b, hb⟩ := Option.ne_none_iff_exists'.mp (hpath start hlt)
      by_cases hpass : test b = true
      · obtain rfl := honly _ b hb hpass
        simp [probe, hb, htest]
      · simp only [probe, hb, if_neg hpass, slotAt_succ]
        exact ih hlt (by omega)
    · simp [probe, hslot, htest]

end Library
