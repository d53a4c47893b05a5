import Mathlib.Data.List.Infix

/-! # Version histories

A value is built by changes.  Each change has a stamp, the time from which on it is
visible, and a tag that names the version it produces.  Histories list the changes
with the newest first.  When stamps and tags increase along a history, the version
visible at a time is one of the versions that existed, its tag determines it, and
changes that are stamped later leave it alone.
-/

namespace Library

open List

/-- A change together with its time and the name of its result. -/
structure Version (α : Type*) where
  stamp : Nat
  tag : Nat
  change : α → α

namespace Version

variable {α : Type*} {first : Nat}

def build (origin : α) : List (Version α) → α
  | [] => origin
  | v :: rest => v.change (build origin rest)

/-- The tag of the newest version; the origin has the tag `first`. -/
def latestTag (first : Nat) : List (Version α) → Nat
  | [] => first
  | v :: _ => v.tag

def asOf (history : List (Version α)) (ts : Nat) : List (Version α) :=
  history.filter (·.stamp ≤ ts)

/-- Every change has a later stamp and a larger tag than those before it. -/
def Increasing (first : Nat) : List (Version α) → Prop
  | [] => True
  | v :: rest => (∀ w ∈ rest, w.stamp < v.stamp) ∧ latestTag first rest < v.tag ∧
      Increasing first rest

variable {history : List (Version α)}

/-- A change in the future is not visible. -/
theorem asOf_cons_of_lt {v : Version α} {ts : Nat} (h : ts < v.stamp) :
    asOf (v :: history) ts = asOf history ts := by
  have hnot : ¬ (decide (v.stamp ≤ ts) = true) := by simpa using h
  exact filter_cons_of_neg hnot

theorem asOf_eq_self {ts : Nat} (h : ∀ v ∈ history, v.stamp ≤ ts) : asOf history ts = history := by
  apply filter_eq_self.mpr
  intro v hv
  simpa using h v hv

/-- What is visible at a time is an initial part of the history. -/
theorem Increasing.asOf_suffix (h : Increasing first history) (ts : Nat) :
    asOf history ts <:+ history := by
  induction history with
  | nil => exact suffix_refl _
  | cons v rest ih =>
    obtain ⟨hstamp, -, hrest⟩ := h
    by_cases hv : v.stamp ≤ ts
    · have hall : ∀ w ∈ v :: rest, w.stamp ≤ ts :=
        forall_mem_cons.mpr ⟨hv, fun w hw => Nat.le_trans (Nat.le_of_lt (hstamp w hw)) hv⟩
      rw [asOf_eq_self hall]
    · rw [asOf_cons_of_lt (by omega)]
      exact (ih hrest).trans (suffix_cons _ _)

theorem Increasing.latestTag_le_of_suffix {l : List (Version α)} (h : Increasing first history)
    (hl : l <:+ history) : latestTag first l ≤ latestTag first history := by
  induction history with
  | nil =>
    rw [suffix_nil.mp hl]
  | cons v rest ih =>
    obtain ⟨-, htag, hrest⟩ := h
    rcases suffix_cons_iff.mp hl with rfl | hl
    · exact Nat.le_refl _
    · exact Nat.le_of_lt (Nat.lt_of_le_of_lt (ih hrest hl) htag)

theorem Increasing.eq_of_latestTag {l₁ l₂ : List (Version α)} (h : Increasing first history)
    (h₁ : l₁ <:+ history) (h₂ : l₂ <:+ history) (htag : latestTag first l₁ = latestTag first l₂) :
    l₁ = l₂ := by
  induction history with
  | nil => rw [suffix_nil.mp h₁, suffix_nil.mp h₂]
  | cons v rest ih =>
    obtain ⟨-, hlt, hrest⟩ := h
    have holder : ∀ {l}, l <:+ rest → latestTag first l ≠ v.tag := fun hl =>
      Nat.ne_of_lt (Nat.lt_of_le_of_lt (hrest.latestTag_le_of_suffix hl) hlt)
    rcases suffix_cons_iff.mp h₁ with rfl | h₁ <;>
      rcases suffix_cons_iff.mp h₂ with rfl | h₂
    · rfl
    · exact absurd htag.symm (holder h₂)
    · exact absurd htag (holder h₁)
    · exact ih hrest h₁ h₂

end Version

end Library
