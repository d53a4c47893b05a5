import Mathlib.Data.List.Basic

/-! # Text that ends in a separated piece

A list is read from its end: up to the last separator stands a piece that holds none.
Joining lists with a separator that they may hold themselves keeps only the sequence of
the pieces between separators.
-/

namespace Library

variable {α : Type*}

/-- The last separator of a list and the piece after it are found in one way only. -/
theorem last_piece_unique (isSep : α → Bool) {a b u v : List α} {c d : α}
    (hc : isSep c = true) (hd : isSep d = true)
    (hu : ∀ x ∈ u, isSep x = false) (hv : ∀ x ∈ v, isSep x = false)
    (h : a ++ c :: u = b ++ d :: v) : a = b ∧ c = d ∧ u = v := by
  -- otherwise the separator of one side would stand inside the piece of the other
  rcases List.append_eq_append_iff.mp h with ⟨k, hb, hk⟩ | ⟨k, ha, hk⟩
  · cases k with
    | nil => simp_all
    | cons x k =>
      have hmem : d ∈ u := by simp_all
      simp [hu d hmem] at hd
  · cases k with
    | nil => simp_all
    | cons x k =>
      have hmem : c ∈ v := by simp_all
      simp [hv c hmem] at hc

/-- Splitting at a separator loses nothing. -/
theorem splitOn_injective [DecidableEq α] (sep : α) {l l' : List α}
    (h : l.splitOn sep = l'.splitOn sep) : l = l' := by
  rw [← @List.intercalate_splitOn _ l _ _ sep, h, List.intercalate_splitOn]

/-- Two triples of lists joined by a separator agree exactly when the pieces between
separators do. -/
theorem joined_eq_iff [DecidableEq α] (sep : α) (a b c a' b' c' : List α) :
    a ++ sep :: (b ++ sep :: c) = a' ++ sep :: (b' ++ sep :: c') ↔
      a.splitOn sep ++ b.splitOn sep ++ c.splitOn sep =
        a'.splitOn sep ++ b'.splitOn sep ++ c'.splitOn sep := by
  constructor
  · intro h
    have hsplit := congrArg (List.splitOn sep) h
    simpa only [List.splitOn_append_cons_self, List.append_assoc] using hsplit
  · intro h
    apply splitOn_injective sep
    simpa only [List.splitOn_append_cons_self, List.append_assoc] using h

end Library
