import Neug.Library.Fallible
import Neug.Storage.Column

/-! # Growing property tables

Growing a table grows each of its columns with the default of that column.  A row that was
there keeps its values, and a new row holds what the columns keep of the defaults.
-/

namespace Neug.Storage

open Library Column List

/-- What a column of a type holds after a value was written, if writing returns. -/
def Column.keeps (t : DataType) (v : Value) : Value := (stored t v).getD .null

theorem Column.stored_eq_keeps {t : DataType} {v : Value} (h : stored t v ≠ none) :
    stored t v = some (keeps t v) := by
  obtain ⟨w, hw⟩ := Option.ne_none_iff_exists'.mp h
  rw [keeps, hw]
  rfl

theorem Column.resizeDefault_type {c c' : Column} {size : Nat} {default : Value}
    (h : c.resizeDefault size default = .ok c') : c'.type = c.type := by
  unfold resizeDefault at h
  split at h
  next =>
    cases h
    rfl
  next =>
    split at h
    · cases h
      rfl
    · cases h
  next width htype =>
    split at h
    · split at h
      next => cases h
      next =>
        dsimp only at h
        split at h
        · cases h
          rfl
        · split at h
          next => cases h
          next filled hfilled =>
            cases h
            exact (setString_wrote hfilled).1.type_eq
    · cases h

/-- A default that a column can be filled with: of its type, and a string that can be cut to
the width of the column. -/
def Fills (t : DataType) (default : Value) : Prop :=
  t ≠ .empty ∧ default.HasType t ∧ stored t default ≠ none

namespace Table

variable {table table' : List Column} {defaults : List Value} {n : Nat}

def row (table : List Column) (i : Nat) : List Value := table.map fun c => c.getAny i

def grownRow (table : List Column) (defaults : List Value) (i : Nat) : List Value :=
  zipWith (fun c d => if i < c.size then c.getAny i else keeps c.type d) table defaults

structure Grown (table table' : List Column) (n : Nat) (defaults : List Value) : Prop where
  types : table'.map Column.type = table.map Column.type
  sizes : ∀ c ∈ table', c.size = n
  rows : ∀ i < n, row table' i = grownRow table defaults i

theorem Grown.nil (n : Nat) : Grown [] [] n [] :=
  ⟨rfl, fun _ h => absurd h not_mem_nil, fun _ _ => rfl⟩

theorem Grown.cons {c c' : Column} {d : Value} (hc : c.Grew c' n (keeps c.type d))
    (hne : c.type ≠ .empty) (h : Grown table table' n defaults) :
    Grown (c :: table) (c' :: table') n (d :: defaults) := by
  refine ⟨?_, ?_, ?_⟩
  · rw [map_cons, map_cons, hc.type_eq, h.types]
  · exact forall_mem_cons.mpr ⟨hc.size_eq hne, h.sizes⟩
  · intro i hi
    have hcell : c'.getAny i = if i < c.size then c.getAny i else keeps c.type d := by
      by_cases hold : i < c.size
      · rw [if_pos hold]
        exact hc.old i hold
      · rw [if_neg hold]
        exact hc.new hne i (Nat.le_of_not_lt hold) hi
    rw [row, map_cons, grownRow, zipWith_cons_cons, hcell]
    exact congrArg _ (h.rows i hi)

section

variable (n : Nat) (h : Forall₂ (fun c d => Fills (Column.type c) d) table defaults)
include h

/-- Growing column by column. -/
theorem mapM_resizeDefault :
    ∃ table', (table.zip defaults).mapM (fun p => p.1.resizeDefault n p.2) = .ok table' ∧
      Grown table table' n defaults := by
  induction h with
  | nil => exact ⟨[], rfl, .nil n⟩
  | @cons c d table defaults hfills hrest ih =>
    obtain ⟨hne, htype, hstored⟩ := hfills
    obtain ⟨c', hc', hgrew⟩ :=
      resizeDefault_grew n htype (stored_eq_keeps hstored)
    obtain ⟨table', htable', hgrown⟩ := ih
    refine ⟨c' :: table', ?_, hgrown.cons hgrew hne⟩
    rw [mapM_eq_ok] at htable' ⊢
    exact .cons hc' htable'

theorem resize_grown :
    ∃ table', Table.resize table n defaults = .ok table' ∧ Grown table table' n defaults := by
  rw [Table.resize, if_neg (by simp [h.length_eq])]
  exact mapM_resizeDefault n h

end

theorem types_of_resize (h : Table.resize table n defaults = .ok table') :
    table'.map Column.type = table.map Column.type := by
  unfold Table.resize at h
  split at h
  · cases h
  next hlength =>
    rw [not_not] at hlength
    have hall := mapM_eq_ok.mp h
    have hzip : (table.zip defaults).map Prod.fst = table :=
      map_fst_zip (Nat.le_of_eq hlength.symm)
    rw [← hzip]
    generalize table.zip defaults = pairs at hall ⊢
    clear h hzip hlength
    induction hall with
    | nil => rfl
    | cons hresize _ ih =>
      rw [map_cons, map_cons, map_cons, resizeDefault_type hresize, ih]

theorem stored_of_mapM
    (h : (table.zip defaults).mapM (fun p => p.1.resizeDefault n p.2) = .ok table') :
    ∀ p ∈ table.zip defaults, stored p.1.type p.2 ≠ none := by
  intro p hp hnone
  obtain ⟨c', hc'⟩ := exists_ok_of_mapM h hp
  exact resizeDefault_of_stored_none n hnone c' hc'

end Table

end Neug.Storage
