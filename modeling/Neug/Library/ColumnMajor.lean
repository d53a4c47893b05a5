import Neug.Library.Fallible

/-! # Writing a table by columns

A table is a list of columns.  Items are written to it either row by row, each item to all
columns, or column by column, all items to one column before the next.  A write touches its
own column only, so both orders succeed with the same tables; they may fail differently.
-/

namespace Library

open List

universe u

variable {ε : Type*} {ι : Type u} {C V : Type u}

section Orders

variable (write : ι → C → V → Except ε C)

/-- Write an item to all columns; `cells` reads the values of an item. -/
def writeRow (cells : List (ι → V)) (table : List C) (i : ι) : Except ε (List C) :=
  (table.zip (cells.map fun cell => cell i)).mapM fun p => write i p.1 p.2

def writeRows (cells : List (ι → V)) (items : List ι) (table : List C) : Except ε (List C) :=
  items.foldlM (writeRow write cells) table

def writeColumn (cell : ι → V) (items : List ι) (column : C) : Except ε C :=
  items.foldlM (fun c i => write i c (cell i)) column

def writeColumns (cells : List (ι → V)) (items : List ι) (table : List C) :
    Except ε (List C) :=
  (table.zip cells).mapM fun p => writeColumn write p.2 items p.1

end Orders

variable {write : ι → C → V → Except ε C} {cell : ι → V} {cells : List (ι → V)}
  {items : List ι} {column : C} {table table' : List C}

theorem writeRow_cons_eq_ok {i : ι} :
    writeRow write (cell :: cells) (column :: table) i = .ok table' ↔
      ∃ c t, write i column (cell i) = .ok c ∧ writeRow write cells table i = .ok t ∧
        table' = c :: t := by
  rw [writeRow, map_cons, zip_cons_cons, mapM_eq_ok, forall₂_cons_left_iff]
  simp only [writeRow, mapM_eq_ok]

/-- Writing row by row splits off the first column. -/
theorem writeRows_cons_eq_ok :
    writeRows write (cell :: cells) items (column :: table) = .ok table' ↔
      ∃ c t, writeColumn write cell items column = .ok c ∧
        writeRows write cells items table = .ok t ∧ table' = c :: t := by
  induction items generalizing column table with
  | nil =>
    constructor
    · intro h
      cases h
      exact ⟨column, table, rfl, rfl, rfl⟩
    · rintro ⟨c, t, hc, ht, rfl⟩
      cases hc
      cases ht
      rfl
  | cons i rest ih =>
    rw [writeRows, foldlM_cons, bind_eq_ok]
    simp only [writeRow_cons_eq_ok]
    constructor
    · rintro ⟨_, ⟨c, t, hc, ht, rfl⟩, hrest⟩
      obtain ⟨c', t', hc', ht', rfl⟩ := ih.mp hrest
      refine ⟨c', t', ?_, ?_, rfl⟩
      · rw [writeColumn, foldlM_cons, bind_eq_ok]
        exact ⟨c, hc, hc'⟩
      · rw [writeRows, foldlM_cons, bind_eq_ok]
        exact ⟨t, ht, ht'⟩
    · rintro ⟨c', t', hc', ht', rfl⟩
      rw [writeColumn, foldlM_cons, bind_eq_ok] at hc'
      rw [writeRows, foldlM_cons, bind_eq_ok] at ht'
      obtain ⟨c, hc, hc'⟩ := hc'
      obtain ⟨t, ht, ht'⟩ := ht'
      exact ⟨c :: t, ⟨c, t, hc, ht, rfl⟩, ih.mpr ⟨c', t', hc', ht', rfl⟩⟩

theorem writeRows_nil (items : List ι) : writeRows write [] items [] = .ok [] := by
  induction items with
  | nil => rfl
  | cons i rest ih => exact ih

/-- Both orders give the same tables. -/
theorem writeColumns_eq_ok (hlength : table.length = cells.length) :
    writeColumns write cells items table = .ok table' ↔
      writeRows write cells items table = .ok table' := by
  induction table generalizing cells table' with
  | nil =>
    rw [length_nil, eq_comm, length_eq_zero_iff] at hlength
    rw [hlength, writeRows_nil]
    rfl
  | cons column table ih =>
    cases cells with
    | nil => cases hlength
    | cons cell cells =>
      have hrest := fun t => @ih cells t (Nat.succ.inj hlength)
      rw [writeColumns, zip_cons_cons, mapM_eq_ok, forall₂_cons_left_iff, writeRows_cons_eq_ok]
      simp only [← hrest, writeColumns, mapM_eq_ok]

end Library
