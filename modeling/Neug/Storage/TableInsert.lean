import Neug.Storage.TableGrowth

/-! # Writing rows of property tables

Writing a row writes each of its values to its column.  The other rows keep their values,
and the row holds what the columns keep of the values.  A write that may grow the columns
fails only if a string cannot be cut to the width of its column.
-/

namespace Neug.Storage

open Library Column List

/-- A write that may grow the column succeeds, if cutting the string returns. -/
theorem Column.setAny_ok {c : Column} {idx : Nat} {v : Value} (hidx : idx < c.size)
    (hnull : v ≠ .null) (hstored : stored c.type v ≠ none) :
    ∃ c', c.setAny idx v true = .ok c' := by
  unfold stored at hstored
  unfold setAny
  split at hstored
  next => exact ⟨c, rfl⟩
  next t htype =>
    simp only [setFixed, if_pos hidx]
    exact ⟨_, rfl⟩
  next width htype =>
    have hkept : kept width v.bytes ≠ none := fun hnone => hstored (by rw [hnone]; rfl)
    simp only [if_neg (Nat.not_le.mpr hidx), if_neg hnull]
    split
    · -- the buffer is made large enough for the whole string
      have hroom : (c.grown idx v.bytes).pos + v.bytes.length ≤ (c.grown idx v.bytes).dataSize :=
        Nat.le_max_right _ _
      exact setString_ok hidx hroom hkept
    next hroom => exact setString_ok hidx (Nat.le_of_not_lt hroom) hkept

namespace Table

variable {table table' : List Column} {idx : Nat} {values : List Value} {insertSafe : Bool}

def keptRow (types : List DataType) (values : List Value) : List Value :=
  zipWith keeps types values

structure Inserted (table table' : List Column) (idx : Nat) (values : List Value) : Prop where
  types : table'.map Column.type = table.map Column.type
  sizes : table'.map Column.size = table.map Column.size
  others : ∀ i, i ≠ idx → row table' i = row table i
  written : DataType.empty ∉ table.map Column.type →
    row table' idx = keptRow (table.map Column.type) values

theorem Inserted.nil (idx : Nat) : Inserted [] [] idx [] :=
  ⟨rfl, rfl, fun _ _ => rfl, fun _ => rfl⟩

theorem Inserted.cons {c c' : Column} {v : Value} (hc : c.Wrote c' idx)
    (hcell : c.type ≠ .empty → some (c'.cells idx) = stored c.type v)
    (h : Inserted table table' idx values) :
    Inserted (c :: table) (c' :: table') idx (v :: values) := by
  refine ⟨?_, ?_, ?_, ?_⟩
  · rw [map_cons, map_cons, hc.type_eq, h.types]
  · rw [map_cons, map_cons, hc.size_eq, h.sizes]
  · intro i hi
    have hothers := h.others i hi
    rw [row, map_cons, getAny, hc.cells_ne i hi]
    exact congrArg _ hothers
  · intro hne
    rw [map_cons, mem_cons, not_or] at hne
    have hkept : c'.cells idx = keeps c.type v := by
      rw [keeps, ← hcell (Ne.symm hne.1)]
      rfl
    have hrest := h.written hne.2
    rw [row, map_cons, map_cons, keptRow, zipWith_cons_cons, getAny, hkept]
    exact congrArg _ hrest

theorem insert_cons_eq_ok {c : Column} {v : Value} :
    insert (c :: table) idx (v :: values) insertSafe = .ok table' ↔
      ∃ c' t, c.setAny idx v insertSafe = .ok c' ∧
        insert table idx values insertSafe = .ok t ∧ table' = c' :: t := by
  unfold insert
  rw [length_cons, length_cons]
  by_cases hlength : values.length = table.length
  · rw [if_neg (not_not_intro (congrArg Nat.succ hlength)), if_neg (not_not_intro hlength),
      mapM_eq_ok, zip_cons_cons, forall₂_cons_left_iff]
    simp only [mapM_eq_ok]
  · rw [if_pos (fun heq => hlength (Nat.succ.inj heq)), if_pos hlength]
    constructor
    · intro h
      cases h
    · rintro ⟨_, _, -, h, -⟩
      cases h

def Storable (t : DataType) (v : Value) : Prop := stored t v ≠ none

instance (t : DataType) (v : Value) : Decidable (Storable t v) :=
  inferInstanceAs (Decidable (_ ≠ _))

/-- Values that were written are kept, in whole or cut. -/
theorem insert_inserted (h : insert table idx values insertSafe = .ok table') :
    Inserted table table' idx values ∧
      (DataType.empty ∉ table.map type → Forall₂ Storable (table.map type) values) := by
  induction table generalizing values table' with
  | nil =>
    cases values with
    | nil =>
      cases h
      exact ⟨.nil idx, fun _ => .nil⟩
    | cons => cases h
  | cons c table ih =>
    cases values with
    | nil => cases h
    | cons v values =>
      obtain ⟨c', t, hc, ht, rfl⟩ := insert_cons_eq_ok.mp h
      obtain ⟨hwrote, hcell⟩ := setAny_wrote hc
      obtain ⟨hrest, hstorable⟩ := ih ht
      refine ⟨.cons hwrote hcell hrest, fun hne => ?_⟩
      rw [map_cons, mem_cons, not_or] at hne
      refine .cons ?_ (hstorable hne.2)
      rw [Storable, ← hcell (Ne.symm hne.1)]
      exact Option.some_ne_none _

/-- A row of values can be written if each of them can. -/
theorem insert_ok (hidx : ∀ c ∈ table, idx < c.size) (hnull : .null ∉ values)
    (h : Forall₂ Storable (table.map type) values) :
    ∃ table', insert table idx values true = .ok table' := by
  induction table generalizing values with
  | nil =>
    rw [map_nil, forall₂_nil_left_iff] at h
    subst h
    exact ⟨[], rfl⟩
  | cons c table ih =>
    rw [map_cons, forall₂_cons_left_iff] at h
    obtain ⟨v, values, hv, hrest, rfl⟩ := h
    rw [forall_mem_cons] at hidx
    rw [mem_cons, not_or] at hnull
    obtain ⟨c', hc'⟩ := setAny_ok hidx.1 (Ne.symm hnull.1) hv
    obtain ⟨t, ht⟩ := ih hidx.2 hnull.2 hrest
    exact ⟨c' :: t, insert_cons_eq_ok.mpr ⟨c', t, hc', ht, rfl⟩⟩

/-! ## Many rows -/

/-- Write rows one after the other, from row `offset` on. -/
def insertAll (table : List Column) (offset : Nat) (rows : List (List Value)) :
    Except ColumnError (List Column) :=
  (rows.zipIdx offset).foldlM (fun table m => insert table m.2 m.1 true) table

structure Filled (table table' : List Column) (offset : Nat) (rows : List (List Value)) :
    Prop where
  types : table'.map Column.type = table.map Column.type
  sizes : table'.map Column.size = table.map Column.size
  before : ∀ i < offset, row table' i = row table i
  written : ∀ k values, rows[k]? = some values →
    row table' (offset + k) = keptRow (table.map Column.type) values

variable {offset : Nat} {rows : List (List Value)}

theorem insertAll_cons_eq_ok : insertAll table offset (values :: rows) = .ok table' ↔
      ∃ t, insert table offset values true = .ok t ∧
        insertAll t (offset + 1) rows = .ok table' := by
  rw [insertAll, zipIdx_cons, foldlM_cons, bind_eq_ok]
  rfl

theorem insertAll_filled (hne : DataType.empty ∉ table.map type)
    (h : insertAll table offset rows = .ok table') : Filled table table' offset rows ∧
      ∀ values ∈ rows, Forall₂ Storable (table.map type) values := by
  induction rows generalizing table offset with
  | nil =>
    cases h
    exact ⟨⟨rfl, rfl, fun _ _ => rfl, fun k _ hk => by cases hk⟩, nofun⟩
  | cons values rows ih =>
    obtain ⟨t, ht, hrest⟩ := insertAll_cons_eq_ok.mp h
    obtain ⟨hinserted, hstorable⟩ := insert_inserted ht
    obtain ⟨hfilled, hothers⟩ := ih (hinserted.types.symm ▸ hne) hrest
    refine ⟨⟨hfilled.types.trans hinserted.types, hfilled.sizes.trans hinserted.sizes, ?_, ?_⟩,
      forall_mem_cons.mpr ⟨hstorable hne, hinserted.types ▸ hothers⟩⟩
    · intro i hi
      rw [hfilled.before i (Nat.lt_succ_of_lt hi), hinserted.others i (Nat.ne_of_lt hi)]
    · intro k vals hk
      cases k with
      | zero =>
        obtain rfl : values = vals := Option.some.inj hk
        rw [Nat.add_zero, hfilled.before offset (Nat.lt_succ_self offset), hinserted.written hne]
      | succ k =>
        have hlater := hfilled.written k vals hk
        rwa [hinserted.types, Nat.add_assoc, Nat.add_comm 1 k] at hlater

theorem insertAll_ok (hsizes : ∀ n ∈ table.map Column.size, offset + rows.length ≤ n)
    (hnull : ∀ values ∈ rows, .null ∉ values)
    (h : ∀ values ∈ rows, Forall₂ Storable (table.map Column.type) values) :
    ∃ table', insertAll table offset rows = .ok table' := by
  induction rows generalizing table offset with
  | nil => exact ⟨table, rfl⟩
  | cons values rows ih =>
    rw [forall_mem_cons] at hnull h
    have hidx : ∀ c ∈ table, offset < c.size := by
      intro c hc
      have hle := hsizes c.size (mem_map_of_mem hc)
      rw [length_cons] at hle
      omega
    obtain ⟨t, ht⟩ := insert_ok hidx hnull.1 h.1
    obtain ⟨hinserted, -⟩ := insert_inserted ht
    obtain ⟨table', htable'⟩ := @ih t (offset + 1)
      (by
        intro n hn
        rw [hinserted.sizes] at hn
        have hle := hsizes n hn
        rw [length_cons] at hle
        omega)
      hnull.2 (by rw [hinserted.types]; exact h.2)
    exact ⟨table', insertAll_cons_eq_ok.mpr ⟨t, ht, htable'⟩⟩

end Table

end Neug.Storage
