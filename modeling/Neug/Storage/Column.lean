import Mathlib.Algebra.Group.Int.Defs
import Mathlib.Algebra.GroupWithZero.Nat
import Mathlib.Tactic.Common

/-! # Property columns

A column holds one value per row.  Fixed-width columns overwrite in place;
string columns append the bytes of every written value to a data buffer and keep
an item per row, so they can run out of buffer space.  Only what the callers can
observe is kept here: the rows, the number of rows, and for strings the position
and size of the data buffer.
-/

namespace Neug.Storage

open Function Option

inductive FixedType where
  | int32
  | int64
  | uint32
  | uint64
  | float
  | double
  | boolean
  | timestampMs
  | date
  | interval
  deriving DecidableEq, Repr

/-- Column types; list, array and struct columns are not modelled. -/
inductive DataType where
  | empty
  | fixed (type : FixedType)
  | varchar (maxLength : Nat)
  deriving DecidableEq, Repr

/-- Property values.  The payload of a fixed-width value stands for its bits. -/
inductive Value where
  | empty
  | null
  | fixed (type : FixedType) (payload : Int)
  | varchar (bytes : List UInt8)
  deriving DecidableEq, Repr

namespace Value

/-- Whether a value may be written to a column of a type. -/
def HasType : Value → DataType → Prop
  | empty, .empty => True
  | null, _ => True
  | fixed t _, .fixed t' => t = t'
  | varchar _, .varchar _ => True
  | _, _ => False

instance (v : Value) (t : DataType) : Decidable (v.HasType t) := by
  cases v <;> cases t <;> unfold HasType <;> infer_instance

def bytes : Value → List UInt8
  | varchar b => b
  | _ => []

end Value

/-- Number of bytes of a character, by its first byte; 0 for a byte that starts
no character. -/
def charLength (ch : UInt8) : Nat :=
  if ch &&& 0x80 = 0 then 1
  else if ch &&& 0xE0 = 0xC0 then 2
  else if ch &&& 0xF0 = 0xE0 then 3
  else if ch &&& 0xF8 = 0xF0 then 4
  else 0

/-- Loop of `truncate_utf8`: the number of bytes kept, or `none` when the loop
makes no progress. -/
def truncateLoop (length : Nat) : Nat → List UInt8 → Nat → Option Nat
  | 0, _, _ => none
  | _ + 1, [], byteCount => some byteCount
  | fuel + 1, ch :: rest, byteCount =>
    if ch = 0 ∨ length ≤ byteCount then some byteCount
    else if charLength ch = 0 then none
    else if length < byteCount + charLength ch then some byteCount
    else truncateLoop length fuel ((ch :: rest).drop (charLength ch))
      (byteCount + charLength ch)

/-- `truncate_utf8`; `none` when it does not return. -/
def truncateUtf8 (bytes : List UInt8) (length : Nat) : Option (List UInt8) :=
  if bytes.length ≤ length then some bytes
  else (truncateLoop length (bytes.length + 1) bytes 0).map bytes.take

inductive ColumnError where
  | indexOutOfRange
  | defaultTypeMismatch
  | noSpace
  | noSpaceUnsafe
  /-- `CHECK_EQ` of a row against the columns; the process ends. -/
  | rowSizeMismatch
  | defaultsMismatch (expected got : Nat)
  | diverges
  deriving DecidableEq, Repr

/-- A property column: `pos` and `dataSize` describe the data buffer of a string
column. -/
structure Column where
  type : DataType
  size : Nat
  pos : Nat
  dataSize : Nat
  cells : Nat → Value

namespace Column

def kept (width : Nat) (bytes : List UInt8) : Option (List UInt8) :=
  if width ≤ bytes.length then truncateUtf8 bytes width else some bytes

variable (c : Column)

/-- `set_value` of a string column. -/
def setString (width idx : Nat) (bytes : List UInt8) : Except ColumnError Column :=
  match kept width bytes with
  | none => .error .diverges
  | some copied =>
    if c.size ≤ idx then .error .indexOutOfRange
    else if c.pos + copied.length ≤ c.dataSize then
      .ok { c with
        pos := c.pos + copied.length
        cells := update c.cells idx (.varchar copied) }
    else .error .noSpace

def setFixed (idx : Nat) (v : Value) : Except ColumnError Column :=
  if idx < c.size then .ok { c with cells := update c.cells idx v }
  else .error .indexOutOfRange

/-- The data buffer of a string column after `set_any` has made room for a value. -/
def grown (idx : Nat) (bytes : List UInt8) : Column :=
  { c with dataSize := max (c.size * ((c.pos + idx) / (idx + 1))) (c.pos + bytes.length) }

def setAny (idx : Nat) (v : Value) (insertSafe : Bool) : Except ColumnError Column :=
  match c.type with
  | .empty => .ok c
  | .fixed t => c.setFixed idx (if v = .null then .fixed t 0 else v)
  | .varchar width =>
    if c.size ≤ idx then .error .indexOutOfRange
    else if v = .null then c.setString width idx []
    else if c.dataSize < c.pos + v.bytes.length then
      if insertSafe then (c.grown idx v.bytes).setString width idx v.bytes
      else .error .noSpaceUnsafe
    else c.setString width idx v.bytes

def getAny (idx : Nat) : Value := c.cells idx

/-! ### Growth -/

def zero : DataType → Value
  | .empty => .empty
  | .fixed t => .fixed t 0
  | .varchar _ => .varchar []

def withRows (size : Nat) : Column :=
  { c with size := size, cells := fun i => if i < c.size then c.cells i else zero c.type }

/-- `string_avg_size`: the average length of the strings that are not empty. -/
def stringAvgSize : Nat :=
  let lengths := ((List.range c.size).map fun i => (c.cells i).bytes.length).filter (0 < ·)
  if lengths = [] then 0 else (lengths.sum + lengths.length - 1) / lengths.length

def resize (size : Nat) : Column :=
  match c.type with
  | .empty => c
  | .fixed _ => c.withRows size
  | .varchar width =>
    let avg := if c.size = 0 ∨ c.stringAvgSize = 0 then width else c.stringAvgSize
    { c.withRows size with dataSize := max (size * avg) c.pos }

def resizeDefault (size : Nat) (default : Value) : Except ColumnError Column :=
  match c.type with
  | .empty => .ok c
  | .fixed t =>
    if default.HasType (.fixed t) then
      .ok { c with
        size := size
        cells := fun i =>
          if i < c.size then c.cells i else if default = .null then .fixed t 0 else default }
    else .error .defaultTypeMismatch
  | .varchar width =>
    if default.HasType (.varchar width) then
      match truncateUtf8 default.bytes width with
      | none => .error .diverges
      | some bytes =>
        let wide := c.withRows size
        let wide := { wide with
          dataSize := max (c.pos + (size - c.size) * width) (size * wide.stringAvgSize) }
        if bytes = [] ∨ size ≤ c.size then .ok wide
        else match wide.setString width c.size bytes with
          | .error e => .error e
          -- the other new rows share the bytes of the first one
          | .ok filled => .ok { filled with
              cells := fun i =>
                if c.size < i ∧ i < size then filled.cells c.size else filled.cells i }
    else .error .defaultTypeMismatch

/-- `set_value` of a typed key column. -/
def setKeyValue (keys : Column) (ind : Nat) (oid : Value) : Except ColumnError Column :=
  match keys.type with
  | .varchar width => keys.setString width ind oid.bytes
  | _ => keys.setFixed ind oid

/-! ### What a write does -/

variable {bytes : List UInt8} {c : Column} {width idx : Nat} {v : Value} {c' : Column}

/-- A string column never keeps more bytes than it was given. -/
theorem length_kept_le {copied : List UInt8} (h : kept width bytes = some copied) :
    copied.length ≤ bytes.length := by
  unfold kept truncateUtf8 at h
  split at h
  · split at h
    · exact (Option.some.inj h ▸ Nat.le_refl _)
    · obtain ⟨n, -, rfl⟩ := map_eq_some_iff.mp h
      exact List.length_take_le' n bytes
  · exact (Option.some.inj h ▸ Nat.le_refl _)

theorem truncateLoop_le {length fuel byteCount n : Nat} (hcount : byteCount ≤ length)
    (h : truncateLoop length fuel bytes byteCount = some n) : n ≤ length := by
  induction fuel generalizing bytes byteCount with
  | zero => cases h
  | succ fuel ih =>
    cases bytes with
    | nil => exact Option.some.inj h ▸ hcount
    | cons ch rest =>
      rw [truncateLoop] at h
      split at h
      · exact Option.some.inj h ▸ hcount
      split at h
      · cases h
      split at h
      · exact Option.some.inj h ▸ hcount
      · exact ih (by omega) h

/-- A string column never keeps more bytes than its width. -/
theorem length_kept_le_width {copied : List UInt8} (h : kept width bytes = some copied) :
    copied.length ≤ width := by
  unfold kept truncateUtf8 at h
  split at h
  · split at h
    next hle => exact Option.some.inj h ▸ hle
    · obtain ⟨n, hn, rfl⟩ := map_eq_some_iff.mp h
      exact Nat.le_trans (List.length_take_le n bytes) (truncateLoop_le (Nat.zero_le _) hn)
  next hlt =>
    rw [← Option.some.inj h]
    omega

/-- The value a column of a type keeps of a value; `none` when writing it does
not return. -/
def stored (t : DataType) (v : Value) : Option Value :=
  match t with
  | .empty => some .empty
  | .fixed t => some (if v = .null then .fixed t 0 else v)
  | .varchar width => (kept width v.bytes).map .varchar

/-- Row `idx` can take the value without growing the column. -/
def Fits (c : Column) (idx : Nat) (v : Value) : Prop :=
  match c.type with
  | .empty => True
  | .fixed _ => idx < c.size
  | .varchar width =>
    idx < c.size ∧ c.pos + v.bytes.length ≤ c.dataSize ∧ kept width v.bytes ≠ none

instance (c : Column) (idx : Nat) (v : Value) : Decidable (c.Fits idx v) := by
  unfold Fits
  cases c.type <;> infer_instance

/-- `c'` differs from `c` at most in row `idx` and in the data buffer. -/
structure Wrote (c c' : Column) (idx : Nat) : Prop where
  type_eq : c'.type = c.type
  size_eq : c'.size = c.size
  cells_ne : ∀ i, i ≠ idx → c'.cells i = c.cells i

theorem Wrote.refl (c : Column) (idx : Nat) : Wrote c c idx :=
  ⟨rfl, rfl, fun _ _ => rfl⟩

theorem setFixed_wrote (h : c.setFixed idx v = .ok c') : Wrote c c' idx ∧ c'.cells idx = v := by
  unfold setFixed at h
  split at h
  · cases h
    exact ⟨⟨rfl, rfl, fun i hi => update_of_ne hi _ _⟩, update_self _ _ _⟩
  · cases h

theorem setString_wrote (h : c.setString width idx bytes = .ok c') :
    Wrote c c' idx ∧ some (c'.cells idx) = (kept width bytes).map .varchar := by
  unfold setString at h
  split at h
  next => cases h
  next copied hkept =>
    split at h
    · cases h
    split at h
    · cases h
      refine ⟨⟨rfl, rfl, fun i hi => update_of_ne hi _ _⟩, ?_⟩
      simp [hkept]
    · cases h

/-- Writing a key changes the cell of the claimed id only. -/
theorem setKeyValue_wrote {keys keys' : Column} {ind : Nat} {oid : Value}
    (h : keys.setKeyValue ind oid = .ok keys') : Wrote keys keys' ind := by
  unfold setKeyValue at h
  split at h
  next => exact (setString_wrote h).1
  next => exact (setFixed_wrote h).1

/-- A successful write stores the value in its row and touches no other row. -/
theorem setAny_wrote {insertSafe : Bool} (h : c.setAny idx v insertSafe = .ok c') :
    Wrote c c' idx ∧ (c.type ≠ .empty → some (c'.cells idx) = stored c.type v) := by
  unfold setAny at h
  unfold stored
  split at h
  next htype =>
    cases h
    exact ⟨.refl c idx, fun hne => absurd htype hne⟩
  next t htype =>
    obtain ⟨hwrote, hcell⟩ := setFixed_wrote h
    exact ⟨hwrote, fun _ => congrArg some hcell⟩
  next width htype =>
    split at h
    · cases h
    split at h
    · next hnull =>
      obtain ⟨hwrote, hcell⟩ := setString_wrote h
      refine ⟨hwrote, fun _ => ?_⟩
      rw [hcell, hnull]
      rfl
    split at h
    · split at h
      · obtain ⟨hwrote, hcell⟩ := setString_wrote h
        exact ⟨⟨hwrote.type_eq, hwrote.size_eq, hwrote.cells_ne⟩, fun _ => hcell⟩
      · cases h
    · obtain ⟨hwrote, hcell⟩ := setString_wrote h
      exact ⟨hwrote, fun _ => hcell⟩

theorem setString_ok (hidx : idx < c.size) (hroom : c.pos + bytes.length ≤ c.dataSize)
    (hkept : kept width bytes ≠ none) : ∃ c', c.setString width idx bytes = .ok c' := by
  obtain ⟨copied, hcopied⟩ := ne_none_iff_exists'.mp hkept
  have hle := length_kept_le hcopied
  have hspace : c.pos + copied.length ≤ c.dataSize :=
    Nat.le_trans (Nat.add_le_add_left hle c.pos) hroom
  simp only [setString, hcopied, if_neg (Nat.not_le.mpr hidx), if_pos hspace]
  exact ⟨_, rfl⟩

/-- A write that may not grow the column succeeds when the value fits. -/
theorem setAny_of_fits (h : c.Fits idx v) : ∃ c', c.setAny idx v false = .ok c' := by
  unfold Fits at h
  unfold setAny
  split at h
  next => exact ⟨c, rfl⟩
  next t htype =>
    simp only [setFixed, if_pos h]
    exact ⟨_, rfl⟩
  next width htype =>
    obtain ⟨hidx, hroom, hkept⟩ := h
    simp only [if_neg (Nat.not_le.mpr hidx), if_neg (Nat.not_lt.mpr hroom)]
    split
    · next hnull =>
      rw [hnull] at hroom hkept
      exact setString_ok hidx hroom hkept
    · exact setString_ok hidx hroom hkept

/-- A column keeps of a string what `truncate_utf8` keeps. -/
theorem kept_eq_truncateUtf8 (width : Nat) (bytes : List UInt8) :
    kept width bytes = truncateUtf8 bytes width := by
  unfold kept
  split
  next => rfl
  next hlt => rw [truncateUtf8, if_pos (Nat.le_of_not_le hlt)]

theorem kept_of_length_le (h : bytes.length ≤ width) : kept width bytes = some bytes := by
  rw [kept_eq_truncateUtf8, truncateUtf8, if_pos h]

/-- `c'` is `c` with another number of rows, the new ones with the value `v`. -/
structure Grew (c c' : Column) (size : Nat) (v : Value) : Prop where
  type_eq : c'.type = c.type
  size_eq : c.type ≠ .empty → c'.size = size
  old : ∀ i < c.size, c'.cells i = c.cells i
  new : c.type ≠ .empty → ∀ i, c.size ≤ i → i < size → c'.cells i = v

/-- Growing a column fills the new rows with what it keeps of the default. -/
theorem resizeDefault_grew {default : Value} (size : Nat) (htype : default.HasType c.type)
    (hstored : stored c.type default = some v) :
    ∃ c', c.resizeDefault size default = .ok c' ∧ Grew c c' size v := by
  unfold stored at hstored
  unfold resizeDefault
  split at hstored
  next hempty =>
    exact ⟨c, rfl, rfl, fun h => absurd hempty h, fun _ _ => rfl, fun h => absurd hempty h⟩
  next t ht =>
    rw [ht] at htype
    simp only [htype, if_true, Except.ok.injEq, exists_eq_left']
    refine ⟨rfl, fun _ => rfl, fun i hi => if_pos hi, fun _ i hi _ => ?_⟩
    simp only [if_neg (Nat.not_lt.mpr hi)]
    exact Option.some.inj hstored
  next width ht =>
    obtain ⟨bytes, hkept, rfl⟩ := map_eq_some_iff.mp hstored
    have hwidth := length_kept_le_width hkept
    rw [kept_eq_truncateUtf8] at hkept
    rw [ht] at htype
    simp only [htype, if_true, hkept]
    by_cases hnone : bytes = [] ∨ size ≤ c.size
    · simp only [hnone, if_true, Except.ok.injEq, exists_eq_left']
      refine ⟨rfl, fun _ => rfl, fun i hi => if_pos hi, fun _ i hi hsize => ?_⟩
      rcases hnone with rfl | hle
      · simp only [withRows, if_neg (Nat.not_lt.mpr hi), ht]
        rfl
      · omega
    · obtain ⟨-, hgrow⟩ := not_or.mp hnone
      have hlt : c.size < size := Nat.lt_of_not_le hgrow
      have hroom : width ≤ (size - c.size) * width :=
        Nat.le_mul_of_pos_left width (Nat.sub_pos_of_lt hlt)
      simp only [hnone, if_false]
      generalize hwide : Column.mk (c.withRows size).type (c.withRows size).size
        (c.withRows size).pos
        (max (c.pos + (size - c.size) * width) (size * (c.withRows size).stringAvgSize))
        (c.withRows size).cells = wide
      have hspace : wide.pos + bytes.length ≤ wide.dataSize := by
        rw [← hwide]
        exact Nat.le_trans (Nat.add_le_add_left (Nat.le_trans hwidth hroom) _)
          (Nat.le_max_left _ _)
      have hwideSize : wide.size = size := by rw [← hwide]; rfl
      have hkept' := kept_of_length_le hwidth
      obtain ⟨filled, hfilled⟩ :=
        setString_ok (hwideSize.symm ▸ hlt) hspace (by rw [hkept']; exact some_ne_none _)
      obtain ⟨hwrote, hcell⟩ := setString_wrote hfilled
      rw [hkept', map_some, Option.some.injEq] at hcell
      rw [hfilled]
      refine ⟨_, rfl, ?_, ?_, ?_, ?_⟩
      · rw [hwrote.type_eq, ← hwide]
        rfl
      · exact fun _ => hwrote.size_eq.trans hwideSize
      · intro i hi
        simp only [if_neg (show ¬(c.size < i ∧ i < size) by omega)]
        rw [hwrote.cells_ne i (Nat.ne_of_lt hi), ← hwide]
        exact if_pos hi
      · intro _ i hi hsize
        by_cases heq : i = c.size
        · rw [heq]
          simp only [Nat.lt_irrefl, false_and, if_false]
          exact hcell
        · simp only [if_pos (show c.size < i ∧ i < size by omega)]
          exact hcell

/-- A default on which `truncate_utf8` does not return keeps the column from growing. -/
theorem resizeDefault_of_stored_none {default : Value} (size : Nat)
    (hstored : stored c.type default = none) : ∀ c', c.resizeDefault size default ≠ .ok c' := by
  intro c' hok
  unfold stored at hstored
  unfold resizeDefault at hok
  split at hstored
  next => cases hstored
  next => cases hstored
  next width ht =>
    rw [map_eq_none_iff, kept_eq_truncateUtf8] at hstored
    rw [ht] at hok
    simp only [hstored] at hok
    split at hok
    · cases hok
    · cases hok

end Column

/-! ### Tables

A property table is a list of columns. -/

namespace Table

def size : List Column → Nat
  | [] => 0
  | c :: _ => c.size

def insert (table : List Column) (index : Nat) (values : List Value) (insertSafe : Bool) :
    Except ColumnError (List Column) :=
  if values.length ≠ table.length then .error .rowSizeMismatch
  else (table.zip values).mapM fun (c, v) => c.setAny index v insertSafe

def resize (table : List Column) (rowNum : Nat) (defaults : List Value) :
    Except ColumnError (List Column) :=
  if defaults.length ≠ table.length then
    .error (.defaultsMismatch table.length defaults.length)
  else (table.zip defaults).mapM fun (c, v) => c.resizeDefault rowNum v

end Table

end Neug.Storage
