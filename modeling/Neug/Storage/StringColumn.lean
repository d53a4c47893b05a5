import Neug.Library.Buffer
import Neug.Library.Fallible
import Neug.Library.Reachability
import Neug.Storage.Column

/-! # String columns

The buffers of a string column: an item per row that names a range of bytes, and the bytes.
A written string is always appended, so overwritten bytes stay and rows may share a range.
This is the layout below `Column`, which keeps the rows only.
-/

namespace Neug.Storage

open Library List

/-- `string_item`: 48 bits for the offset, 16 bits for the length. -/
structure StringItem where
  offset : Nat
  length : Nat
  deriving DecidableEq, Repr

namespace StringItem

def pack (offset length : Nat) : StringItem := ⟨offset % 2 ^ 48, length % 2 ^ 16⟩

def blank : StringItem := ⟨0, 0⟩

def bytes (data : List UInt8) (item : StringItem) : List UInt8 :=
  slice data item.offset item.length

end StringItem

/-- The buffers of a string column.  `width` is the maximal length, 16 bits. -/
structure StringColumn where
  items : List StringItem
  data : List UInt8
  pos : Nat
  width : Nat
  deriving DecidableEq, Repr

namespace StringColumn

variable (c : StringColumn)

def size : Nat := c.items.length

/-- `get_view`; `none` for a range that is not inside the data buffer. -/
def getView (idx : Nat) : Option (List UInt8) :=
  match c.items[idx]? with
  | none => none
  | some item =>
    if item.offset + item.length ≤ c.data.length then some (item.bytes c.data) else none

def setValue (idx : Nat) (val : List UInt8) : Except ColumnError StringColumn :=
  match Column.kept c.width val with
  | none => .error .diverges
  | some copied =>
    if c.size ≤ idx then .error .indexOutOfRange
    else if c.pos + copied.length ≤ c.data.length then
      .ok { c with
        items := c.items.set idx (.pack c.pos copied.length)
        data := overwrite c.data c.pos copied
        pos := c.pos + copied.length }
    else .error .noSpace

def withData (bytes : Nat) : StringColumn :=
  { c with data := resized 0 c.data bytes }

def withItems (size : Nat) : StringColumn :=
  { c with items := resized .blank c.items size }

/-- `set_any`; `none` stands for null. -/
def setAny (idx : Nat) (value : Option (List UInt8)) (insertSafe : Bool) :
    Except ColumnError StringColumn :=
  if c.size ≤ idx then .error .indexOutOfRange
  else match value with
    | none => c.setValue idx []
    | some dst =>
      if c.data.length < c.pos + dst.length then
        if insertSafe then
          let newAvgWidth := (c.pos + idx) / (idx + 1)
          (c.withData (max (c.size * newAvgWidth) (c.pos + dst.length))).setValue idx dst
        else .error .noSpaceUnsafe
      else c.setValue idx dst

def stringAvgSize : Nat :=
  let lengths := (c.items.map StringItem.length).filter (0 < ·)
  if lengths = [] then 0 else (lengths.sum + lengths.length - 1) / lengths.length

def resize (size : Nat) : StringColumn :=
  let avgSize := if c.items = [] ∨ c.stringAvgSize = 0 then c.width else c.stringAvgSize
  (c.withItems size).withData (max (size * avgSize) c.pos)

/-- `resize(size, data_size)`, which only grows the buffers. -/
def resizeData (size dataSize : Nat) : StringColumn :=
  (c.withItems (max c.size size)).withData (max c.data.length (c.pos + dataSize))

def resizeDefault (size : Nat) (default : List UInt8) : Except ColumnError StringColumn :=
  match truncateUtf8 default c.width with
  | none => .error .diverges
  | some bytes =>
    let wide := c.withItems size
    let wide := wide.withData
      (max (c.pos + (size - c.size) * c.width) (size * wide.stringAvgSize))
    if bytes = [] ∨ size ≤ c.size then .ok wide
    else match wide.setValue c.size bytes with
      | .error e => .error e
      -- the other new rows get the item of the first one
      | .ok filled => .ok { filled with
          items := filled.items.take (c.size + 1) ++
            replicate (size - (c.size + 1)) (filled.items.getD c.size .blank) }

def copyItem (dst src : Nat) : Except ColumnError StringColumn :=
  match c.items[src]? with
  | none => .error .indexOutOfRange
  | some item =>
    if dst < c.size then .ok { c with items := c.items.set dst item }
    else .error .indexOutOfRange

def shrinkItems (size : Nat) : Except ColumnError StringColumn :=
  if size ≤ c.size then .ok (c.withItems size) else .error .indexOutOfRange

/-! ## Rows stay inside the written bytes -/

structure WellFormed (c : StringColumn) : Prop where
  pos_le : c.pos ≤ c.data.length
  width_lt : c.width < 2 ^ 16
  inside : ∀ item ∈ c.items, item.offset + item.length ≤ c.pos
  length_lt : ∀ item ∈ c.items, item.length < 2 ^ 16

def Initial : Prop :=
  c.items = [] ∧ c.data = [] ∧ c.pos = 0 ∧ c.width < 2 ^ 16

theorem Initial.wellFormed {c : StringColumn} (h : c.Initial) : c.WellFormed := by
  obtain ⟨hitems, hdata, hpos, hwidth⟩ := h
  exact ⟨by simp [hpos], hwidth, by simp [hitems], by simp [hitems]⟩

theorem getView_of_item {c : StringColumn} {idx : Nat} {item : StringItem}
    (hitem : c.items[idx]? = some item) (hroom : item.offset + item.length ≤ c.data.length) :
    c.getView idx = some (item.bytes c.data) := by
  simp only [getView, hitem, if_pos hroom]

namespace WellFormed

variable {c c' : StringColumn}

variable {idx : Nat}

section

variable (h : c.WellFormed)
include h

theorem getView_eq {item : StringItem} (hitem : c.items[idx]? = some item) :
    c.getView idx = some (item.bytes c.data) :=
  getView_of_item hitem (Nat.le_trans (h.inside item (mem_of_getElem? hitem)) h.pos_le)

theorem withData {bytes : Nat} (hbytes : c.pos ≤ bytes) : (c.withData bytes).WellFormed :=
  ⟨by simpa [StringColumn.withData] using hbytes, h.width_lt, h.inside, h.length_lt⟩

/-- Rows may be given the items of other rows, or be emptied. -/
theorem withRows {items : List StringItem}
    (hitems : ∀ item ∈ items, item ∈ c.items ∨ item = .blank) :
    StringColumn.WellFormed { c with items := items } := by
  refine ⟨h.pos_le, h.width_lt, ?_, ?_⟩
  · intro item hitem
    rcases hitems item hitem with hold | rfl
    · exact h.inside item hold
    · exact Nat.zero_le _
  · intro item hitem
    rcases hitems item hitem with hold | rfl
    · exact h.length_lt item hold
    · exact Nat.two_pow_pos 16

theorem withItems (size : Nat) : (c.withItems size).WellFormed :=
  h.withRows fun _ => mem_resized

theorem setValue {val : List UInt8} (hset : c.setValue idx val = .ok c') : c'.WellFormed := by
  unfold StringColumn.setValue at hset
  split at hset
  next => cases hset
  next copied hkept =>
    split at hset
    · cases hset
    split at hset
    next hroom =>
      cases hset
      have hnew : ∀ item ∈ c.items.set idx (.pack c.pos copied.length),
          item ∈ c.items ∨ item = .pack c.pos copied.length :=
        fun item hitem => mem_or_eq_of_mem_set hitem
      refine ⟨?_, h.width_lt, ?_, ?_⟩
      · simp only [length_overwrite hroom]
        exact hroom
      · intro item hitem
        rcases hnew item hitem with hold | rfl
        · exact Nat.le_add_right_of_le (h.inside item hold)
        · simp only [StringItem.pack]
          omega
      · intro item hitem
        rcases hnew item hitem with hold | rfl
        · exact h.length_lt item hold
        · exact Nat.mod_lt _ (Nat.two_pow_pos 16)
    next => cases hset

theorem setAny {value : Option (List UInt8)} {insertSafe : Bool}
    (hset : c.setAny idx value insertSafe = .ok c') : c'.WellFormed := by
  unfold StringColumn.setAny at hset
  split at hset
  · cases hset
  split at hset
  · exact h.setValue hset
  next dst =>
    split at hset
    · split at hset
      · have hroom : c.pos ≤ max (c.size * ((c.pos + idx) / (idx + 1))) (c.pos + dst.length) :=
          Nat.le_trans (Nat.le_add_right _ _) (Nat.le_max_right _ _)
        exact (h.withData hroom).setValue hset
      · cases hset
    · exact h.setValue hset

theorem resizeDefault {size : Nat} {default : List UInt8}
    (hresize : c.resizeDefault size default = .ok c') : c'.WellFormed := by
  unfold StringColumn.resizeDefault at hresize
  split at hresize
  next => cases hresize
  next bytes htruncate =>
    have hwide := (h.withItems size).withData
      (Nat.le_trans (Nat.le_add_right c.pos ((size - c.size) * c.width))
        (Nat.le_max_left _ (size * (c.withItems size).stringAvgSize)))
    simp only at hresize
    split at hresize
    · cases hresize
      exact hwide
    split at hresize
    next => cases hresize
    next filled hfilled =>
      cases hresize
      refine (hwide.setValue hfilled).withRows fun item hitem => ?_
      rcases mem_append.mp hitem with hold | hnew
      · exact .inl (mem_of_mem_take hold)
      · rw [eq_of_mem_replicate hnew, getD_eq_getElem?_getD]
        cases hfirst : filled.items[c.size]? with
        | none => exact .inr rfl
        | some first => exact .inl (mem_of_getElem? hfirst)

theorem copyItem {dst src : Nat} (hcopy : c.copyItem dst src = .ok c') : c'.WellFormed := by
  unfold StringColumn.copyItem at hcopy
  split at hcopy
  next => cases hcopy
  next item hitem =>
    split at hcopy
    · cases hcopy
      refine h.withRows fun other hother => ?_
      rcases mem_or_eq_of_mem_set hother with hold | rfl
      · exact .inl hold
      · exact .inl (mem_of_getElem? hitem)
    · cases hcopy

theorem shrinkItems {size : Nat} (hshrink : c.shrinkItems size = .ok c') : c'.WellFormed := by
  unfold StringColumn.shrinkItems at hshrink
  split at hshrink
  · cases hshrink
    exact h.withItems size
  · cases hshrink

end

end WellFormed

end StringColumn

end Neug.Storage
