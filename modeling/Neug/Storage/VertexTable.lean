import Neug.Library.LinearProbing
import Neug.Storage.Column
import Neug.Storage.VertexTimestamp

/-! # Vertex tables

A vertex table has a primary-key indexer, the vertex timestamps and the property
columns.  The indexer is an array of slots filled by linear probing; a slot holds
a vertex id, whose key is in the key column.
-/

namespace Neug.Storage

open Library

/-- The hash function together with the reduction to the slots of the table. -/
structure HashPolicy where
  home : Nat → Value → Nat
  home_lt : ∀ n key, 0 < n → home n key < n

def firstSlot : HashPolicy := ⟨fun _ _ => 0, fun _ _ h => h⟩

/-- `LFIndexer`; `none` is the sentinel of an empty slot. -/
structure LFIndexer where
  keys : Column
  indices : Nat → Option Nat
  numSlots : Nat
  numElements : Nat

namespace LFIndexer

def capacity (ix : LFIndexer) : Nat := ix.keys.size

def getKey (ix : LFIndexer) (lid : Nat) : Value := ix.keys.getAny lid

/-- The checks of `get_index` and `insert` on a primary key. -/
def Accepts (ix : LFIndexer) (oid : Value) : Prop :=
  oid ≠ .null ∧ oid.HasType ix.keys.type

instance (ix : LFIndexer) (oid : Value) : Decidable (ix.Accepts oid) := by
  unfold Accepts
  infer_instance

variable {ix : LFIndexer}

/-- The cell of the claimed id gets what the key column keeps of the key. -/
theorem setKeyValue_cell {keys : Column} {ind : Nat} {oid : Value} (haccepts : ix.Accepts oid)
    (h : ix.keys.setKeyValue ind oid = .ok keys) :
    some (keys.cells ind) = Column.stored ix.keys.type oid := by
  obtain ⟨hnull, htype⟩ := haccepts
  unfold Column.setKeyValue at h
  unfold Column.stored
  split at h
  next width hvarchar =>
    rw [hvarchar]
    exact (Column.setString_wrote h).2
  next hother =>
    rw [(Column.setFixed_wrote h).2]
    cases hkeys : ix.keys.type with
    | varchar width => exact absurd hkeys (hother width)
    | fixed t => simp [hnull]
    | empty =>
      rw [hkeys] at htype
      cases oid with
      | empty => rfl
      | null => exact absurd rfl hnull
      | _ => exact absurd htype id

def getIndex (policy : HashPolicy) (ix : LFIndexer) (oid : Value) : Option Nat :=
  if ix.Accepts oid ∧ 0 < ix.numSlots then
    probe ix.indices ix.numSlots (fun lid => ix.getKey lid = oid) ix.numSlots
      (policy.home ix.numSlots oid)
  else none

/-- What a lookup returns has the key that was asked for, and is in the index. -/
theorem getIndex_sound {policy : HashPolicy} {oid : Value} {lid : Nat}
    (h : ix.getIndex policy oid = some lid) :
    ix.getKey lid = oid ∧ ∃ i, ix.indices i = some lid := by
  unfold getIndex at h
  split at h
  · obtain ⟨htest, hslot⟩ := probe_sound h
    exact ⟨of_decide_eq_true htest, hslot⟩
  · cases h

/-- The index is consistent: what it holds has been claimed, no two entries have
the same key, and each entry is on the probe path of its key. -/
structure Consistent (policy : HashPolicy) (ix : LFIndexer) : Prop where
  slots_pos : 0 < ix.numSlots
  key_unique : ∀ i j lid lid', ix.indices i = some lid → ix.indices j = some lid' →
    ix.getKey lid = ix.getKey lid' → lid = lid'
  on_path : ∀ i lid, ix.indices i = some lid → ∃ d,
    slotAt ix.numSlots (policy.home ix.numSlots (ix.getKey lid)) d = i ∧ d < ix.numSlots ∧
      Occupied ix.indices ix.numSlots (policy.home ix.numSlots (ix.getKey lid)) d
  accepted : ∀ i lid, ix.indices i = some lid → ix.Accepts (ix.getKey lid)

/-- In a consistent index a lookup finds every entry. -/
theorem Consistent.getIndex_eq {policy : HashPolicy} (hix : ix.Consistent policy) {i lid : Nat}
    (hslot : ix.indices i = some lid) : ix.getIndex policy (ix.getKey lid) = some lid := by
  obtain ⟨d, hd, hlt, hpath⟩ := hix.on_path i lid hslot
  have hhome := policy.home_lt ix.numSlots (ix.getKey lid) hix.slots_pos
  rw [getIndex, if_pos ⟨hix.accepted i lid hslot, hix.slots_pos⟩]
  have hstart := slotAt_zero hhome
  rw [← hstart]
  apply probe_complete hpath (hd ▸ hslot) (by simp) ?_ (Nat.zero_le d)
    (Nat.lt_of_le_of_lt (Nat.sub_le d 0) hlt)
  intro j lid' hj htest
  exact hix.key_unique j i lid' lid hj hslot (of_decide_eq_true htest)

/-- Every claimed id is in the index, and nothing else is. -/
structure WellFormed (policy : HashPolicy) (ix : LFIndexer) : Prop where
  consistent : ix.Consistent policy
  complete : ∀ lid < ix.numElements, ∃ i, ix.indices i = some lid
  claimed : ∀ i lid, ix.indices i = some lid → lid < ix.numElements
  fits : ix.numElements ≤ ix.capacity

end LFIndexer

structure VertexTable where
  indexer : LFIndexer
  vts : VertexTimestamp
  table : List Column

inductive VertexError where
  | outOfRange (lid : Nat)
  | deleted (lid : Nat)
  | alreadyExists (lid : Nat)
  | reservedNotEnough (capacity ind : Nat)
  | timestampTaken (v expected : Nat)
  | nullKey
  | keyTypeMismatch
  | failToAdd
  | failToUpdate
  /-- `insert_index` finds no empty slot and goes on forever. -/
  | indexFull
  | remove (error : VertexTimestamp.RemoveError)
  | column (error : ColumnError)
  deriving DecidableEq, Repr

namespace VertexTable

variable (vt : VertexTable)

def lidNum : Nat := vt.indexer.numElements

def isValidLid (vt : VertexTable) (lid ts : Nat) : Bool :=
  lid < vt.indexer.numElements && vt.vts.isVertexValid lid ts

/-- `get_lid`: the id of an object id that is visible at a timestamp. -/
def getLid (policy : HashPolicy) (vt : VertexTable) (oid : Value) (ts : Nat) : Option Nat :=
  match vt.indexer.getIndex policy oid with
  | some lid => if vt.vts.isVertexValid lid ts then some lid else none
  | none => none

def getOid (lid ts : Nat) : Except VertexError Value :=
  if vt.indexer.numElements ≤ lid then .error (.outOfRange lid)
  else if vt.vts.isVertexValid lid ts then .ok (vt.indexer.getKey lid)
  else .error (.deleted lid)

theorem getLid_eq_some {policy : HashPolicy} {vt : VertexTable} {oid : Value} {ts lid : Nat} :
    vt.getLid policy oid ts = some lid ↔
      vt.indexer.getIndex policy oid = some lid ∧ vt.vts.isVertexValid lid ts = true := by
  unfold getLid
  cases vt.indexer.getIndex policy oid with
  | none => simp
  | some l =>
    by_cases hvalid : vt.vts.isVertexValid l ts = true
    · simp only [hvalid, if_true, Option.some.injEq]
      constructor
      · rintro rfl
        exact ⟨rfl, hvalid⟩
      · exact And.left
    · simp only [hvalid, Bool.false_eq_true, if_false, Option.some.injEq, reduceCtorEq, false_iff]
      rintro ⟨rfl, h⟩
      exact hvalid h

/-- `lid` is a vertex with the object id, valid at the timestamp. -/
def Valid (lid : Nat) (oid : Value) (ts : Nat) : Prop :=
  lid < vt.lidNum ∧ vt.indexer.getKey lid = oid ∧ vt.vts.isVertexValid lid ts = true

instance (lid : Nat) (oid : Value) (ts : Nat) : Decidable (vt.Valid lid oid ts) :=
  inferInstanceAs (Decidable (_ ∧ _ ∧ _))

end VertexTable

end Neug.Storage
