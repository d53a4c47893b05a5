import Mathlib.Data.Finset.Erase
import Mathlib.Data.Finset.Filter
import Mathlib.Data.Finset.Insert

/-! # Vertex timestamps

Each vertex id has the timestamp of the transaction that inserted it, or is
marked deleted.  Ids below `initVertexNum` are the compacted ones: they count as
inserted at timestamp 0 unless they are in the set of removed ids.  Seen from
outside this is a partial map from ids to timestamps, `entry`; the operations are
specified by what they do to that map.
-/

namespace Neug.Storage

open Function

def kDeletedTimestamp : Nat := 4294967295

/-- `MAX_TIMESTAMP`, at which every inserted vertex is visible. -/
def kMaxReadTimestamp : Nat := 4294967294

structure VertexTimestamp where
  initVertexNum : Nat
  maxVertexNum : Nat
  init_le_max : initVertexNum ≤ maxVertexNum
  /-- `inserted_vertices_`, indexed from `initVertexNum`. -/
  inserted : Nat → Nat
  /-- `removed_vertices_`; an absent set is the empty one. -/
  removed : Finset Nat

namespace VertexTimestamp

variable (vt : VertexTimestamp)

def isVertexValid (v ts : Nat) : Bool :=
  if vt.maxVertexNum ≤ v then false
  else if vt.initVertexNum ≤ v then
    vt.inserted (v - vt.initVertexNum) ≠ kDeletedTimestamp &&
      vt.inserted (v - vt.initVertexNum) ≤ ts
  else v ∉ vt.removed

/-- `materialize_compacted_range_for_reuse`: ids from `v` on get entries of their
own. -/
def materialize (v : Nat) (hv : v ≤ vt.initVertexNum) : VertexTimestamp where
  initVertexNum := v
  maxVertexNum := vt.maxVertexNum
  init_le_max := Nat.le_trans hv vt.init_le_max
  inserted := fun i =>
    if i < vt.initVertexNum - v then if v + i ∈ vt.removed then kDeletedTimestamp else 0
    else vt.inserted (i - (vt.initVertexNum - v))
  removed := vt.removed.filter (· < v)

/-- The compare-and-exchange of `InsertVertex`; on failure the exception quotes
the timestamp found. -/
def publish (v ts : Nat) (spurious : Bool) : Except Nat VertexTimestamp :=
  if vt.inserted (v - vt.initVertexNum) = kDeletedTimestamp ∧ ¬spurious then
    .ok { vt with inserted := update vt.inserted (v - vt.initVertexNum) ts }
  else .error (vt.inserted (v - vt.initVertexNum))

def insertVertex (v ts : Nat) (spurious : Bool) : Except Nat VertexTimestamp :=
  if h : v < vt.initVertexNum then
    if ts = 0 then .ok { vt with removed := vt.removed.erase v }
    else (vt.materialize v (Nat.le_of_lt h)).publish v ts spurious
  else vt.publish v ts spurious

/-- What `InsertVertex` leaves behind when its exchange fails. -/
def afterFailedInsert (v : Nat) : VertexTimestamp :=
  if h : v < vt.initVertexNum then vt.materialize v (Nat.le_of_lt h) else vt

inductive RemoveError where
  | outOfRange (v : Nat)
  | deleted (v : Nat)
  deriving DecidableEq, Repr

def removeVertex (v : Nat) : Except RemoveError VertexTimestamp :=
  if vt.maxVertexNum ≤ v then .error (.outOfRange v)
  else if vt.initVertexNum ≤ v then
    if vt.inserted (v - vt.initVertexNum) = kDeletedTimestamp then .error (.deleted v)
    else .ok { vt with
      inserted := update vt.inserted (v - vt.initVertexNum) kDeletedTimestamp }
  else .ok { vt with removed := insert v vt.removed }

def reserve (newSize : Nat) : VertexTimestamp :=
  if newSize ≤ vt.maxVertexNum ∧ vt.initVertexNum < newSize then vt
  else if h : newSize ≤ vt.initVertexNum then
    { initVertexNum := newSize
      maxVertexNum := newSize
      init_le_max := Nat.le_refl newSize
      inserted := fun _ => kDeletedTimestamp
      removed := vt.removed.filter (· < newSize) }
  else
    { vt with
      maxVertexNum := newSize
      init_le_max := Nat.le_of_not_le h
      inserted := fun i =>
        if i < vt.maxVertexNum - vt.initVertexNum then vt.inserted i else kDeletedTimestamp }

/-- The timestamp at which an id was inserted, if it is not deleted. -/
def entry (v : Nat) : Option Nat :=
  if vt.maxVertexNum ≤ v then none
  else if vt.initVertexNum ≤ v then
    if vt.inserted (v - vt.initVertexNum) = kDeletedTimestamp then none
    else some (vt.inserted (v - vt.initVertexNum))
  else if v ∈ vt.removed then none
  else some 0

theorem isVertexValid_iff (v ts : Nat) :
    vt.isVertexValid v ts = true ↔ ∃ e, vt.entry v = some e ∧ e ≤ ts := by
  unfold isVertexValid entry
  by_cases hmax : vt.maxVertexNum ≤ v
  · simp [hmax]
  · by_cases hinit : vt.initVertexNum ≤ v
    · by_cases hdeleted : vt.inserted (v - vt.initVertexNum) = kDeletedTimestamp
      · simp [hmax, hinit, hdeleted]
      · simp [hmax, hinit, hdeleted]
    · by_cases hremoved : v ∈ vt.removed
      · simp [hmax, hinit, hremoved]
      · simp [hmax, hinit, hremoved]

variable {v : Nat}

/-- Materialising entries changes no answer. -/
theorem entry_materialize (vt : VertexTimestamp) (hv : v ≤ vt.initVertexNum) (u : Nat) :
    (vt.materialize v hv).entry u = vt.entry u := by
  unfold entry materialize
  by_cases hmax : vt.maxVertexNum ≤ u
  · simp [hmax]
  · by_cases hlow : v ≤ u
    · by_cases hinit : vt.initVertexNum ≤ u
      · have hnot : ¬u - v < vt.initVertexNum - v := by omega
        have hshift : u - v - (vt.initVertexNum - v) = u - vt.initVertexNum := by omega
        simp [hmax, hlow, hinit, hnot, hshift]
      · have hlt : u - v < vt.initVertexNum - v := by omega
        have hback : v + (u - v) = u := by omega
        by_cases hremoved : u ∈ vt.removed
        · simp [hmax, hlow, hinit, hlt, hback, hremoved]
        · simp [hmax, hlow, hinit, hlt, hback, hremoved, kDeletedTimestamp]
    · have hinit : ¬vt.initVertexNum ≤ u := fun h => hlow (Nat.le_trans hv h)
      have hlt : u < v := Nat.lt_of_not_le hlow
      simp [hmax, hlow, hinit, hlt]

/-- Writing the entry of an id changes the map there only. -/
theorem entry_update (vt : VertexTimestamp) (hv : vt.initVertexNum ≤ v)
    (hmax : v < vt.maxVertexNum) (ts : Nat) :
    { vt with inserted := update vt.inserted (v - vt.initVertexNum) ts }.entry =
      update vt.entry v (if ts = kDeletedTimestamp then none else some ts) := by
  funext u
  by_cases huv : u = v
  · subst huv
    simp [entry, hv, Nat.not_le.mpr hmax]
  · rw [update_of_ne huv]
    by_cases hu : vt.initVertexNum ≤ u
    · have hne : u - vt.initVertexNum ≠ v - vt.initVertexNum := by omega
      simp [entry, hu, update_of_ne hne]
    · simp [entry, hu]

/-- The exchange succeeds on a deleted id only, and gives it the timestamp. -/
theorem publish_ok {vt vt' : VertexTimestamp} {ts : Nat} {spurious : Bool}
    (hv : vt.initVertexNum ≤ v) (hmax : v < vt.maxVertexNum) (hts : ts ≠ kDeletedTimestamp)
    (h : vt.publish v ts spurious = .ok vt') :
    vt.entry v = none ∧ vt'.entry = update vt.entry v (some ts) := by
  unfold publish at h
  split at h
  next hcas =>
    cases h
    refine ⟨by simp [entry, Nat.not_le.mpr hmax, hv, hcas.1], ?_⟩
    rw [entry_update vt hv hmax, if_neg hts]
  next => cases h

/-- An exchange on a deleted id succeeds unless it fails spuriously. -/
theorem publish_of_deleted {vt : VertexTimestamp} {ts : Nat} (hv : vt.initVertexNum ≤ v)
    (hmax : v < vt.maxVertexNum) (hentry : vt.entry v = none) :
    ∃ vt', vt.publish v ts false = .ok vt' := by
  have hdeleted : vt.inserted (v - vt.initVertexNum) = kDeletedTimestamp := by
    by_contra hne
    simp [entry, Nat.not_le.mpr hmax, hv, hne] at hentry
  simp only [publish, hdeleted, true_and, Bool.false_eq_true, not_false_eq_true, if_true]
  exact ⟨_, rfl⟩

end VertexTimestamp

end Neug.Storage
