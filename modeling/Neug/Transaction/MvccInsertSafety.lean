import Neug.Library.Reachability
import Neug.Transaction.MvccInsert

/-! # What concurrent committers do to a vertex table

Every access of a committer to a vertex table is one of a few moves.  From the
moves follows what no interleaving can undo: entries of the index stay where they
are, the keys of indexed ids are never overwritten, and an id that has a timestamp
keeps it.  An id between its claim and its publication in the index belongs to
one committer.
-/

namespace Neug.Transaction

open Function
open Storage Library

def Indexed (ix : LFIndexer) (lid : Nat) : Prop :=
  ∃ i, ix.indices i = some lid

namespace IngestPc

/-- The lookup that precedes an insertion, up to the claim of an id. -/
def Searching : IngestPc → Prop
  | checkCapacity | probe _ | claim => True
  | _ => False

/-- The id a committer has claimed and not yet put into the index. -/
def claimed : IngestPc → Option Nat
  | setKey ind | publishIndex ind _ => some ind
  | _ => none

end IngestPc

def claimOne (vt : VertexTable) : VertexTable :=
  { vt with indexer := { vt.indexer with numElements := vt.indexer.numElements + 1 } }

section Moves

variable (policy : HashPolicy) (vt : VertexTable) (oid : Value) (props : List Value) (ts : Nat)

/-- The moves of a committer that adds `oid` at timestamp `ts`. -/
inductive VertexMove : IngestPc → VertexTable → IngestProgress → Prop
  | fail (pc : IngestPc) (e : TxnError) : VertexMove pc vt (.failed e)
  | search {pc pc' : IngestPc} (hpc : pc.Searching) (hpc' : pc'.Searching)
      (haccepts : pc = .checkCapacity → vt.indexer.Accepts oid) :
      VertexMove pc vt (.running pc')
  | found {index lid : Nat} (hslot : vt.indexer.indices index = some lid)
      (hkey : vt.indexer.getKey lid = oid) :
      VertexMove (.probe index) vt (.running (.checkValid lid))
  | reuse {vid : Nat} (hinvalid : vt.vts.isVertexValid vid ts = false) :
      VertexMove (.checkValid vid) vt (.running (.materialize vid))
  | overclaim (hfull : vt.indexer.capacity ≤ vt.indexer.numElements) (e : TxnError) :
      VertexMove .claim (claimOne vt) (.failed e)
  | claim (hroom : vt.indexer.numElements < vt.indexer.capacity) :
      VertexMove .claim (claimOne vt) (.running (.setKey vt.indexer.numElements))
  | setKey {ind : Nat} {keys : Column} (hkeys : vt.indexer.keys.setKeyValue ind oid = .ok keys) :
      VertexMove (.setKey ind) { vt with indexer := { vt.indexer with keys := keys } }
        (.running (.publishIndex ind (policy.home vt.indexer.numSlots oid)))
  | skip {ind index : Nat} (hslot : vt.indexer.indices index ≠ none) :
      VertexMove (.publishIndex ind index) vt
        (.running (.publishIndex ind ((index + 1) % vt.indexer.numSlots)))
  | index {ind index : Nat} (hslot : vt.indexer.indices index = none) :
      VertexMove (.publishIndex ind index)
        { vt with indexer := { vt.indexer with
          indices := update vt.indexer.indices index (some ind) } }
        (.running (.materialize ind))
  | materialize {vid : Nat} {vts : VertexTimestamp} (hentry : vts.entry = vt.vts.entry)
      (hinit : vts.initVertexNum ≤ vid) (hle : vts.initVertexNum ≤ vt.vts.initVertexNum)
      (hmax : vts.maxVertexNum = vt.vts.maxVertexNum) :
      VertexMove (.materialize vid) { vt with vts := vts } (.running (.publishTs vid))
  | publish {vid : Nat} {vts : VertexTimestamp} {spurious : Bool}
      (hpublish : vt.vts.publish vid ts spurious = .ok vts) :
      VertexMove (.publishTs vid) { vt with vts := vts } (.running (.setProp vid 0))
  | setProp {vid col : Nat} {v : Value} {c c' : Column} (hv : props[col]? = some v)
      (hc : vt.table[col]? = some c) (hset : c.setAny vid v false = .ok c') :
      VertexMove (.setProp vid col) { vt with table := vt.table.set col c' }
        (.running (.setProp vid (col + 1)))
  | done {vid col : Nat} (hcol : props[col]? = none) :
      VertexMove (.setProp vid col) vt .applied

end Moves

/-- Every access is a move; insert transactions never have timestamp 0. -/
theorem vertexStep_move (policy : HashPolicy) (vt : VertexTable) (oid : Value)
    (props : List Value) {ts : Nat} (hts : ts ≠ 0) (pc : IngestPc) (spurious : Bool) :
    VertexMove policy vt oid props ts pc (vertexStep policy vt oid props ts pc spurious).1
      (vertexStep policy vt oid props ts pc spurious).2 := by
  cases pc with
  | checkCapacity =>
    simp only [vertexStep]
    split
    · exact .fail _ _
    split
    · exact .fail _ _
    split
    · exact .fail _ _
    next haccepts =>
      have haccepts := not_not.mp haccepts
      split
      · exact .search trivial trivial fun _ => haccepts
      · exact .search trivial trivial fun _ => haccepts
  | probe index =>
    simp only [vertexStep]
    split
    next => exact .search trivial trivial nofun
    next lid hslot =>
      split
      next hkey => exact .found hslot hkey
      next => exact .search trivial trivial nofun
  | checkValid vid =>
    simp only [vertexStep]
    split
    · exact .fail _ _
    · next hinvalid => exact .reuse (Bool.eq_false_iff.mpr hinvalid)
  | claim =>
    simp only [vertexStep]
    split
    · next hfull => exact .overclaim hfull _
    · next hroom => exact .claim (Nat.lt_of_not_le hroom)
  | setKey ind =>
    simp only [vertexStep]
    split
    next => exact .fail _ _
    next keys hkeys => exact .setKey hkeys
  | publishIndex ind index =>
    simp only [vertexStep]
    split
    next hslot => exact .index hslot
    next lid hslot => exact .skip (by simp [hslot])
  | materialize vid =>
    simp only [vertexStep]
    split
    next hlow =>
      apply VertexMove.materialize
      · funext u
        exact VertexTimestamp.entry_materialize vt.vts (Nat.le_of_lt hlow) u
      · exact Nat.le_refl vid
      · exact Nat.le_of_lt hlow
      · rfl
    next hhigh =>
      exact .materialize rfl (Nat.le_of_not_lt hhigh) (Nat.le_refl _) rfl
  | publishTs vid =>
    simp only [vertexStep]
    split
    next => exact .fail _ _
    next vts hpublish => exact .publish hpublish
  | setProp vid col =>
    simp only [vertexStep]
    split
    next hcol => exact .done hcol
    next => exact .fail _ _
    next v c hv hc =>
      split
      next => exact .fail _ _
      next c' hset => exact .setProp hv hc hset
  | findSrc | findDst | beginEdge | putIn | putOut | setEdgeProp => exact .fail _ _

/-! ### What is never undone -/

/-- `vt'` has everything that `vt` has: index entries with their keys, claimed ids
and timestamps. -/
structure Grows (vt vt' : VertexTable) : Prop where
  indices : Extends vt.indexer.indices vt'.indexer.indices
  numSlots : vt'.indexer.numSlots = vt.indexer.numSlots
  numElements : vt.indexer.numElements ≤ vt'.indexer.numElements
  keyType : vt'.indexer.keys.type = vt.indexer.keys.type
  capacity : vt'.indexer.capacity = vt.indexer.capacity
  getKey : ∀ lid, Indexed vt.indexer lid → vt'.indexer.getKey lid = vt.indexer.getKey lid
  entry : ∀ lid e, vt.vts.entry lid = some e → vt'.vts.entry lid = some e
  initVertexNum : vt'.vts.initVertexNum ≤ vt.vts.initVertexNum
  maxVertexNum : vt'.vts.maxVertexNum = vt.vts.maxVertexNum

namespace Grows

variable {vt vt' vt'' : VertexTable}

theorem refl (vt : VertexTable) : Grows vt vt where
  indices := Extends.refl _
  numSlots := rfl
  numElements := Nat.le_refl _
  keyType := rfl
  capacity := rfl
  getKey := fun _ _ => rfl
  entry := fun _ _ h => h
  initVertexNum := Nat.le_refl _
  maxVertexNum := rfl

variable {lid : Nat}

theorem indexed (h : Grows vt vt') (hlid : Indexed vt.indexer lid) : Indexed vt'.indexer lid := by
  obtain ⟨i, hi⟩ := hlid
  exact ⟨i, h.indices i lid hi⟩

theorem trans (h : Grows vt vt') (h' : Grows vt' vt'') : Grows vt vt'' where
  indices := fun i lid hi => h'.indices i lid (h.indices i lid hi)
  numSlots := h'.numSlots.trans h.numSlots
  numElements := Nat.le_trans h.numElements h'.numElements
  keyType := h'.keyType.trans h.keyType
  capacity := h'.capacity.trans h.capacity
  getKey := fun lid hlid => (h'.getKey lid (h.indexed hlid)).trans (h.getKey lid hlid)
  entry := fun lid e he => h'.entry lid e (h.entry lid e he)
  initVertexNum := Nat.le_trans h'.initVertexNum h.initVertexNum
  maxVertexNum := h'.maxVertexNum.trans h.maxVertexNum

theorem isVertexValid (h : Grows vt vt') {ts : Nat} (hvalid : vt.vts.isVertexValid lid ts = true) :
    vt'.vts.isVertexValid lid ts = true := by
  obtain ⟨e, he, hle⟩ := (vt.vts.isVertexValid_iff lid ts).mp hvalid
  exact (vt'.vts.isVertexValid_iff lid ts).mpr ⟨e, h.entry lid e he, hle⟩

/-- Translating an indexed, visible id gives the same key ever after. -/
theorem getOid (h : Grows vt vt') {ts : Nat} (hlid : Indexed vt.indexer lid)
    (hlt : lid < vt.indexer.numElements) (hvalid : vt.vts.isVertexValid lid ts = true) :
    vt'.getOid lid ts = .ok (vt.indexer.getKey lid) := by
  have hlt' : ¬vt'.indexer.numElements ≤ lid :=
    Nat.not_le.mpr (Nat.lt_of_lt_of_le hlt h.numElements)
  rw [VertexTable.getOid, if_neg hlt', if_pos (h.isVertexValid hvalid), h.getKey lid hlid]

end Grows

def KeyKept (vt : VertexTable) (oid : Value) : Prop :=
  Column.stored vt.indexer.keys.type oid = some oid

/-! ### The invariant of a table -/

/-- What holds of a vertex table whatever the committers do. -/
structure TableOk (vt : VertexTable) : Prop where
  indexed_lt : ∀ lid, Indexed vt.indexer lid →
    lid < vt.indexer.numElements ∧ lid < vt.indexer.capacity
  entry_indexed : ∀ lid e, vt.vts.entry lid = some e → Indexed vt.indexer lid
  capacity_le : vt.indexer.capacity ≤ vt.vts.maxVertexNum

/-- An id that was claimed and is not in the index yet. -/
structure Claimed (vt : VertexTable) (ind : Nat) : Prop where
  lt_numElements : ind < vt.indexer.numElements
  lt_capacity : ind < vt.indexer.capacity
  not_indexed : ¬Indexed vt.indexer ind

/-- What a committer at timestamp `ts` knows of the table at each point. -/
def PcOk (vt : VertexTable) (ts : Nat) : IngestPc → Prop
  | .setKey ind | .publishIndex ind _ => Claimed vt ind
  | .checkValid vid | .materialize vid => Indexed vt.indexer vid
  | .publishTs vid => Indexed vt.indexer vid ∧ vt.vts.initVertexNum ≤ vid
  | .setProp vid _ => Indexed vt.indexer vid ∧ vt.vts.entry vid = some ts
  | _ => True

theorem PcOk.claimed {vt : VertexTable} {ts ind : Nat} {pc : IngestPc} (h : PcOk vt ts pc)
    (hpc : pc.claimed = some ind) : Claimed vt ind := by
  cases pc with
  | setKey _ | publishIndex _ _ =>
    cases hpc
    exact h
  | _ => cases hpc

theorem PcOk.of_searching (vt : VertexTable) (ts : Nat) {pc : IngestPc} (h : pc.Searching) :
    PcOk vt ts pc := by
  cases pc with
  | checkCapacity | probe _ | claim => trivial
  | _ => exact absurd h id

/-- What a committer knows survives moves of the others, which put no id of its
own into the index. -/
theorem PcOk.grows {vt vt' : VertexTable} {ts : Nat} {pc : IngestPc} (h : PcOk vt ts pc)
    (hgrows : Grows vt vt')
    (hkeep : ∀ ind, pc.claimed = some ind → ¬Indexed vt'.indexer ind) : PcOk vt' ts pc := by
  have hclaimed : ∀ ind, Claimed vt ind → ¬Indexed vt'.indexer ind → Claimed vt' ind := by
    intro ind hind hnot
    exact ⟨Nat.lt_of_lt_of_le hind.lt_numElements hgrows.numElements,
      hgrows.capacity ▸ hind.lt_capacity, hnot⟩
  cases pc with
  | setKey ind | publishIndex ind _ => exact hclaimed ind h (hkeep ind rfl)
  | checkValid vid | materialize vid => exact hgrows.indexed h
  | publishTs vid => exact ⟨hgrows.indexed h.1, Nat.le_trans hgrows.initVertexNum h.2⟩
  | setProp vid _ => exact ⟨hgrows.indexed h.1, hgrows.entry vid ts h.2⟩
  | _ => trivial

namespace VertexMove

variable {policy : HashPolicy} {vt vt' : VertexTable} {oid : Value} {props : List Value}
  {ts : Nat} {pc : IngestPc} {progress : IngestProgress}

/-- A published timestamp goes to an id that had none. -/
theorem publish_entry {vid : Nat} {vts : VertexTimestamp} {spurious : Bool}
    (hok : TableOk vt) (hpc : PcOk vt ts (.publishTs vid)) (hts : ts ≠ kDeletedTimestamp)
    (hpublish : vt.vts.publish vid ts spurious = .ok vts) :
    vt.vts.entry vid = none ∧ vts.entry = update vt.vts.entry vid (some ts) := by
  have hlt := (hok.indexed_lt vid hpc.1).2
  exact VertexTimestamp.publish_ok hpc.2 (Nat.lt_of_lt_of_le hlt hok.capacity_le) hts hpublish

theorem publish_bounds {vid : Nat} {vts : VertexTimestamp} {spurious : Bool}
    (hpublish : vt.vts.publish vid ts spurious = .ok vts) :
    vts.initVertexNum = vt.vts.initVertexNum ∧ vts.maxVertexNum = vt.vts.maxVertexNum := by
  unfold VertexTimestamp.publish at hpublish
  split at hpublish
  · cases hpublish
    exact ⟨rfl, rfl⟩
  · cases hpublish

theorem grows (hmove : VertexMove policy vt oid props ts pc vt' progress) (hok : TableOk vt)
    (hpc : PcOk vt ts pc) (hts : ts ≠ kDeletedTimestamp) : Grows vt vt' := by
  cases hmove with
  | fail | search | found | reuse | skip | done => exact .refl vt
  | overclaim | claim => exact { Grows.refl vt with numElements := Nat.le_succ _ }
  | setKey hkeys =>
    have hwrote := Column.setKeyValue_wrote hkeys
    refine { Grows.refl vt with
      keyType := hwrote.type_eq, capacity := hwrote.size_eq, getKey := ?_ }
    intro lid hlid
    apply hwrote.cells_ne
    rintro rfl
    exact hpc.not_indexed hlid
  | index hslot => exact { Grows.refl vt with indices := extends_update hslot _ }
  | materialize hentry hinit hle hmax =>
    refine { Grows.refl vt with initVertexNum := hle, maxVertexNum := hmax, entry := ?_ }
    intro lid e he
    exact hentry ▸ he
  | publish hpublish =>
    obtain ⟨hnone, hentry⟩ := publish_entry hok hpc hts hpublish
    obtain ⟨hinit, hmax⟩ := publish_bounds hpublish
    refine { Grows.refl vt with
      initVertexNum := Nat.le_of_eq hinit, maxVertexNum := hmax, entry := ?_ }
    intro lid e he
    have hne : lid ≠ _ := fun heq => by rw [heq, hnone] at he; cases he
    rw [hentry, update_of_ne hne, he]
  | setProp => exact { Grows.refl vt with }

variable {lid : Nat}

section

variable (hmove : VertexMove policy vt oid props ts pc vt' progress)
include hmove

/-- A new slot of the index is the one its committer was trying. -/
theorem indices_cases {i : Nat} (h : vt'.indexer.indices i = some lid) :
    vt.indexer.indices i = some lid ∨ pc = .publishIndex lid i ∧ vt.indexer.indices i = none := by
  cases hmove with
  | @index ind index hslot =>
    change update vt.indexer.indices index (some ind) i = some lid at h
    by_cases heq : i = index
    · subst heq
      rw [update_self] at h
      cases h
      exact .inr ⟨rfl, hslot⟩
    · rw [update_of_ne heq] at h
      exact .inl h
  | _ => exact .inl h

/-- An id that a move puts into the index is the one its committer had claimed. -/
theorem indexed_cases
    (h : Indexed vt'.indexer lid) : Indexed vt.indexer lid ∨ pc.claimed = some lid := by
  obtain ⟨i, hi⟩ := h
  rcases hmove.indices_cases hi with hold | ⟨rfl, -⟩
  · exact .inl ⟨i, hold⟩
  · exact .inr rfl

theorem getKey_eq (h : pc.claimed ≠ some lid) : vt'.indexer.getKey lid = vt.indexer.getKey lid := by
  cases hmove with
  | @setKey ind keys hkeys =>
    apply (Column.setKeyValue_wrote hkeys).cells_ne
    rintro rfl
    exact h rfl
  | _ => rfl

/-- A move gives a timestamp to an indexed id only. -/
theorem entry_cases (hok : TableOk vt)
    (hpc : PcOk vt ts pc) (hts : ts ≠ kDeletedTimestamp) {e : Nat}
    (h : vt'.vts.entry lid = some e) :
    vt.vts.entry lid = some e ∨ Indexed vt.indexer lid ∧ e = ts := by
  cases hmove with
  | materialize hentry => exact .inl (hentry ▸ h)
  | @publish vid _ _ hpublish =>
    obtain ⟨-, hentry⟩ := publish_entry hok hpc hts hpublish
    rw [hentry] at h
    by_cases heq : lid = vid
    · subst heq
      rw [update_self] at h
      exact .inr ⟨hpc.1, (Option.some.inj h).symm⟩
    · rw [update_of_ne heq] at h
      exact .inl h
  | _ => exact .inl h

theorem tableOk (hok : TableOk vt)
    (hpc : PcOk vt ts pc) (hts : ts ≠ kDeletedTimestamp) : TableOk vt' := by
  have hgrows := hmove.grows hok hpc hts
  constructor
  · intro lid hlid
    rw [hgrows.capacity]
    rcases hmove.indexed_cases hlid with hold | hclaimed
    · obtain ⟨hlt, hcap⟩ := hok.indexed_lt lid hold
      exact ⟨Nat.lt_of_lt_of_le hlt hgrows.numElements, hcap⟩
    · have h := hpc.claimed hclaimed
      exact ⟨Nat.lt_of_lt_of_le h.lt_numElements hgrows.numElements, h.lt_capacity⟩
  · intro lid e he
    rcases hmove.entry_cases hok hpc hts he with hold | ⟨hlid, -⟩
    · exact hgrows.indexed (hok.entry_indexed lid e hold)
    · exact hgrows.indexed hlid
  · rw [hgrows.capacity, hgrows.maxVertexNum]
    exact hok.capacity_le

end

/-- A committer knows at its next point what that point requires. -/
theorem pcOk {pc' : IngestPc} (hmove : VertexMove policy vt oid props ts pc vt' (.running pc'))
    (hok : TableOk vt) (hpc : PcOk vt ts pc) (hts : ts ≠ kDeletedTimestamp) : PcOk vt' ts pc' := by
  have hgrows := hmove.grows hok hpc hts
  cases hmove with
  | search _ hsearching _ => exact .of_searching _ _ hsearching
  | found hslot => exact ⟨_, hslot⟩
  | reuse => exact hpc
  | claim hroom =>
    refine ⟨Nat.lt_succ_self _, hroom, ?_⟩
    intro hindexed
    exact Nat.lt_irrefl _ (hok.indexed_lt _ hindexed).1
  | setKey => exact ⟨hpc.lt_numElements, hgrows.capacity ▸ hpc.lt_capacity, hpc.not_indexed⟩
  | skip => exact hpc
  | index => exact ⟨_, update_self _ _ _⟩
  | materialize _ hinit => exact ⟨hpc, hinit⟩
  | publish hpublish =>
    refine ⟨hpc.1, ?_⟩
    obtain ⟨-, hentry⟩ := publish_entry hok hpc hts hpublish
    rw [hentry, update_self]
  | setProp => exact hpc

/-- A committer that holds an id after a move held it before, or has just claimed
it. -/
theorem claimed_cases {pc' : IngestPc} {ind : Nat}
    (hmove : VertexMove policy vt oid props ts pc vt' (.running pc')) (h : pc'.claimed = some ind) :
    pc.claimed = some ind ∨ ind = vt.indexer.numElements := by
  cases hmove with
  | @search _ pc' _ hsearching _ =>
    cases pc' with
    | checkCapacity | probe _ | claim => cases h
    | _ => exact absurd hsearching id
  | claim => exact .inr (Option.some.inj h).symm
  | setKey | skip => exact .inl h
  | _ => cases h

end VertexMove

end Neug.Transaction
