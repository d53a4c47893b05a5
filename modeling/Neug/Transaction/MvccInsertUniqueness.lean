import Neug.Transaction.MvccInsertRuns

/-! # When keys stay unique

A committer looks a key up and inserts it in separate accesses, so two committers
can both find a key absent and both insert it.  This file shows what is enough:
if a committer claims an id for a key only while the key is not in the index and
no other committer holds an id for it, and the key column keeps the key unchanged,
then the index stays consistent in every interleaving.
-/

namespace Neug.Transaction

open Function
open Storage Library

def Absent (vt : VertexTable) (oid : Value) : Prop :=
  ∀ lid, Indexed vt.indexer lid → vt.indexer.getKey lid ≠ oid

/-- Slot `index` is on the probe path of the key, and all slots before it are
occupied. -/
def OnPath (policy : HashPolicy) (vt : VertexTable) (oid : Value) (index : Nat) : Prop :=
  ∃ d, slotAt vt.indexer.numSlots (policy.home vt.indexer.numSlots oid) d = index ∧
    Occupied vt.indexer.indices vt.indexer.numSlots (policy.home vt.indexer.numSlots oid) d

def KeyOk (policy : HashPolicy) (vt : VertexTable) (oid : Value) : IngestPc → Prop
  | .probe _ | .claim => vt.indexer.Accepts oid
  | .setKey _ => vt.indexer.Accepts oid ∧ Absent vt oid ∧ KeyKept vt oid
  | .publishIndex ind index => vt.indexer.Accepts oid ∧ Absent vt oid ∧
      vt.indexer.getKey ind = oid ∧ OnPath policy vt oid index
  | _ => True

section Table

variable {policy : HashPolicy} {vt vt' : VertexTable} {oid : Value} {props : List Value}
  {ts : Nat} {pc : IngestPc} {progress : IngestProgress}

theorem KeyOk.absent (h : KeyOk policy vt oid pc) (hclaimed : pc.claimed ≠ none) :
    Absent vt oid := by
  cases pc with
  | setKey _ | publishIndex _ _ => exact h.2.1
  | _ => exact absurd rfl hclaimed

theorem Grows.accepts (hgrows : Grows vt vt') (h : vt.indexer.Accepts oid) :
    vt'.indexer.Accepts oid := by
  refine ⟨h.1, ?_⟩
  rw [hgrows.keyType]
  exact h.2

theorem Grows.onPath (hgrows : Grows vt vt') {index : Nat} (h : OnPath policy vt oid index) :
    OnPath policy vt' oid index := by
  obtain ⟨d, hd, hpath⟩ := h
  refine ⟨d, ?_, ?_⟩
  · rw [hgrows.numSlots]
    exact hd
  · rw [hgrows.numSlots]
    exact hpath.mono hgrows.indices

/-- What a committer knows of its key survives moves that keep the key absent and
do not touch the claimed id. -/
theorem KeyOk.grows (h : KeyOk policy vt oid pc) (hgrows : Grows vt vt')
    (habsent : pc.claimed ≠ none → Absent vt' oid)
    (hkey : ∀ ind, pc.claimed = some ind → vt'.indexer.getKey ind = vt.indexer.getKey ind) :
    KeyOk policy vt' oid pc := by
  cases pc with
  | probe _ | claim => exact hgrows.accepts h
  | setKey ind =>
    refine ⟨hgrows.accepts h.1, habsent nofun, ?_⟩
    unfold KeyKept
    rw [hgrows.keyType]
    exact h.2.2
  | publishIndex ind index =>
    refine ⟨hgrows.accepts h.1, habsent nofun, ?_, hgrows.onPath h.2.2.2⟩
    rw [hkey ind rfl]
    exact h.2.2.1
  | _ => trivial

namespace VertexMove

variable (hmove : VertexMove policy vt oid props ts pc vt' progress)
include hmove

/-- A key stays absent unless the committer that moves is adding it. -/
theorem absent (hgrows : Grows vt vt') (hkeyOk : KeyOk policy vt oid pc) {oid' : Value}
    (h : Absent vt oid') (hne : pc.claimed ≠ none → oid ≠ oid') : Absent vt' oid' := by
  rintro lid ⟨i, hi⟩
  rcases hmove.indices_cases hi with hold | ⟨rfl, hslot⟩
  · rw [hgrows.getKey lid ⟨i, hold⟩]
    exact h lid ⟨i, hold⟩
  · cases hmove with
    | fail => rw [hslot] at hi; cases hi
    | search hsearching => exact absurd hsearching id
    | skip hfull => exact absurd hslot hfull
    | index =>
      change vt.indexer.getKey lid ≠ oid'
      rw [hkeyOk.2.2.1]
      exact hne nofun

theorem consistent (hgrows : Grows vt vt') (hkeyOk : KeyOk policy vt oid pc)
    (h : vt.indexer.Consistent policy) : vt'.indexer.Consistent policy := by
  -- an entry of the new index is an old one with its old key, or the new id with `oid`
  have hentry : ∀ i lid, vt'.indexer.indices i = some lid →
      (vt.indexer.indices i = some lid ∧
        vt'.indexer.getKey lid = vt.indexer.getKey lid) ∨
      (vt'.indexer.getKey lid = oid ∧ vt.indexer.indices i = none ∧
        vt.indexer.Accepts oid ∧ Absent vt oid ∧ OnPath policy vt oid i) := by
    intro i lid hi
    rcases hmove.indices_cases hi with hold | ⟨rfl, hslot⟩
    · exact .inl ⟨hold, hgrows.getKey lid ⟨i, hold⟩⟩
    · cases hmove with
      | fail => rw [hslot] at hi; cases hi
      | search hsearching => exact absurd hsearching id
      | skip hfull => exact absurd hslot hfull
      | index =>
        obtain ⟨haccepts, habsent, hkey, hpath⟩ := hkeyOk
        exact .inr ⟨hkey, hslot, haccepts, habsent, hpath⟩
  refine ⟨?_, ?_, ?_, ?_⟩
  · rw [hgrows.numSlots]
    exact h.slots_pos
  · intro i j lid lid' hi hj hkeys
    rcases hmove.indices_cases hi with hi₀ | ⟨hpc, hslot⟩
    · rcases hentry j lid' hj with ⟨hj₀, hkey'⟩ | ⟨hkey', -, -, habsent, -⟩
      · rw [hgrows.getKey lid ⟨i, hi₀⟩, hkey'] at hkeys
        exact h.key_unique i j lid lid' hi₀ hj₀ hkeys
      · rw [hgrows.getKey lid ⟨i, hi₀⟩, hkey'] at hkeys
        exact absurd hkeys (habsent lid ⟨i, hi₀⟩)
    · rcases hmove.indices_cases hj with hj₀ | ⟨hpc', -⟩
      · rcases hentry i lid hi with ⟨hi₀, -⟩ | ⟨hkey, -, -, habsent, -⟩
        · rw [hslot] at hi₀
          cases hi₀
        · rw [hgrows.getKey lid' ⟨j, hj₀⟩, hkey] at hkeys
          exact absurd hkeys.symm (habsent lid' ⟨j, hj₀⟩)
      · rw [hpc] at hpc'
        cases hpc'
        rfl
  · intro i lid hi
    rw [hgrows.numSlots]
    rcases hentry i lid hi with ⟨hold, hkey⟩ | ⟨hkey, hslot, -, -, d, hd, hpath⟩
    · obtain ⟨d, hd, hlt, hpath⟩ := h.on_path i lid hold
      rw [hkey]
      exact ⟨d, hd, hlt, hpath.mono hgrows.indices⟩
    · rw [hkey]
      refine ⟨d, hd, ?_, hpath.mono hgrows.indices⟩
      exact hpath.lt_of_empty h.slots_pos (hd ▸ hslot)
  · intro i lid hi
    rcases hentry i lid hi with ⟨hold, hkey⟩ | ⟨hkey, -, haccepts, -, -⟩
    · rw [hkey]
      exact hgrows.accepts (h.accepted i lid hold)
    · rw [hkey]
      exact hgrows.accepts haccepts

end VertexMove

section

variable {pc' : IngestPc} (hmove : VertexMove policy vt oid props ts pc vt' (.running pc'))
include hmove

/-- A committer comes to hold an id by claiming it. -/
theorem VertexMove.eq_claim
    (hbefore : pc.claimed = none) (hafter : pc'.claimed ≠ none) : pc = .claim := by
  cases hmove with
  | claim => rfl
  | @search _ pc' _ hsearching _ =>
    cases pc' with
    | checkCapacity | probe _ | claim => exact absurd rfl hafter
    | _ => exact absurd hsearching id
  | setKey | skip => cases hbefore
  | _ => exact absurd rfl hafter

/-- A committer knows of its key what its next point requires, if it claims an id
only for an absent key that the key column keeps. -/
theorem VertexMove.keyOk (hpos : 0 < vt.indexer.numSlots) (hpc : PcOk vt ts pc)
    (hkeyOk : KeyOk policy vt oid pc)
    (hclaim : pc = .claim → Absent vt oid ∧ KeyKept vt oid) : KeyOk policy vt' oid pc' := by
  cases hmove with
  | @search pc pc' hsearching hsearching' haccepts =>
    have hacc : vt.indexer.Accepts oid := by
      cases pc with
      | checkCapacity => exact haccepts rfl
      | probe _ | claim => exact hkeyOk
      | _ => exact absurd hsearching id
    cases pc' with
    | checkCapacity => trivial
    | probe _ | claim => exact hacc
    | _ => exact absurd hsearching' id
  | claim => exact ⟨hkeyOk, hclaim rfl⟩
  | @setKey ind keys hkeys =>
    obtain ⟨haccepts, habsent, hkept⟩ := hkeyOk
    have hwrote := Column.setKeyValue_wrote hkeys
    have hcell := LFIndexer.setKeyValue_cell haccepts hkeys
    refine ⟨⟨haccepts.1, ?_⟩, ?_, ?_, 0, ?_, occupied_zero _ _ _⟩
    · rw [hwrote.type_eq]
      exact haccepts.2
    · intro lid hlid
      have hne : lid ≠ ind := by
        rintro rfl
        exact hpc.not_indexed hlid
      change keys.cells lid ≠ oid
      rw [hwrote.cells_ne lid hne]
      exact habsent lid hlid
    · rw [hkept] at hcell
      exact Option.some.inj hcell
    · exact slotAt_zero (policy.home_lt _ _ hpos)
  | skip hslot =>
    obtain ⟨haccepts, habsent, hkey, d, hd, hpath⟩ := hkeyOk
    subst hd
    exact ⟨haccepts, habsent, hkey, d + 1, (slotAt_succ _ _ _).symm, hpath.succ hslot⟩
  | _ => trivial

end

end Table

/-! ### Runs in which no key is contended -/

section System

variable {Tid : Type*} [DecidableEq Tid] {policy : HashPolicy}

/-- The transaction is adding the key to the label, at the given point. -/
def TxnLocal.Adding (l : TxnLocal) (label : Nat) (oid : Value) (pc : IngestPc) : Prop :=
  ∃ props rest, l.pc = .ingesting (.insertVertex label oid props) pc rest

theorem TxnLocal.Adding.at {l : TxnLocal} {label : Nat} {oid : Value} {pc : IngestPc}
    (h : l.Adding label oid pc) : l.At label pc := by
  obtain ⟨props, rest, hpc⟩ := h
  exact ⟨oid, props, rest, hpc⟩

/-- If `t` is about to claim an id, its key is not in the index, no other
transaction holds an id for it, and the key column keeps it unchanged. -/
def InsertState.Uncontended (s : InsertState Tid) (t : Tid) : Prop :=
  ∀ label oid, (s.threads t).Adding label oid .claim →
    Absent (s.graph.vertices label) oid ∧ KeyKept (s.graph.vertices label) oid ∧
      ∀ t' pc, t' ≠ t → (s.threads t').Adding label oid pc → pc.claimed = none

def InsertState.UncontendedStep (policy : HashPolicy) (s s' : InsertState Tid) : Prop :=
  ∃ t action, (s.Uncontended t ∧ s.Undisturbed t) ∧ s.next policy t action = some s'

structure InsertState.Unique (policy : HashPolicy) (s : InsertState Tid) : Prop where
  inv : s.Inv
  consistent : ∀ label, (s.graph.vertices label).indexer.Consistent policy
  key : ∀ t label oid pc, (s.threads t).Adding label oid pc →
    KeyOk policy (s.graph.vertices label) oid pc
  apart : ∀ t t' label oid pc pc', (s.threads t).Adding label oid pc →
    (s.threads t').Adding label oid pc' → pc.claimed ≠ none → pc'.claimed ≠ none → t = t'

/-- What a step of one transaction has to establish about keys. -/
structure PreservesKeys (policy : HashPolicy) (s s' : InsertState Tid) (t : Tid)
    (l : TxnLocal) : Prop where
  threads : s'.threads = update s.threads t l
  consistent : ∀ label, (s'.graph.vertices label).indexer.Consistent policy
  foreign : ∀ t' label oid pc, t' ≠ t → (s.threads t').Adding label oid pc →
    KeyOk policy (s'.graph.vertices label) oid pc
  own : ∀ label oid pc, l.Adding label oid pc → KeyOk policy (s'.graph.vertices label) oid pc
  apart : ∀ t' label oid pc pc', t' ≠ t → l.Adding label oid pc →
    (s.threads t').Adding label oid pc' → pc.claimed ≠ none → pc'.claimed = none

namespace InsertState.Unique

variable {s s' : InsertState Tid} {t : Tid} {l : TxnLocal}

section

variable (h : s.Unique policy)
include h

theorem preserve (hinv' : s'.Inv) (hkeys : PreservesKeys policy s s' t l) : s'.Unique policy := by
  have hself : s'.threads t = l := by rw [hkeys.threads, update_self]
  have hother : ∀ t', t' ≠ t → s'.threads t' = s.threads t' := by
    intro t' hne
    rw [hkeys.threads, update_of_ne hne]
  refine ⟨hinv', hkeys.consistent, ?_, ?_⟩
  · intro t' label oid pc hadding
    by_cases heq : t' = t
    · rw [heq, hself] at hadding
      exact hkeys.own label oid pc hadding
    · rw [hother t' heq] at hadding
      exact hkeys.foreign t' label oid pc heq hadding
  · intro t₁ t₂ label oid pc₁ pc₂ h₁ h₂ hclaimed₁ hclaimed₂
    by_cases heq₁ : t₁ = t
    · by_cases heq₂ : t₂ = t
      · exact heq₁.trans heq₂.symm
      · rw [heq₁, hself] at h₁
        rw [hother t₂ heq₂] at h₂
        exact absurd (hkeys.apart t₂ label oid pc₁ pc₂ heq₂ h₁ h₂ hclaimed₁) hclaimed₂
    · rw [hother t₁ heq₁] at h₁
      by_cases heq₂ : t₂ = t
      · rw [heq₂, hself] at h₂
        exact absurd (hkeys.apart t₁ label oid pc₂ pc₁ heq₁ h₂ h₁ hclaimed₂) hclaimed₁
      · rw [hother t₂ heq₂] at h₂
        exact h.apart t₁ t₂ label oid pc₁ pc₂ h₁ h₂ hclaimed₁ hclaimed₂

/-- A step that leaves the vertex tables alone and begins at most a new record. -/
theorem quiet (hthreads : s'.threads = update s.threads t l)
    (hvertices : s'.graph.vertices = s.graph.vertices)
    (hat : ∀ label pc, l.At label pc → pc = .checkCapacity) :
    PreservesKeys policy s s' t l where
  threads := hthreads
  consistent := by rw [hvertices]; exact h.consistent
  foreign := by
    rw [hvertices]
    exact fun t' label oid pc _ => h.key t' label oid pc
  own := by
    intro label oid pc hadding
    rw [hat label pc hadding.at]
    trivial
  apart := by
    intro t' label oid pc pc' _ hadding _ hclaimed
    rw [hat label pc hadding.at] at hclaimed
    exact absurd rfl hclaimed

theorem ingestVertex (huncontended : s.Uncontended t) {label : Nat}
    {oid : Value} {props : List Value} {pc : IngestPc} {rest : List Redo} {vt : VertexTable}
    {progress : IngestProgress}
    (hpc : (s.threads t).pc = .ingesting (.insertVertex label oid props) pc rest)
    (hmove : VertexMove policy (s.graph.vertices label) oid props (s.threads t).txn.timestamp pc
      vt progress) (hvertices : s'.graph = s.graph.setVertices label vt)
    (hthreads : s'.threads = update s.threads t
      ⟨(s.threads t).txn, .ofProgress (.insertVertex label oid props) rest progress⟩) :
    PreservesKeys policy s s' t
      ⟨(s.threads t).txn, .ofProgress (.insertVertex label oid props) rest progress⟩ := by
  have hAdding : (s.threads t).Adding label oid pc := ⟨props, rest, hpc⟩
  have hstamp := h.inv.stamp t (by rw [hpc]; nofun)
  have hpcOk := h.inv.pc t label pc hAdding.at
  have hkeyOk := h.key t label oid pc hAdding
  have hgrows := hmove.grows (h.inv.table label) hpcOk (Nat.ne_of_lt hstamp.2.2)
  have hupdate : s'.graph.vertices = update s.graph.vertices label vt := by rw [hvertices]; rfl
  refine ⟨hthreads, ?_, ?_, ?_, ?_⟩
  · rw [hupdate]
    exact (forall_update_iff _ fun _ (vt : VertexTable) => vt.indexer.Consistent policy).mpr
      ⟨hmove.consistent hgrows hkeyOk (h.consistent label), fun l _ => h.consistent l⟩
  · rw [hupdate]
    intro t' label' oid' pc' hne
    revert label'
    refine (forall_update_iff _ fun label' vt =>
      (s.threads t').Adding label' oid' pc' → KeyOk policy vt oid' pc').mpr
      ⟨fun hadding => ?_, fun l _ => h.key t' l oid' pc'⟩
    have hkey' := h.key t' label oid' pc' hadding
    refine hkey'.grows hgrows ?_ ?_
    · intro hclaimed'
      apply hmove.absent hgrows hkeyOk (hkey'.absent hclaimed')
      rintro hclaimed rfl
      exact hne (h.apart t' t label oid pc' pc hadding hAdding hclaimed' hclaimed)
    · intro ind hclaimed'
      apply hmove.getKey_eq
      intro hclaimed
      exact hne (h.inv.sole t' t label pc' pc ind hadding.at hAdding.at hclaimed' hclaimed)
  · rintro label' oid' pc' ⟨_, _, hadding⟩
    rcases TxnPc.ofProgress_cases hadding with ⟨hr, hrunning⟩ | rfl
    · cases hr
      rw [hrunning] at hmove
      rw [hupdate, update_self]
      refine hmove.keyOk (h.consistent label).slots_pos hpcOk hkeyOk ?_
      rintro rfl
      obtain ⟨habsent, hkept, -⟩ := huncontended label oid hAdding
      exact ⟨habsent, hkept⟩
    · trivial
  · rintro t' label' oid' pc' pc'' hne ⟨_, _, hadding⟩ hadding' hclaimed
    rcases TxnPc.ofProgress_cases hadding with ⟨hr, hrunning⟩ | rfl
    · cases hr
      rw [hrunning] at hmove
      by_contra hclaimed'
      -- an id held now was held before, or is being claimed in this very step
      by_cases hheld : pc.claimed = none
      · obtain rfl := hmove.eq_claim hheld hclaimed
        exact hclaimed' ((huncontended label oid hAdding).2.2 t' pc'' hne hadding')
      · exact hne (h.apart t' t label oid pc'' pc hadding' hAdding hclaimed' hheld)
    · exact absurd rfl hclaimed

theorem step (hstep : s.UncontendedStep policy s') : s'.Unique policy := by
  obtain ⟨t, action, ⟨huncontended, -⟩, hnext⟩ := hstep
  have hinv' := h.inv.step ⟨t, action, hnext⟩
  cases next_move hnext with
  | rejected => exact h
  | begin | buffer | finish =>
    refine h.preserve hinv' (h.quiet rfl rfl ?_)
    rintro _ _ ⟨_, _, _, hat⟩
    cases hat
  | append =>
    refine h.preserve hinv' (h.quiet rfl rfl ?_)
    rintro _ _ ⟨_, _, _, hat⟩
    exact TxnPc.ofRecords_start hat
  | @ingest r pc rest spurious _ hpc =>
    cases r with
    | insertVertex label oid props =>
      exact h.preserve hinv' (h.ingestVertex huncontended hpc (vertexStep_move policy _ oid props
        (h.inv.stamp_ne (by rw [hpc]; nofun)).1 pc spurious) rfl rfl)
    | insertEdge label src dst props =>
      refine h.preserve hinv' (h.quiet rfl (ingestStep_insertEdge _ _ _ _ _ _ _ _ _) ?_)
      rintro _ _ ⟨_, _, _, hat⟩
      rcases TxnPc.ofProgress_cases hat with ⟨hr, -⟩ | hstart
      · cases hr
      · exact hstart

end

end InsertState.Unique

/-- Well-formed tables with consistent indexes, and no transaction open. -/
structure InsertState.Loaded (policy : HashPolicy) (s : InsertState Tid) : Prop where
  initial : s.Initial
  consistent : ∀ label, (s.graph.vertices label).indexer.Consistent policy

theorem InsertState.unique_of_reachable {s : InsertState Tid}
    (hreach : Reachable (Loaded policy) (UncontendedStep policy) s) : s.Unique policy := by
  refine Reachable.invariant (Unique policy) ?_ (fun _ _ _ h => h.step) hreach
  intro s₀ hs₀
  have hnot : ∀ t label oid pc, ¬(s₀.threads t).Adding label oid pc := by
    rintro t label oid pc ⟨props, rest, hpc⟩
    rw [hs₀.initial.closed t] at hpc
    cases hpc
  exact ⟨.of_initial hs₀.initial, hs₀.consistent,
    fun t label oid pc hadding => absurd hadding (hnot t label oid pc),
    fun t _ label oid pc _ hadding => absurd hadding (hnot t label oid pc)⟩

end System

end Neug.Transaction
