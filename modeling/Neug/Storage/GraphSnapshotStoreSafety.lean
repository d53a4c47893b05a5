import Neug.Library.Threads
import Neug.Storage.GraphSnapshotStore

/-! # Slots have one role at a time

The count of a slot is explained by who holds it: the store while the slot is
current, the guards and prepared tokens of callers, and threads between two steps
of an operation.  A slot that nobody holds is either in the free list or belongs to
a single thread that fills it, cleans it or gives it back.  This is what every step
keeps, also when a reader pins a slot by an index it read before the slot was
cleaned and filled again.
-/

namespace Neug.Storage

open Library Function

variable {Tid : Type*} {n : Nat} {G : Type*}

namespace StorePc

def pinned : StorePc n G → Option (Fin n)
  | pinVerify i | pinReturned i | unpin i _ | prepareReturned i | publish i | publishSwap i _ =>
    some i
  | _ => none

def owned : StorePc n G → Option (Fin n)
  | unpinLast i _ | unpinSwap i _ | cleanupReset i _ | cleanupRelease i _ | cleanupReturn i _
  | prepareReserve i _ _ | prepareGuard i _ | prepareFill i _ | prepareRelease i
  | rollbackReset i _ | rollbackCount i _ | rollbackReturn i _ => some i
  | _ => none

/-- The slot whose prepared token the thread is handing out or consuming. -/
def token : StorePc n G → Option (Fin n)
  | prepareReturned i | publish i | publishSwap i _ => some i
  | _ => none

def Expects : StorePc n G → SnapshotSlot G → Prop
  | unpinLast _ _, slot | unpinSwap _ _, slot => slot.readerCount = 0 ∧ slot.data.isSome
  | cleanupReset _ _, slot => slot.readerCount = kCleanupSentinel
  | cleanupRelease _ _, slot | prepareFill _ _, slot => slot = ⟨none, kCleanupSentinel⟩
  | cleanupReturn _ _, slot | prepareReserve _ _ _, slot | prepareGuard _ _, slot
  | rollbackReturn _ _, slot => slot = ⟨none, 0⟩
  | prepareRelease _, slot => slot.readerCount = kCleanupSentinel ∧ slot.data.isSome
  | rollbackReset _ _, slot => slot.readerCount ≤ 0
  | rollbackCount _ _, slot => slot.readerCount ≤ 0 ∧ slot.data = none
  | _, _ => True

variable {pc : StorePc n G} {i : Fin n}

/-- The owner of a slot finds no count that could be raised. -/
theorem Expects.count_nonpos {slot : SnapshotSlot G} (howned : pc.owned = some i)
    (hslot : pc.Expects slot) : slot.readerCount ≤ 0 := by
  cases pc <;> simp only [owned, reduceCtorEq] at howned <;> simp only [Expects] at hslot
  case unpinLast | unpinSwap => exact Int.le_of_eq hslot.1
  case prepareRelease => exact hslot.1 ▸ (by decide : kCleanupSentinel ≤ 0)
  case rollbackReset => exact hslot
  case rollbackCount => exact hslot.1
  case cleanupReset | cleanupRelease | prepareFill =>
    exact hslot ▸ (by decide : kCleanupSentinel ≤ 0)
  all_goals exact hslot ▸ Int.le_refl 0

theorem pinned_of_owned (howned : pc.owned = some i) : pc.pinned = none ∧ pc.token = none := by
  cases pc <;> simp only [owned, reduceCtorEq] at howned <;> exact ⟨rfl, rfl⟩

/-- The units by which the thread accounts for the count of a slot. -/
def pins (i : Fin n) (pc : StorePc n G) : Nat :=
  match pc.pinned with
  | some j => if j = i then 1 else 0
  | none => 0

def tokens (i : Fin n) (pc : StorePc n G) : Nat :=
  match pc.token with
  | some j => if j = i then 1 else 0
  | none => 0

theorem tokens_le_pins (i : Fin n) (pc : StorePc n G) : pc.tokens i ≤ pc.pins i := by
  cases pc <;> simp [tokens, pins, token, pinned]

structure About (pc : StorePc n G) (i : Fin n) : Prop where
  pinned : ∀ {j}, pc.pinned = some j → j = i
  owned : ∀ {j}, pc.owned = some j → j = i

theorem About.of_none (hpinned : pc.pinned = none) (howned : pc.owned = none) : pc.About i :=
  ⟨by simp [hpinned], by simp [howned]⟩

theorem About.of_pinned (hpinned : pc.pinned = some i) (howned : pc.owned = none) : pc.About i :=
  ⟨by simp [hpinned, eq_comm], by simp [howned]⟩

theorem About.of_owned (howned : pc.owned = some i) : pc.About i :=
  ⟨by simp [(pinned_of_owned howned).1], by simp [howned, eq_comm]⟩

theorem About.pins_eq_zero {j : Fin n} (h : pc.About i) (hj : j ≠ i) : pc.pins j = 0 := by
  unfold pins
  split
  · next k hk =>
      have hki := h.pinned hk
      subst hki
      exact if_neg (Ne.symm hj)
  · rfl

end StorePc

open StorePc (pins pinned)

variable (goal : UnpinFor)

@[simp] theorem UnpinFor.pinned_next : (goal.next : StorePc n G).pinned = none := by
  cases goal <;> rfl

@[simp] theorem UnpinFor.owned_next : (goal.next : StorePc n G).owned = none := by
  cases goal <;> rfl

@[simp] theorem UnpinFor.token_next : (goal.next : StorePc n G).token = none := by
  cases goal <;> rfl

@[simp] theorem UnpinFor.pins_next (i : Fin n) : (goal.next : StorePc n G).pins i = 0 := by
  unfold pins
  rw [goal.pinned_next]

/-- Holders of a slot that are not threads inside an operation. -/
def GraphSnapshotStore.holders (s : GraphSnapshotStore n G) (i : Fin n) : Nat :=
  (if s.curSlotIndex = i then 1 else 0) + s.guards i + s.tokens i

/-- The current snapshot and the prepared ones that live in a slot. -/
def GraphSnapshotStore.snapshots (s : GraphSnapshotStore n G) (i : Fin n) : Nat :=
  (if s.curSlotIndex = i then 1 else 0) + s.tokens i

namespace StoreState

variable [Fintype Tid]

def holders (st : StoreState Tid n G) (i : Fin n) : Nat :=
  st.store.holders i + tally (pins i) st.threads

/-- The snapshots of a slot that are current or prepared. -/
def snapshots (st : StoreState Tid n G) (i : Fin n) : Nat :=
  st.store.snapshots i + tally (StorePc.tokens i) st.threads

theorem snapshots_le_holders (st : StoreState Tid n G) (i : Fin n) :
    st.snapshots i ≤ st.holders i := by
  have hthreads : tally (StorePc.tokens i) st.threads ≤ tally (pins i) st.threads :=
    Finset.sum_le_sum fun t _ => (st.threads t).tokens_le_pins i
  unfold snapshots holders GraphSnapshotStore.snapshots GraphSnapshotStore.holders
  omega

inductive SlotInv (st : StoreState Tid n G) (i : Fin n) : Prop where
  | live (hheld : 0 < st.holders i) (howned : ∀ t, (st.threads t).owned ≠ some i)
      (hfree : st.store.freeList.count i = 0)
      (hcount : (st.store.slots i).readerCount = st.holders i)
      (hdata : (st.store.slots i).data.isSome)
  | owned (t : Tid) (hheld : st.holders i = 0) (howned : (st.threads t).owned = some i)
      (honly : ∀ u, (st.threads u).owned = some i → u = t)
      (hfree : st.store.freeList.count i = 0)
      (hslot : (st.threads t).Expects (st.store.slots i))
  | free (hheld : st.holders i = 0) (howned : ∀ t, (st.threads t).owned ≠ some i)
      (hfree : st.store.freeList.count i = 1) (hslot : st.store.slots i = ⟨none, 0⟩)

/-- Every slot is in one of the situations, and holds at most one snapshot that is
current or prepared. -/
structure Inv (st : StoreState Tid n G) : Prop where
  slot : ∀ i, st.SlotInv i
  single : ∀ i, st.snapshots i ≤ 1

section Situations

variable {st : StoreState Tid n G} {t : Tid} {i : Fin n}

/-- A slot that somebody holds. -/
theorem SlotInv.of_held (h : st.SlotInv i) (hheld : 0 < st.holders i) :
    (∀ u, (st.threads u).owned ≠ some i) ∧ st.store.freeList.count i = 0 ∧
      (st.store.slots i).readerCount = st.holders i ∧ (st.store.slots i).data.isSome := by
  cases h with
  | live _ howned hfree hcount hdata => exact ⟨howned, hfree, hcount, hdata⟩
  | owned _ hnone => omega
  | free hnone => omega

theorem SlotInv.of_owned (h : st.SlotInv i) (howned : (st.threads t).owned = some i) :
    st.holders i = 0 ∧ (∀ u, (st.threads u).owned = some i → u = t) ∧
      st.store.freeList.count i = 0 ∧ (st.threads t).Expects (st.store.slots i) := by
  cases h with
  | live _ hno | free _ hno => exact absurd howned (hno t)
  | owned u hnone _ honly hfree hslot =>
    have hut := honly t howned
    subst hut
    exact ⟨hnone, honly, hfree, hslot⟩

theorem SlotInv.of_free (h : st.SlotInv i) (hfree : 0 < st.store.freeList.count i) :
    st.holders i = 0 ∧ (∀ u, (st.threads u).owned ≠ some i) ∧
      st.store.freeList.count i = 1 ∧ st.store.slots i = ⟨none, 0⟩ := by
  cases h with
  | live _ _ hnot => omega
  | owned _ _ _ _ hnot => omega
  | free hnone howned hone hslot => exact ⟨hnone, howned, hone, hslot⟩

theorem pins_le_holders (st : StoreState Tid n G) (t : Tid) (i : Fin n) :
    (st.threads t).pins i ≤ st.holders i :=
  Nat.le_trans (units_le_tally (pins i) st.threads t) (Nat.le_add_left _ _)

/-- Only a slot that somebody holds has a positive count. -/
theorem SlotInv.held_of_count (h : st.SlotInv i) (hcount : 0 < (st.store.slots i).readerCount) :
    0 < st.holders i := by
  cases h with
  | live hheld => exact hheld
  | owned u _ howned _ _ hslot =>
    have hnot := StorePc.Expects.count_nonpos howned hslot
    omega
  | free _ _ _ hslot =>
    rw [hslot] at hcount
    exact absurd hcount (Int.lt_irrefl 0)

end Situations

/-! ### How one slot changes -/

def moved [DecidableEq Tid] (st : StoreState Tid n G) (t : Tid) (store' : GraphSnapshotStore n G)
    (pc' : StorePc n G) : StoreState Tid n G :=
  ⟨store', update st.threads t pc'⟩

section Moves

variable [DecidableEq Tid] {st : StoreState Tid n G} {t : Tid} {i : Fin n}
  {store' : GraphSnapshotStore n G} {pc' : StorePc n G}

section

variable (st : StoreState Tid n G) (t : Tid) (i : Fin n) (store' : GraphSnapshotStore n G)
  (pc' : StorePc n G)

theorem holders_moved :
    (st.moved t store' pc').holders i + (st.store.holders i + (st.threads t).pins i) =
      st.holders i + (store'.holders i + pc'.pins i) := by
  have htally := tally_update (pins i) st.threads t pc'
  unfold holders moved
  dsimp only
  omega

theorem snapshots_moved :
    (st.moved t store' pc').snapshots i + (st.store.snapshots i + (st.threads t).tokens i) =
      st.snapshots i + (store'.snapshots i + pc'.tokens i) := by
  have htally := tally_update (StorePc.tokens i) st.threads t pc'
  unfold snapshots moved
  dsimp only
  omega

end

omit [Fintype Tid] in
theorem moved_of_ne {u : Tid} (hu : u ≠ t) : (st.moved t store' pc').threads u = st.threads u :=
  update_of_ne hu _ _

omit [Fintype Tid] in
@[simp] theorem moved_self : (st.moved t store' pc').threads t = pc' := update_self _ _ _

omit [Fintype Tid] in
@[simp] theorem moved_store : (st.moved t store' pc').store = store' := rfl

omit [Fintype Tid] in
theorem not_owned_moved (hothers : ∀ u, u ≠ t → (st.threads u).owned ≠ some i)
    (hpc : pc'.owned ≠ some i) : ∀ u, ((st.moved t store' pc').threads u).owned ≠ some i :=
  (forall_update_iff st.threads fun _ pc => pc.owned ≠ some i).mpr ⟨hpc, hothers⟩

omit [Fintype Tid] in
theorem only_owned_moved (hothers : ∀ u, u ≠ t → (st.threads u).owned ≠ some i) (u : Tid)
    (hu : ((st.moved t store' pc').threads u).owned = some i) : u = t := by
  by_contra hne
  rw [moved_of_ne hne] at hu
  exact hothers u hne hu

/-- A move that leaves the slot, the free list and the number of holders alone. -/
theorem SlotInv.frame (h : st.SlotInv i) (hslot : store'.slots i = st.store.slots i)
    (hfree : store'.freeList.count i = st.store.freeList.count i)
    (hunits : store'.holders i + pc'.pins i = st.store.holders i + (st.threads t).pins i)
    (howned : pc'.owned = some i ↔ (st.threads t).owned = some i)
    (hexp : (st.threads t).owned = some i → (st.threads t).Expects (st.store.slots i) →
      pc'.Expects (st.store.slots i)) : (st.moved t store' pc').SlotInv i := by
  have hholders := holders_moved st t i store' pc'
  have hsame : (st.moved t store' pc').holders i = st.holders i := by omega
  have hothers : ∀ u, ((st.moved t store' pc').threads u).owned = some i ↔
      (st.threads u).owned = some i :=
    (forall_update_iff st.threads fun u pc => pc.owned = some i ↔ (st.threads u).owned = some i).mpr
      ⟨howned, fun _ _ => Iff.rfl⟩
  cases h with
  | live hheld hno hfree' hcount hdata =>
    refine .live (hsame ▸ hheld) (fun u => (hothers u).not.mpr (hno u)) (hfree.trans hfree') ?_ ?_
    · rw [hsame, moved_store, hslot, hcount]
    · rwa [moved_store, hslot]
  | owned u hheld hu honly hfree' hexp' =>
    refine .owned u (hsame.trans hheld) ((hothers u).mpr hu)
      (fun v hv => honly v ((hothers v).mp hv)) (hfree.trans hfree') ?_
    rw [moved_store, hslot]
    by_cases hut : u = t
    · subst hut
      rw [moved_self]
      exact hexp hu hexp'
    · rwa [moved_of_ne hut]
  | free hheld hno hfree' hempty =>
    exact .free (hsame.trans hheld) (fun u => (hothers u).not.mpr (hno u)) (hfree.trans hfree')
      (hslot.trans hempty)

end Moves

end StoreState

/-! ### What a step leaves alone -/

namespace GraphSnapshotStore

structure SameElse (s s' : GraphSnapshotStore n G) (i : Fin n) : Prop where
  slots : ∀ j, j ≠ i → s'.slots j = s.slots j
  freeList : ∀ j, j ≠ i → s'.freeList.count j = s.freeList.count j
  holders : ∀ j, j ≠ i → s'.holders j = s.holders j
  snapshots : ∀ j, j ≠ i → s'.snapshots j = s.snapshots j

section

variable (s : GraphSnapshotStore n G)

section

variable (i : Fin n)

@[simp] theorem setCount_slots_self (count : Int) :
    (s.setCount i count).slots i = ⟨(s.slots i).data, count⟩ := by
  simp [setCount, setSlot]

@[simp] theorem setData_slots_self (data : Option (SnapshotData G)) :
    (s.setData i data).slots i = ⟨data, (s.slots i).readerCount⟩ := by
  simp [setData, setSlot]

@[simp] theorem setSlot_slots_self (slot : SnapshotSlot G) : (s.setSlot i slot).slots i = slot := by
  simp [setSlot]

theorem setSlot_sameElse (slot : SnapshotSlot G) :
    SameElse s (s.setSlot i slot) i where
  slots j hj := by simp [setSlot, update_of_ne hj]
  freeList _ _ := rfl
  holders _ _ := rfl
  snapshots _ _ := rfl

theorem setGuards_sameElse (count : Nat) :
    SameElse s (s.setGuards i count) i where
  slots _ _ := rfl
  freeList _ _ := rfl
  holders j hj := by
    change _ + update s.guards i count j + _ = _
    rw [update_of_ne hj]
    rfl
  snapshots _ _ := rfl

theorem setTokens_sameElse (count : Nat) :
    SameElse s (s.setTokens i count) i where
  slots _ _ := rfl
  freeList _ _ := rfl
  holders j hj := by
    change _ + update s.tokens i count j = _
    rw [update_of_ne hj]
    rfl
  snapshots j hj := by
    change _ + update s.tokens i count j = _
    rw [update_of_ne hj]
    rfl

end

theorem setGuards_holders (i : Fin n) (count : Nat) :
    (s.setGuards i count).holders i + s.guards i = s.holders i + count := by
  unfold holders setGuards
  dsimp only
  rw [update_self]
  omega

theorem setTokens_holders (i : Fin n) (count : Nat) :
    (s.setTokens i count).holders i + s.tokens i = s.holders i + count := by
  unfold holders setTokens
  dsimp only
  rw [update_self]
  omega

theorem setTokens_snapshots (i : Fin n) (count : Nat) :
    (s.setTokens i count).snapshots i + s.tokens i = s.snapshots i + count := by
  unfold snapshots setTokens
  dsimp only
  rw [update_self]
  omega

theorem returnFreeSlot_sameElse (i : Fin n) :
    SameElse s (s.returnFreeSlot i) i where
  slots _ _ := rfl
  freeList j hj := by simp [returnFreeSlot, List.count_append, Ne.symm hj]
  holders _ _ := rfl
  snapshots _ _ := rfl

end

theorem getFreeSlot_eq_some {s s' : GraphSnapshotStore n G} {i : Fin n}
    (h : s.getFreeSlot = some (i, s')) :
    s.freeList = s'.freeList ++ [i] ∧ s' = { s with freeList := s'.freeList } := by
  obtain ⟨j, hj, heq⟩ := Option.map_eq_some_iff.mp h
  cases heq
  exact ⟨(List.dropLast_append_getLast? _ hj).symm, rfl⟩

end GraphSnapshotStore

namespace StoreState

open GraphSnapshotStore

variable [Fintype Tid] [DecidableEq Tid] {st : StoreState Tid n G} {t : Tid}
  {store' : GraphSnapshotStore n G} {pc pc' : StorePc n G}

/-- A step that concerns one slot keeps the invariant if it does so for this slot. -/
theorem Inv.focus (hinv : st.Inv) (i : Fin n) (habout : (st.threads t).About i)
    (habout' : pc'.About i) (hsame : SameElse st.store store' i)
    (hslot : (st.moved t store' pc').SlotInv i)
    (hsingle : (st.moved t store' pc').snapshots i ≤ 1) : (st.moved t store' pc').Inv where
  slot j := by
    by_cases hj : j = i
    · rwa [hj]
    · apply (hinv.slot j).frame (hsame.slots j hj) (hsame.freeList j hj)
      · rw [hsame.holders j hj, habout.pins_eq_zero hj, habout'.pins_eq_zero hj]
      · exact iff_of_false (fun ho => hj (habout'.owned ho)) (fun ho => hj (habout.owned ho))
      · exact fun ho => absurd (habout.owned ho) hj
  single j := by
    by_cases hj : j = i
    · rwa [hj]
    · have htokens : ∀ {pc : StorePc n G}, pc.About i → pc.tokens j = 0 := fun {pc} h =>
        Nat.le_zero.mp (h.pins_eq_zero hj ▸ pc.tokens_le_pins j)
      have hmoved := snapshots_moved st t j store' pc'
      rw [hsame.snapshots j hj, htokens habout, htokens habout'] at hmoved
      have hle := hinv.single j
      omega

/-- The change of the holders of a slot by a move of thread `t`. -/
theorem holders_moved_eq {i : Fin n} (hpc : st.threads t = pc)
    (hstore : store'.holders i = st.store.holders i) :
    (st.moved t store' pc').holders i + pc.pins i = st.holders i + pc'.pins i := by
  have hmoved := holders_moved st t i store' pc'
  rw [hpc, hstore] at hmoved
  omega

namespace Inv

/-- A move that passes no token on adds no snapshot. -/
theorem single_moved (hinv : st.Inv) (hpc : st.threads t = pc) {i : Fin n}
    (hstore : store'.snapshots i = st.store.snapshots i) (htoken : pc'.token = pc.token) :
    (st.moved t store' pc').snapshots i ≤ 1 := by
  have hmoved := snapshots_moved st t i store' pc'
  unfold StorePc.tokens at hmoved
  rw [hpc, htoken, hstore] at hmoved
  exact Nat.le_trans (Nat.le_of_eq (Nat.add_right_cancel hmoved)) (hinv.single i)

theorem stay (hinv : st.Inv) (hpc : st.threads t = pc)
    (hexp : ∀ slot, pc.Expects slot → pc'.Expects slot := by exact fun _ _ => trivial)
    (hpinned : pc'.pinned = pc.pinned := by rfl)
    (howned : pc'.owned = pc.owned := by rfl) (htoken : pc'.token = pc.token := by rfl)
    (hslots : store'.slots = st.store.slots := by rfl)
    (hcur : store'.curSlotIndex = st.store.curSlotIndex := by rfl)
    (hfree : store'.freeList = st.store.freeList := by rfl)
    (hguards : store'.guards = st.store.guards := by rfl)
    (htokens : store'.tokens = st.store.tokens := by rfl) : (st.moved t store' pc').Inv where
  slot j := by
    apply (hinv.slot j).frame (congrFun hslots j) (by rw [hfree])
    · unfold pins GraphSnapshotStore.holders
      rw [hpc, hpinned, hcur, hguards, htokens]
    · rw [hpc, howned]
    · rw [hpc]
      exact fun _ => hexp _
  single j := by
    refine hinv.single_moved hpc ?_ htoken
    rw [GraphSnapshotStore.snapshots, hcur, htokens]
    rfl

variable {i : Fin n} {goal : UnpinFor}

theorem setSlot (hinv : st.Inv) (hpc : st.threads t = pc) {slot : SnapshotSlot G}
    (hstore : store' = st.store.setSlot i slot) (habout : pc.About i) (habout' : pc'.About i)
    (htoken : pc'.token = pc.token)
    (hslot : (st.moved t store' pc').holders i + pc.pins i = st.holders i + pc'.pins i →
      (st.moved t store' pc').SlotInv i) : (st.moved t store' pc').Inv := by
  subst hstore
  exact hinv.focus i (hpc ▸ habout) habout' (setSlot_sameElse _ _ _)
    (hslot (holders_moved_eq hpc rfl)) (hinv.single_moved hpc rfl htoken)

/-! ### The accesses of a thread -/

section

variable (hinv : st.Inv)
include hinv

/-- A slot gets one holder more or less, but keeps one, and its count follows. -/
theorem recount {count : Int} (hpc : st.threads t = pc) (hheld : 0 < st.holders i)
    (habout : pc.About i) (habout' : pc'.About i) (howned : pc'.owned = none)
    (htoken : pc'.token = pc.token) (hpos : 0 < count)
    (hcount : count + pc.pins i = (st.store.slots i).readerCount + pc'.pins i) :
    (st.moved t (st.store.setCount i count) pc').Inv := by
  obtain ⟨hno, hfree, hcount', hdata⟩ := (hinv.slot i).of_held hheld
  refine hinv.setSlot hpc rfl habout habout' htoken fun hholders => ?_
  refine .live ?_ (not_owned_moved (fun u _ => hno u) (by simp [howned])) hfree ?_ ?_
  · omega
  · rw [moved_store, setCount_slots_self]
    dsimp only
    omega
  · rwa [moved_store, setCount_slots_self]

theorem pinSwap {observed : Int} (hpc : st.threads t = .pinSwap i observed)
    (hcount : (st.store.slots i).readerCount = observed) (hpos : 0 < observed) :
    (st.moved t (st.store.setCount i (observed + 1)) (.pinVerify i)).Inv := by
  have hheld := (hinv.slot i).held_of_count (hcount ▸ hpos)
  refine hinv.recount hpc hheld (.of_none rfl rfl) (.of_pinned rfl rfl) rfl rfl (by omega) ?_
  simp [pins, pinned, hcount]

theorem unpin (hpc : st.threads t = .unpin i goal) (hmore : (st.store.slots i).readerCount ≠ 1) :
    (st.moved t (st.store.setCount i ((st.store.slots i).readerCount - 1)) goal.next).Inv := by
  have hpins := st.pins_le_holders t i
  simp only [hpc, pins, pinned, if_true] at hpins
  obtain ⟨-, -, hcount, -⟩ := (hinv.slot i).of_held hpins
  refine hinv.recount hpc hpins (.of_pinned rfl rfl) (.of_none goal.pinned_next goal.owned_next)
    goal.owned_next goal.token_next (by omega) ?_
  rw [goal.pins_next]
  simp [pins, pinned]

/-- The thread that lowers a count to zero owns the slot. -/
theorem unpinLast (hpc : st.threads t = .unpin i goal) (hone : (st.store.slots i).readerCount = 1) :
    (st.moved t (st.store.setCount i ((st.store.slots i).readerCount - 1))
      (.unpinLast i goal)).Inv := by
  have hheld := (hinv.slot i).held_of_count (by omega)
  obtain ⟨hno, hfree, hcount, hdata⟩ := (hinv.slot i).of_held hheld
  refine hinv.setSlot hpc rfl (.of_pinned rfl rfl) (.of_owned rfl) rfl fun hholders => ?_
  simp only [pins, pinned, if_true] at hholders
  refine .owned t ?_ (by rw [moved_self]; rfl) (only_owned_moved fun u _ => hno u) hfree ?_
  · omega
  · rw [moved_self, moved_store, setCount_slots_self]
    exact ⟨by dsimp only; omega, hdata⟩

theorem change {slot : SnapshotSlot G} (hpc : st.threads t = pc)
    (hstore : store' = st.store.setSlot i slot) (howned : pc.owned = some i)
    (howned' : pc'.owned = some i) (hslot : pc.Expects (st.store.slots i) → pc'.Expects slot) :
    (st.moved t store' pc').Inv := by
  obtain ⟨hnone, honly, hfree, hexp⟩ := (hinv.slot i).of_owned (hpc ▸ howned)
  obtain ⟨hpinned, htoken⟩ := StorePc.pinned_of_owned howned
  obtain ⟨hpinned', htoken'⟩ := StorePc.pinned_of_owned howned'
  refine hinv.setSlot hpc hstore (.of_owned howned) (.of_owned howned')
    (htoken'.trans htoken.symm) fun hholders => ?_
  simp only [pins, hpinned, hpinned'] at hholders
  subst hstore
  refine .owned t ?_ (by rwa [moved_self])
    (only_owned_moved fun u hne hu => hne (honly u hu)) hfree ?_
  · omega
  · rw [moved_self, moved_store, setSlot_slots_self]
    exact hslot (hpc ▸ hexp)

theorem giveBack (hpc : st.threads t = pc) (howned : pc.owned = some i)
    (hempty : pc.Expects (st.store.slots i) → st.store.slots i = ⟨none, 0⟩)
    (hpinned' : pc'.pinned = none) (howned' : pc'.owned = none) (htoken' : pc'.token = none) :
    (st.moved t (st.store.returnFreeSlot i) pc').Inv := by
  obtain ⟨hnone, honly, hfree, hexp⟩ := (hinv.slot i).of_owned (hpc ▸ howned)
  obtain ⟨hpinned, htoken⟩ := StorePc.pinned_of_owned howned
  have hholders := @holders_moved_eq _ _ _ _ _ st t (st.store.returnFreeSlot i) _ pc' i hpc rfl
  simp only [pins, hpinned, hpinned'] at hholders
  apply hinv.focus i (hpc ▸ .of_owned howned) (.of_none hpinned' howned')
    (returnFreeSlot_sameElse _ _)
  · refine .free ?_ (not_owned_moved (fun u hne hu => hne (honly u hu)) (by simp [howned'])) ?_
      (hempty (hpc ▸ hexp))
    · omega
    · simp [returnFreeSlot, List.count_append, hfree]
  · exact hinv.single_moved hpc rfl (htoken'.trans htoken.symm)

theorem getFreeSlot {graph : Option G} {g : G} {planning : Nat}
    (hpc : st.threads t = .prepare graph planning)
    (htake : st.store.getFreeSlot = some (i, store')) :
    (st.moved t store' (.prepareReserve i g planning)).Inv := by
  obtain ⟨hfree, hstore⟩ := getFreeSlot_eq_some htake
  have hholders : store'.holders = st.store.holders := by rw [hstore]; rfl
  have hsnapshots : store'.snapshots = st.store.snapshots := by rw [hstore]; rfl
  have hslots : store'.slots = st.store.slots := by rw [hstore]
  have hmoved := @holders_moved_eq _ _ _ _ _ st t store' _ (.prepareReserve i g planning) i hpc
    (congrFun hholders i)
  apply hinv.focus i (hpc ▸ .of_none rfl rfl) (.of_owned rfl)
  · refine ⟨fun j _ => congrFun hslots j, fun j hj => ?_, fun j _ => congrFun hholders j,
      fun j _ => congrFun hsnapshots j⟩
    rw [hfree]
    simp [List.count_append, Ne.symm hj]
  · have hcount : st.store.freeList.count i = store'.freeList.count i + 1 := by
      rw [hfree]
      simp [List.count_append]
    obtain ⟨hnone, hno, hone, hempty⟩ := (hinv.slot i).of_free (by omega)
    refine .owned t ((Nat.add_right_cancel hmoved).trans hnone) (by rw [moved_self]; rfl)
      (only_owned_moved fun u _ => hno u) ?_ ?_
    · rw [moved_store]
      omega
    · rw [moved_self, moved_store, hslots, hempty]
      rfl
  · exact hinv.single_moved hpc (congrFun hsnapshots i) rfl

theorem prepareRelease (hpc : st.threads t = .prepareRelease i) :
    (st.moved t (st.store.setCount i ((st.store.slots i).readerCount + (-kCleanupSentinel + 1)))
      (.prepareReturned i)).Inv := by
  have howned : (st.threads t).owned = some i := by rw [hpc]; rfl
  obtain ⟨hnone, honly, hfree, hexp⟩ := (hinv.slot i).of_owned howned
  rw [hpc] at hexp
  have hholders := @holders_moved_eq _ _ _ _ _ st t
    (st.store.setCount i ((st.store.slots i).readerCount + (-kCleanupSentinel + 1))) _
    (.prepareReturned i) i hpc rfl
  have hsnapshots := (st.moved t
    (st.store.setCount i ((st.store.slots i).readerCount + (-kCleanupSentinel + 1)))
    (.prepareReturned i)).snapshots_le_holders i
  simp only [pins, pinned, if_true] at hholders
  apply hinv.focus i (.of_owned howned) (.of_pinned rfl rfl)
  · exact setSlot_sameElse _ _ _
  · refine .live ?_ (not_owned_moved (fun u hne hu => hne (honly u hu)) nofun) hfree ?_ ?_
    · omega
    · rw [moved_store, setCount_slots_self]
      dsimp only
      have hcount := hexp.1
      omega
    · rw [moved_store, setCount_slots_self]
      exact hexp.2
  · omega

/-- A holder of a slot passes its unit between a caller and a thread. -/
theorem handOver (hpc : st.threads t = pc) (habout : pc.About i)
    (habout' : pc'.About i) (howned : pc.owned = none) (howned' : pc'.owned = none)
    (hsame : SameElse st.store store' i) (hslots : store'.slots = st.store.slots)
    (hfree : store'.freeList = st.store.freeList)
    (hholders : store'.holders i + pc'.pins i = st.store.holders i + pc.pins i)
    (hsnapshots : store'.snapshots i + pc'.tokens i ≤ st.store.snapshots i + pc.tokens i) :
    (st.moved t store' pc').Inv := by
  apply hinv.focus i (hpc ▸ habout) habout' hsame
  · refine (hinv.slot i).frame (congrFun hslots i) (by rw [hfree]) (hpc ▸ hholders) ?_ ?_
    · rw [hpc, howned, howned']
    · rw [hpc, howned]
      simp
  · have hmoved := snapshots_moved st t i store' pc'
    rw [hpc] at hmoved
    have hle := hinv.single i
    omega

/-- A prepared slot becomes the current one, and the thread holds the old one. -/
theorem publishSwap {generation : Nat} (hpc : st.threads t = .publishSwap i generation) :
    (st.moved t (st.store.setCurrent i)
      (.unpin st.store.curSlotIndex (.publish generation))).Inv := by
  have hholders : ∀ j, (st.store.setCurrent i).holders j +
      (StorePc.unpin st.store.curSlotIndex (.publish generation) : StorePc n G).pins j =
        st.store.holders j + (st.threads t).pins j := by
    intro j
    rw [hpc]
    dsimp only [GraphSnapshotStore.holders, setCurrent, pins, pinned]
    omega
  have hsnapshots : ∀ j, (st.store.setCurrent i).snapshots j ≤
      st.store.snapshots j + (st.threads t).tokens j := by
    intro j
    rw [hpc]
    dsimp only [GraphSnapshotStore.snapshots, setCurrent, StorePc.tokens, StorePc.token]
    omega
  constructor
  · intro j
    refine (hinv.slot j).frame rfl rfl (hholders j) ?_ ?_
    · rw [hpc]
      simp [StorePc.owned]
    · rw [hpc]
      simp [StorePc.owned]
  · intro j
    have hmoved := snapshots_moved st t j (st.store.setCurrent i)
      (.unpin st.store.curSlotIndex (.publish generation))
    have hle := hinv.single j
    have hsnapshots' := hsnapshots j
    have htoken : (StorePc.unpin st.store.curSlotIndex (.publish generation) :
        StorePc n G).tokens j = 0 := rfl
    omega

theorem takeGuard (hpc : st.threads t = .idle) (hguards : 0 < st.store.guards i) :
    (st.moved t (st.store.setGuards i (st.store.guards i - 1)) (.unpin i goal)).Inv := by
  have hholders := st.store.setGuards_holders i (st.store.guards i - 1)
  refine hinv.handOver hpc (.of_none rfl rfl) (.of_pinned rfl rfl) rfl rfl
    (setGuards_sameElse _ _ _) rfl rfl ?_ (Nat.le_refl _)
  simp only [pins, pinned, if_true]
  omega

/-- A caller's token for a slot becomes the thread's, to be published or destroyed. -/
theorem takeToken (hpc : st.threads t = .idle) (htokens : 0 < st.store.tokens i)
    (hpinned : pc'.pinned = some i) (howned : pc'.owned = none) :
    (st.moved t (st.store.setTokens i (st.store.tokens i - 1)) pc').Inv := by
  have hholders := st.store.setTokens_holders i (st.store.tokens i - 1)
  have hsnapshots := st.store.setTokens_snapshots i (st.store.tokens i - 1)
  have hpins : pc'.pins i = 1 := by simp [pins, hpinned]
  have htoken := pc'.tokens_le_pins i
  refine hinv.handOver hpc (.of_none rfl rfl) (.of_pinned hpinned howned) rfl howned
    (setTokens_sameElse _ _ _) rfl rfl ?_ ?_
  · rw [hpins]
    simp only [pins, pinned]
    omega
  · omega

theorem giveGuard (hpc : st.threads t = .pinReturned i) :
    (st.moved t (st.store.setGuards i (st.store.guards i + 1)) .idle).Inv := by
  have hholders := st.store.setGuards_holders i (st.store.guards i + 1)
  refine hinv.handOver hpc (.of_pinned rfl rfl) (.of_none rfl rfl) rfl rfl
    (setGuards_sameElse _ _ _) rfl rfl ?_ (Nat.le_refl _)
  simp only [pins, pinned, if_true]
  omega

theorem giveToken (hpc : st.threads t = .prepareReturned i) :
    (st.moved t (st.store.setTokens i (st.store.tokens i + 1)) .idle).Inv := by
  have hholders := st.store.setTokens_holders i (st.store.tokens i + 1)
  have hsnapshots := st.store.setTokens_snapshots i (st.store.tokens i + 1)
  refine hinv.handOver hpc (.of_pinned rfl rfl) (.of_none rfl rfl) rfl rfl
    (setTokens_sameElse _ _ _) rfl rfl ?_ ?_
  · simp only [pins, pinned, if_true]
    omega
  · simp only [StorePc.tokens, StorePc.token, if_true]
    omega

end

omit [DecidableEq Tid] in
/-- A thread that lowered a count to zero always cleans the slot. -/
theorem cleans_of_unpinLast (hinv : st.Inv) (hpc : st.threads t = .unpinLast i goal) :
    i ≠ st.store.curSlotIndex ∧ (st.store.slots i).data.isSome := by
  obtain ⟨hnone, -, -, hexp⟩ := (hinv.slot i).of_owned (t := t) (by rw [hpc]; rfl)
  rw [hpc] at hexp
  refine ⟨fun heq => ?_, hexp.2⟩
  unfold holders GraphSnapshotStore.holders at hnone
  rw [if_pos heq.symm] at hnone
  omega

omit [DecidableEq Tid] in
theorem count_of_publish (hinv : st.Inv) (hpc : st.threads t = .publish i) :
    1 ≤ (st.store.slots i).readerCount := by
  have hpins := st.pins_le_holders t i
  simp only [hpc, pins, pinned, if_true] at hpins
  obtain ⟨-, -, hcount, -⟩ := (hinv.slot i).of_held hpins
  omega

theorem access (hinv : st.Inv) {choice : StoreChoice n G} (hpc : st.threads t = pc)
    (h : storeStep st.store pc choice = some (store', pc')) : (st.moved t store' pc').Inv := by
  cases pc with
  | idle =>
    simp only [storeStep, start] at h
    split at h
    · cases h
      exact hinv.stay hpc
    · obtain ⟨hguards, h⟩ := Option.ite_none_right_eq_some.mp h
      cases h
      exact hinv.takeGuard hpc hguards
    · cases h
      exact hinv.stay hpc
    · obtain ⟨htokens, h⟩ := Option.ite_none_right_eq_some.mp h
      cases h
      exact hinv.takeToken hpc htokens rfl rfl
    · obtain ⟨htokens, h⟩ := Option.ite_none_right_eq_some.mp h
      cases h
      exact hinv.takeToken hpc htokens rfl rfl
  | crashed => cases h
  | pinSwap i observed =>
    simp only [storeStep] at h
    split at h
    · cases h
      exact hinv.stay hpc
    · next hpos =>
        split at h
        · next hsame =>
            cases h
            exact hinv.pinSwap hpc hsame.1 (by omega)
        · cases h
          exact hinv.stay hpc
  | pinVerify i =>
    simp only [storeStep] at h
    split at h <;> cases h <;> exact hinv.stay hpc
  | pinReturned i =>
    cases h
    exact hinv.giveGuard hpc
  | unpin i goal =>
    obtain ⟨rfl, rfl⟩ := h
    split
    · next hone => exact hinv.unpinLast hpc hone
    · next hmore => exact hinv.unpin hpc hmore
  | unpinLast i goal =>
    simp only [storeStep, if_pos (hinv.cleans_of_unpinLast hpc)] at h
    cases h
    exact hinv.stay hpc fun _ hexp => hexp
  | unpinSwap i goal =>
    obtain ⟨-, -, -, hexp⟩ := (hinv.slot i).of_owned (t := t) (by rw [hpc]; rfl)
    rw [hpc] at hexp
    simp only [storeStep, if_pos hexp.1] at h
    cases h
    exact hinv.change hpc rfl rfl rfl fun _ => rfl
  | cleanupReset i goal =>
    cases h
    exact hinv.change hpc rfl rfl rfl fun hexp => congrArg (SnapshotSlot.mk none) hexp
  | cleanupRelease i goal =>
    cases h
    refine hinv.change hpc rfl rfl rfl fun hexp => ?_
    rw [hexp]
    rfl
  | cleanupReturn i goal =>
    cases h
    exact hinv.giveBack hpc rfl id goal.pinned_next goal.owned_next goal.token_next
  | prepare graph planning =>
    cases graph with
    | none =>
      cases h
      exact hinv.stay hpc
    | some g =>
      simp only [storeStep] at h
      split at h
      · cases h
        exact hinv.stay hpc
      · next htake =>
          cases h
          exact hinv.getFreeSlot hpc htake
  | prepareReserve i graph planning =>
    simp only [storeStep] at h
    split at h <;> cases h
    · exact hinv.stay hpc fun _ hexp => Int.le_of_eq (congrArg _ hexp)
    · exact hinv.stay hpc fun _ hexp => hexp
  | prepareGuard i data =>
    cases h
    exact hinv.change hpc rfl rfl rfl fun hexp =>
      congrArg (fun slot : SnapshotSlot G => SnapshotSlot.mk slot.data kCleanupSentinel) hexp
  | prepareFill i data =>
    simp only [storeStep] at h
    split at h <;> cases h
    · refine hinv.stay hpc fun _ hexp => ?_
      rw [hexp]
      exact (by decide : kCleanupSentinel ≤ 0)
    · refine hinv.change hpc rfl rfl rfl fun hexp => ?_
      rw [hexp]
      exact ⟨rfl, rfl⟩
  | prepareRelease i =>
    cases h
    exact hinv.prepareRelease hpc
  | prepareReturned i =>
    cases h
    exact hinv.giveToken hpc
  | rollbackReset i error =>
    cases h
    exact hinv.change hpc rfl rfl rfl fun hexp => ⟨hexp, rfl⟩
  | rollbackCount i error =>
    cases h
    exact hinv.change hpc rfl rfl rfl fun hexp =>
      congrArg (fun data => SnapshotSlot.mk data 0) hexp.2
  | rollbackReturn i error =>
    cases h
    exact hinv.giveBack hpc rfl id rfl rfl rfl
  | publish i =>
    simp only [storeStep, if_pos (hinv.count_of_publish hpc)] at h
    cases h
    exact hinv.stay hpc
  | publishSwap i generation =>
    cases h
    exact hinv.publishSwap hpc
  | failed | pinLoad | pinRead | published =>
    cases h
    exact hinv.stay hpc

theorem step (hinv : st.Inv) {st' : StoreState Tid n G} (hstep : st.Step st') : st'.Inv := by
  obtain ⟨t, choice, hnext⟩ := hstep
  obtain ⟨⟨store', pc'⟩, hmove, rfl⟩ := Option.map_eq_some_iff.mp hnext
  exact hinv.access rfl hmove

end Inv

end StoreState

end Neug.Storage
