import Neug.Storage.GraphSnapshotStoreSafety

/-! # What the snapshot store guarantees

Over every interleaving a pinned slot keeps its snapshot, every slot is exactly one
of current, prepared, stale but pinned, being cleaned or free, and once callers have
released what they hold only the current slot is in use.
-/

namespace Neug.Storage

open Library List StorePc

variable {Tid : Type*} {n : Nat} {G : Type*}

namespace StorePc

/-- The slot that the thread has reserved and not yet turned into a token. -/
def fills : StorePc n G → Option (Fin n)
  | prepareReserve i _ _ | prepareGuard i _ | prepareFill i _ | prepareRelease i => some i
  | _ => none

/-- The slot that the thread is cleaning or giving back. -/
def cleans : StorePc n G → Option (Fin n)
  | unpinLast i _ | unpinSwap i _ | cleanupReset i _ | cleanupRelease i _ | cleanupReturn i _
  | rollbackReset i _ | rollbackCount i _ | rollbackReturn i _ => some i
  | _ => none

theorem owned_iff (pc : StorePc n G) (i : Fin n) :
    pc.owned = some i ↔ pc.fills = some i ∨ pc.cleans = some i := by
  cases pc <;> simp [owned, fills, cleans]

theorem not_owned_iff (pc : StorePc n G) (i : Fin n) :
    pc.owned ≠ some i ↔ pc.fills ≠ some i ∧ pc.cleans ≠ some i := by
  rw [Ne, owned_iff, not_or]

theorem not_fills_and_cleans (pc : StorePc n G) (i : Fin n) :
    ¬(pc.fills = some i ∧ pc.cleans = some i) := by
  cases pc <;> simp [fills, cleans]

variable {pc : StorePc n G} {i : Fin n}

theorem pinned_of_token (h : pc.token = some i) : pc.pinned = some i := by
  cases pc <;> simp_all [token, pinned]

theorem pins_eq_one (h : pc.pinned = some i) : pc.pins i = 1 := by
  simp [pins, h]

theorem pinned_of_pins (h : pc.pins i ≠ 0) : pc.pinned = some i := by
  unfold pins at h
  split at h
  · next j hj =>
      split at h
      · next heq => rw [hj, heq]
      · exact absurd rfl h
  · exact absurd rfl h

theorem tokens_eq_one (h : pc.token = some i) : pc.tokens i = 1 := by
  simp [tokens, h]

end StorePc

inductive SlotRole where
  | current
  | prepared
  | stale
  | cleaning
  | free
  deriving DecidableEq, Repr

/-- The snapshot that the thread is going to write into a slot. -/
def StorePc.carried : StorePc n G → Option (SnapshotData G)
  | prepareGuard _ data | prepareFill _ data => some data
  | _ => none

@[simp] theorem UnpinFor.carried_next (goal : UnpinFor) :
    (goal.next : StorePc n G).carried = none := by
  cases goal <;> rfl

/-- What a step does to the snapshots in the slots and in the hands of the thread: it
removes some, reserves a generation for a new one, or writes one into a slot. -/
inductive SnapshotEffect (s s' : GraphSnapshotStore n G) (pc pc' : StorePc n G) : Prop where
  | remove (hslots : ∀ i, (s'.slots i).data = (s.slots i).data ∨ (s'.slots i).data = none)
      (hcarried : pc'.carried = pc.carried ∨ pc'.carried = none)
      (hlast : s'.lastReservedGeneration = s.lastReservedGeneration)
  | reserve (data : SnapshotData G) (hslots : ∀ i, (s'.slots i).data = (s.slots i).data)
      (hcarried : pc'.carried = some data)
      (hlast : s'.lastReservedGeneration = s.lastReservedGeneration + 1)
      (hgeneration : data.snapshotGeneration = s.lastReservedGeneration + 1)
  | fill (i : Fin n) (data : SnapshotData G) (hpc : pc = .prepareFill i data)
      (hpc' : pc' = .prepareRelease i) (hself : (s'.slots i).data = some data)
      (hslots : ∀ j, j ≠ i → (s'.slots j).data = (s.slots j).data)
      (hlast : s'.lastReservedGeneration = s.lastReservedGeneration)

/-- Beside, only the owner of a slot changes its snapshot, and only the exchange of
`publishPreparedSnapshot` changes the current slot. -/
structure StoreFrame (s s' : GraphSnapshotStore n G) (pc pc' : StorePc n G) : Prop where
  effect : SnapshotEffect s s' pc pc'
  data : ∀ i, pc.owned ≠ some i → (s'.slots i).data = (s.slots i).data
  current : (∀ i g, pc ≠ .publishSwap i g) → s'.curSlotIndex = s.curSlotIndex

/-- A step that leaves the slots and after which the thread carries no snapshot. -/
theorem StoreFrame.stay {s s' : GraphSnapshotStore n G} {pc pc' : StorePc n G}
    (hslots : ∀ i, (s'.slots i).data = (s.slots i).data := by exact fun _ => rfl)
    (hcarried : pc'.carried = none := by rfl)
    (hlast : s'.lastReservedGeneration = s.lastReservedGeneration := by rfl)
    (hcurrent : s'.curSlotIndex = s.curSlotIndex := by rfl) : StoreFrame s s' pc pc' :=
  ⟨.remove (fun i => .inl (hslots i)) (.inr hcarried) hlast, fun i _ => hslots i, fun _ => hcurrent⟩

namespace GraphSnapshotStore

variable (s : GraphSnapshotStore n G)

theorem setCount_data (i : Fin n) (count : Int) (j : Fin n) :
    ((s.setCount i count).slots j).data = (s.slots j).data := by
  by_cases hj : j = i
  · subst hj
    rw [setCount_slots_self]
  · exact congrArg _ ((s.setSlot_sameElse i _).slots j hj)

theorem setData_data {i j : Fin n} (data : Option (SnapshotData G))
    (hj : j ≠ i) : ((s.setData i data).slots j).data = (s.slots j).data :=
  congrArg _ ((s.setSlot_sameElse i _).slots j hj)

theorem setData_none_data (i j : Fin n) : ((s.setData i none).slots j).data = (s.slots j).data ∨
      ((s.setData i none).slots j).data = none := by
  by_cases hj : j = i
  · subst hj
    rw [setData_slots_self]
    exact .inr rfl
  · exact .inl (s.setData_data none hj)

end GraphSnapshotStore

open GraphSnapshotStore

theorem GraphSnapshotStore.start_frame {s s' : GraphSnapshotStore n G} {pc' : StorePc n G}
    {request : StoreRequest n G} (h : s.start request = some (s', pc')) :
    s'.slots = s.slots ∧ s'.lastReservedGeneration = s.lastReservedGeneration ∧
      s'.curSlotIndex = s.curSlotIndex ∧ pc'.carried = none := by
  cases request with
  | pin | prepare graph planning =>
    cases h
    exact ⟨rfl, rfl, rfl, rfl⟩
  | unpin j | publish j | discard j =>
    obtain ⟨-, h⟩ := Option.ite_none_right_eq_some.mp h
    cases h
    exact ⟨rfl, rfl, rfl, rfl⟩

theorem storeStep_frame {s s' : GraphSnapshotStore n G} {pc pc' : StorePc n G}
    {choice : StoreChoice n G} (h : storeStep s pc choice = some (s', pc')) :
    StoreFrame s s' pc pc' := by
  cases pc with
  | idle =>
    obtain ⟨hslots, hlast, hcurrent, hcarried⟩ := start_frame h
    exact .stay (fun i => by rw [hslots]) hcarried hlast hcurrent
  | cleanupReset j goal | rollbackReset j error =>
    cases h
    exact ⟨.remove (s.setData_none_data j) (.inr rfl) rfl,
      fun i hi => s.setData_data none fun heq => hi (congrArg some heq.symm), fun _ => rfl⟩
  | prepareFill j data =>
    simp only [storeStep] at h
    split at h <;> cases h
    · exact .stay
    · exact ⟨.fill j data rfl rfl (by rw [setData_slots_self]) (fun k => s.setData_data _) rfl,
        fun i hi => s.setData_data _ fun heq => hi (congrArg some heq.symm), fun _ => rfl⟩
  | prepare graph planning =>
    cases graph with
    | none =>
      cases h
      exact .stay
    | some g =>
      simp only [storeStep] at h
      split at h <;> cases h
      · exact .stay
      · next htake =>
          have hstore := (getFreeSlot_eq_some htake).2
          exact .stay (fun _ => by rw [hstore]) rfl (by rw [hstore]) (by rw [hstore])
  | prepareReserve j graph planning =>
    simp only [storeStep] at h
    split at h <;> cases h
    · exact .stay
    · exact ⟨.reserve _ (fun _ => rfl) rfl rfl rfl, fun _ _ => rfl, fun _ => rfl⟩
  | prepareGuard j data =>
    cases h
    exact ⟨.remove (fun i => .inl (s.setCount_data j _ i)) (.inl rfl) rfl,
      fun i _ => s.setCount_data j _ i, fun _ => rfl⟩
  | pinSwap j observed =>
    simp only [storeStep] at h
    split at h
    · cases h
      exact .stay
    · split at h <;> cases h
      · exact .stay (s.setCount_data j _)
      · exact .stay
  | pinVerify j =>
    simp only [storeStep] at h
    split at h <;> cases h <;> exact .stay
  | unpin j goal =>
    obtain ⟨rfl, rfl⟩ := h
    refine .stay (s.setCount_data j _) ?_
    split
    · rfl
    · exact goal.carried_next
  | unpinLast j goal =>
    obtain ⟨rfl, rfl⟩ := h
    refine .stay (fun _ => rfl) ?_
    split
    · rfl
    · exact goal.carried_next
  | unpinSwap j goal =>
    simp only [storeStep] at h
    split at h <;> cases h
    · exact .stay (s.setCount_data j _)
    · exact .stay (fun _ => rfl) goal.carried_next
  | cleanupReturn j goal =>
    cases h
    exact .stay (fun _ => rfl) goal.carried_next
  | cleanupRelease j goal | prepareRelease j | rollbackCount j error =>
    cases h
    exact .stay (s.setCount_data j _)
  | publish j =>
    obtain ⟨rfl, rfl⟩ := h
    refine .stay (fun _ => rfl) ?_
    split <;> rfl
  | publishSwap j generation =>
    cases h
    exact ⟨.remove (fun _ => .inl rfl) (.inr rfl) rfl, fun _ _ => rfl,
      fun hswap => absurd rfl (hswap j generation)⟩
  | crashed => cases h
  | failed | pinLoad | pinRead | pinReturned | prepareReturned | rollbackReturn | published =>
    cases h
    exact .stay

namespace StoreState

variable (st : StoreState Tid n G)

/-- Some guard, or some thread inside an operation, holds a pin on the slot. -/
def Pinned (i : Fin n) : Prop :=
  0 < st.store.guards i ∨ ∃ t, (st.threads t).pinned = some i

/-- A token for the slot exists, or a thread is making or consuming it. -/
def Prepared (i : Fin n) : Prop :=
  0 < st.store.tokens i ∨ ∃ t, (st.threads t).token = some i ∨ (st.threads t).fills = some i

def HasRole (i : Fin n) : SlotRole → Prop
  | .current => st.store.curSlotIndex = i
  | .prepared => st.Prepared i
  | .stale => st.store.curSlotIndex ≠ i ∧ ¬st.Prepared i ∧ st.Pinned i
  | .cleaning => ∃ t, (st.threads t).cleans = some i
  | .free => i ∈ st.store.freeList

/-- No operation is going on, and callers hold neither guards nor tokens. -/
def Quiescent : Prop :=
  (∀ t, st.threads t = .idle) ∧ (∀ i, st.store.guards i = 0) ∧ ∀ i, st.store.tokens i = 0

variable [Fintype Tid] {st : StoreState Tid n G} {i : Fin n}

theorem Pinned.holders_pos (h : st.Pinned i) : 0 < st.holders i := by
  rcases h with hguards | ⟨t, ht⟩
  · unfold holders GraphSnapshotStore.holders
    omega
  · exact Nat.lt_of_lt_of_le (by rw [pins_eq_one ht]; decide) (st.pins_le_holders t i)

/-- The holders of a slot are the store itself, tokens, and pins. -/
theorem holders_pos_iff :
    0 < st.holders i ↔ st.store.curSlotIndex = i ∨ 0 < st.store.tokens i ∨ st.Pinned i := by
  constructor
  · intro hpos
    by_contra hnone
    simp only [not_or, Pinned, not_lt, Nat.le_zero, not_exists] at hnone
    obtain ⟨hcur, htokens, hguards, hthreads⟩ := hnone
    have htally : tally (pins i) st.threads = 0 :=
      (tally_eq_zero_iff _ _).mpr fun t => by
        by_contra hne
        exact hthreads t (pinned_of_pins hne)
    unfold holders GraphSnapshotStore.holders at hpos
    rw [if_neg hcur] at hpos
    omega
  · rintro (hcur | htokens | hpinned)
    · unfold holders GraphSnapshotStore.holders
      rw [if_pos hcur]
      omega
    · unfold holders GraphSnapshotStore.holders
      omega
    · exact hpinned.holders_pos

namespace Inv

theorem not_prepared_current (hinv : st.Inv) (hcur : st.store.curSlotIndex = i) :
    ¬st.Prepared i := by
  have hheld : 0 < st.holders i := holders_pos_iff.mpr (.inl hcur)
  have hsingle := hinv.single i
  unfold snapshots GraphSnapshotStore.snapshots at hsingle
  rw [if_pos hcur] at hsingle
  rintro (htokens | ⟨t, htoken | hfills⟩)
  · omega
  · have hle := units_le_tally (tokens i) st.threads t
    rw [tokens_eq_one htoken] at hle
    omega
  · exact ((hinv.slot i).of_held hheld).1 t (((st.threads t).owned_iff i).mpr (.inl hfills))

/-- A slot that nobody holds is prepared only while a thread fills it. -/
theorem of_none (hnone : st.holders i = 0) : st.store.curSlotIndex ≠ i ∧ ¬st.Pinned i ∧
    (st.Prepared i → ∃ t, (st.threads t).fills = some i) := by
  have hnot : ¬(st.store.curSlotIndex = i ∨ 0 < st.store.tokens i ∨ st.Pinned i) := fun h => by
    have := holders_pos_iff.mpr h
    omega
  obtain ⟨hcur, htokens, hpinned⟩ := not_or.mp hnot |>.imp_right not_or.mp
  refine ⟨hcur, hpinned, ?_⟩
  rintro (h | ⟨t, h | h⟩)
  · exact absurd h htokens
  · exact absurd (.inr ⟨t, pinned_of_token h⟩) hpinned
  · exact ⟨t, h⟩

/-- Every slot has exactly one role. -/
theorem existsUnique_role (hinv : st.Inv) (i : Fin n) : ∃! role, st.HasRole i role := by
  cases hinv.slot i with
  | live hheld howned hfree hcount hdata =>
    have hnotClean := fun t => ((not_owned_iff _ i).mp (howned t)).2
    have hnotFree : i ∉ st.store.freeList := count_eq_zero.mp hfree
    by_cases hcur : st.store.curSlotIndex = i
    · have hprepared := hinv.not_prepared_current hcur
      refine ⟨.current, hcur, fun role hrole => ?_⟩
      cases role <;> simp_all [HasRole]
    by_cases hprepared : st.Prepared i
    · refine ⟨.prepared, hprepared, fun role hrole => ?_⟩
      cases role <;> simp_all [HasRole]
    · have hpinned : st.Pinned i := by
        rcases holders_pos_iff.mp hheld with h | h | h
        · exact absurd h hcur
        · exact absurd (.inl h) hprepared
        · exact h
      refine ⟨.stale, ⟨hcur, hprepared, hpinned⟩, fun role hrole => ?_⟩
      cases role <;> simp_all [HasRole]
  | owned t hnone howned honly hfree hslot =>
    obtain ⟨hcur, hpinned, hprepared⟩ := of_none hnone
    have hnotFree : i ∉ st.store.freeList := count_eq_zero.mp hfree
    -- the slot has one owner, which does not fill and clean it at once
    have hboth : ∀ u v, (st.threads u).fills = some i → (st.threads v).cleans ≠ some i := by
      intro u v hu hv
      have hut := honly u (((st.threads u).owned_iff i).mpr (.inl hu))
      have hvt := honly v (((st.threads v).owned_iff i).mpr (.inr hv))
      rw [hvt, ← hut] at hv
      exact (st.threads u).not_fills_and_cleans i ⟨hu, hv⟩
    rcases ((st.threads t).owned_iff i).mp howned with hfills | hcleans
    · refine ⟨.prepared, .inr ⟨t, .inr hfills⟩, fun role hrole => ?_⟩
      have hnotClean := fun v => hboth t v hfills
      cases role <;> simp_all [HasRole]
    · refine ⟨.cleaning, ⟨t, hcleans⟩, fun role hrole => ?_⟩
      have hnotFill := fun u hu => hboth u t hu hcleans
      cases role <;> simp_all [HasRole]
  | free hnone howned hfree hslot =>
    obtain ⟨hcur, hpinned, hprepared⟩ := of_none hnone
    have hidle := fun t => (not_owned_iff _ i).mp (howned t)
    refine ⟨.free, count_pos_iff.mp (by omega), fun role hrole => ?_⟩
    cases role <;> simp_all [HasRole]

theorem freeList_nodup (hinv : st.Inv) : st.store.freeList.Nodup := by
  rw [nodup_iff_count_le_one]
  intro i
  cases hinv.slot i with
  | live _ _ hfree => omega
  | owned _ _ _ _ hfree => omega
  | free _ _ hfree => omega

/-- When everything is released, every slot but the current one is free. -/
theorem free_of_quiescent (hinv : st.Inv) (hquiet : st.Quiescent)
    (hcur : st.store.curSlotIndex ≠ i) : i ∈ st.store.freeList := by
  obtain ⟨hidle, hguards, htokens⟩ := hquiet
  cases hinv.slot i with
  | live hheld =>
    rcases holders_pos_iff.mp hheld with h | h | h | ⟨t, ht⟩
    · exact absurd h hcur
    · rw [htokens i] at h
      exact absurd h (Nat.lt_irrefl 0)
    · rw [hguards i] at h
      exact absurd h (Nat.lt_irrefl 0)
    · rw [hidle t] at ht
      cases ht
  | owned t _ howned =>
    rw [hidle t] at howned
    cases howned
  | free _ _ hfree => exact count_pos_iff.mp (by omega)

end Inv

/-! ### Initial states and runs -/

theorem count_tail_finRange [NeZero n] (i : Fin n) :
    (finRange n).tail.count i + (if (0 : Fin n) = i then 1 else 0) = 1 := by
  obtain ⟨m, rfl⟩ : ∃ m, n = m + 1 := ⟨n - 1, (Nat.succ_pred (NeZero.ne n)).symm⟩
  have hcount : (finRange (m + 1)).count i = 1 :=
    count_eq_one_of_mem (nodup_finRange _) (mem_finRange i)
  rw [finRange_succ, count_cons] at hcount
  rw [finRange_succ, tail_cons]
  simpa using hcount

theorem Inv.of_initial [NeZero n] (h : st.Initial) : st.Inv := by
  obtain ⟨graph, generation, rfl⟩ := h
  have htally : ∀ (f : StorePc n G → Nat), f .idle = 0 →
      tally f (fun _ : Tid => (.idle : StorePc n G)) = 0 := fun f hf =>
    (tally_eq_zero_iff _ _).mpr fun _ => hf
  have hholders : ∀ i : Fin n,
      (⟨.init graph generation, fun _ => .idle⟩ : StoreState Tid n G).holders i =
        if (0 : Fin n) = i then 1 else 0 := fun i => by
    unfold holders
    rw [htally _ rfl]
    rfl
  constructor
  · intro i
    have hcount := count_tail_finRange i
    by_cases hi : (0 : Fin n) = i
    · subst hi
      refine .live ?_ (fun _ => by simp [StorePc.owned]) (Nat.add_right_cancel hcount) ?_ ?_
      · rw [hholders, if_pos rfl]
        decide
      · rw [hholders, if_pos rfl]
        simp [GraphSnapshotStore.init]
      · simp [GraphSnapshotStore.init]
    · rw [if_neg hi] at hcount
      refine .free ?_ (fun _ => by simp [StorePc.owned]) hcount ?_
      · rw [hholders, if_neg hi]
      · simp [GraphSnapshotStore.init, Ne.symm hi]
  · intro i
    have hle := snapshots_le_holders
      (⟨.init graph generation, fun _ => .idle⟩ : StoreState Tid n G) i
    rw [hholders] at hle
    split at hle <;> omega

variable [DecidableEq Tid]

theorem inv_of_reachable [NeZero n] (hreach : Reachable Initial Step st) : st.Inv :=
  hreach.invariant Inv (fun _ => Inv.of_initial) (fun _ _ _ hinv hstep => hinv.step hstep)

theorem Inv.data_kept (hinv : st.Inv) {st' : StoreState Tid n G} (hstep : st.Step st')
    (hheld : 0 < st.holders i) : (st'.store.slots i).data = (st.store.slots i).data := by
  obtain ⟨t, choice, hnext⟩ := hstep
  obtain ⟨⟨store', pc'⟩, hmove, rfl⟩ := Option.map_eq_some_iff.mp hnext
  exact (storeStep_frame hmove).data i (((hinv.slot i).of_held hheld).1 t)

/-- In every reachable state a pinned slot is neither being cleaned nor free, and no step
changes its snapshot; every slot has exactly one role; the free list has no duplicate and
no slot that is in use; and when callers hold nothing and no operation is going on, every
slot but the current one is free. -/
theorem slots_exclusive [NeZero n] (hreach : Reachable Initial Step st) :
    (∀ i, st.Pinned i → (∀ t, (st.threads t).cleans ≠ some i ∧ (st.threads t).fills ≠ some i) ∧
      i ∉ st.store.freeList ∧ ∃ data, (st.store.slots i).data = some data ∧
        ∀ st', st.Step st' → (st'.store.slots i).data = some data) ∧
      (∀ i, ∃! role, st.HasRole i role) ∧ st.store.freeList.Nodup ∧
      (∀ i ∈ st.store.freeList, st.store.curSlotIndex ≠ i ∧ ¬st.Prepared i ∧ ¬st.Pinned i ∧
        st.store.slots i = ⟨none, 0⟩) ∧
      (st.Quiescent → ∀ i, st.store.curSlotIndex ≠ i → i ∈ st.store.freeList) := by
  have hinv := inv_of_reachable hreach
  refine ⟨fun i hpinned => ?_, hinv.existsUnique_role, hinv.freeList_nodup, fun i hi => ?_,
    fun hquiet i => hinv.free_of_quiescent hquiet⟩
  · have hheld := hpinned.holders_pos
    obtain ⟨howned, hfree, -, hdata⟩ := (hinv.slot i).of_held hheld
    refine ⟨fun t => ((not_owned_iff _ i).mp (howned t)).symm, count_eq_zero.mp hfree, ?_⟩
    obtain ⟨data, hsome⟩ := Option.isSome_iff_exists.mp hdata
    exact ⟨data, hsome, fun st' hstep => (hinv.data_kept hstep hheld).trans hsome⟩
  · obtain ⟨hnone, howned, -, hslot⟩ := (hinv.slot i).of_free (count_pos_iff.mpr hi)
    obtain ⟨hcur, hpinned, hprepared⟩ := Inv.of_none hnone
    refine ⟨hcur, fun h => ?_, hpinned, hslot⟩
    obtain ⟨t, hfills⟩ := hprepared h
    exact ((not_owned_iff _ i).mp (howned t)).1 hfills

/-! ### A reader with an old index -/

def play (st : StoreState Tid n G) (schedule : List (Tid × StoreRequest n G)) :
    Option (StoreState Tid n G) :=
  schedule.foldlM (fun st m => st.next m.1 ⟨m.2, false, false⟩) st

/-- A reader reads the index of the current slot; a writer publishes another slot, which
cleans the first one, and prepares that one again; the reader pins it. -/
def reuse : List (Fin 2 × StoreRequest 2 Unit) :=
  replicate 2 (0, .pin) ++ replicate 7 (1, .prepare (some ()) 0) ++
    replicate 10 (1, .publish 1) ++ replicate 7 (1, .prepare (some ()) 0) ++
    replicate 2 (0, .pin)

theorem slots_exclusive_reuse :
    ∃ st : StoreState (Fin 2) 2 Unit, st.Pinned 0 ∧ st.HasRole 0 .prepared ∧
      ¬st.HasRole 0 .stale ∧ (0 : Fin 2) ∉ st.store.freeList := by
  have hplay : ((⟨.init () 0, fun _ => .idle⟩ : StoreState (Fin 2) 2 Unit).play reuse).map
      (fun st => (st.threads 0, st.store.tokens 0)) = some (.pinVerify 0, 1) := by decide +kernel
  obtain ⟨st, hrun, hst⟩ := Option.map_eq_some_iff.mp hplay
  simp only [Prod.mk.injEq] at hst
  obtain ⟨hpc, htokens⟩ := hst
  have hpinned : st.Pinned 0 := .inr ⟨0, by rw [hpc]; rfl⟩
  have hprepared : st.HasRole 0 .prepared := .inl (by omega)
  obtain ⟨hsafe, hroles, -⟩ := slots_exclusive ⟨_, ⟨(), 0, rfl⟩,
    run_of_foldlM (fun _ => True) (fun _ m _ _ h => ⟨⟨m.1, _, h⟩, trivial⟩) trivial hrun⟩
  refine ⟨st, hpinned, hprepared, fun hstale => ?_, (hsafe 0 hpinned).2.1⟩
  exact absurd ((hroles 0).unique hprepared hstale) (by decide)

end StoreState

end Neug.Storage
