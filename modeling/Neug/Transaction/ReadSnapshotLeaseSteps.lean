import Neug.Transaction.ReadSnapshotLease

/-! # What a session can do inside the components

Between two decisions a session is inside an operation of the version manager or of
the store.  This file says, for each stretch of a program, at which program points of
the component the session can be, and that a step leads to another one of them.
-/

namespace Neug.Storage

open GraphSnapshotStore

variable {n : Nat} {G : Type*}

namespace StorePc

def unpinsFor : StorePc n G → Option UnpinFor
  | unpin _ goal | unpinLast _ goal | unpinSwap _ goal | cleanupReset _ goal
  | cleanupRelease _ goal | cleanupReturn _ goal => some goal
  | _ => none

/-- Inside `PinCurrentSnapshot`, up to its return. -/
def Pinning : StorePc n G → Prop
  | pinLoad | pinRead _ | pinSwap _ _ | pinVerify _ | pinReturned _ => True
  | pc => pc.unpinsFor = some .repin

def Releasing : StorePc n G → Prop
  | idle => True
  | pc => pc.unpinsFor = some .caller

def Guarding (pc : StorePc n G) : Prop := pc.Pinning ∨ pc.Releasing

/-- A slot has been filled with a graph, under a generation above `latest`. -/
def Filled (s : GraphSnapshotStore n G) (graph : G) (latest : Nat) (i : Fin n) : Prop :=
  ∃ data, (s.slots i).data = some data ∧ data.graph = graph ∧ latest < data.snapshotGeneration

/-- Inside `PrepareSnapshot` for a graph, up to its return. -/
def Preparing (s : GraphSnapshotStore n G) (graph : G) (latest : Nat) : StorePc n G → Prop
  | prepare g _ => g = some graph
  | prepareReserve _ g _ => g = graph
  | prepareGuard _ data | prepareFill _ data =>
    data.graph = graph ∧ latest < data.snapshotGeneration
  | prepareRelease i | prepareReturned i => Filled s graph latest i
  | rollbackReset _ _ | rollbackCount _ _ | rollbackReturn _ _ | failed _ => True
  | _ => False

def Publishing (generation : Nat) (pc : StorePc n G) : Prop :=
  pc.unpinsFor = some (.publish generation) ∨ pc = .published generation

end StorePc

def StoreRequest.entry : StoreRequest n G → StorePc n G
  | pin => .pinLoad
  | unpin i | discard i => .unpin i .caller
  | prepare graph planning => .prepare graph planning
  | publish i => .publish i

variable {s s' : GraphSnapshotStore n G} {pc pc' : StorePc n G} {choice : StoreChoice n G}

theorem GraphSnapshotStore.start_entry {request : StoreRequest n G}
    (h : s.start request = some (s', pc')) : pc' = request.entry := by
  cases request with
  | pin | prepare graph planning =>
    cases h
    rfl
  | unpin i | publish i | discard i =>
    obtain ⟨-, h⟩ := Option.ite_none_right_eq_some.mp h
    cases h
    rfl

theorem StorePc.eq_idle_of_isIdle (h : pc.isIdle = true) : pc = .idle := by
  cases pc <;> first | rfl | cases h

/-- An unpin goes on until it has reached its goal. -/
theorem StorePc.unpinsFor_step {goal : UnpinFor} (hpc : pc.unpinsFor = some goal)
    (h : storeStep s pc choice = some (s', pc')) : pc'.unpinsFor = some goal ∨ pc' = goal.next := by
  cases pc <;> simp only [unpinsFor, Option.some.injEq, reduceCtorEq] at hpc
  all_goals subst hpc
  case unpin | unpinLast =>
    obtain ⟨-, rfl⟩ := h
    split
    · exact .inl rfl
    · exact .inr rfl
  case unpinSwap =>
    simp only [storeStep] at h
    split at h <;> cases h
    · exact .inl rfl
    · exact .inr rfl
  all_goals
    cases h
    first | exact .inl rfl | exact .inr rfl

/-- `PinCurrentSnapshot` returns a slot that it has just seen to be current. -/
theorem StorePc.Pinning.step (hpc : pc.Pinning) (hrunning : ∀ i, pc ≠ .pinReturned i)
    (h : storeStep s pc choice = some (s', pc')) :
    pc'.Pinning ∧ ∀ i, pc' = .pinReturned i → i = s'.curSlotIndex := by
  cases pc with
  | pinLoad | pinRead i =>
    cases h
    exact ⟨trivial, by simp⟩
  | pinSwap i observed =>
    simp only [storeStep] at h
    split at h
    · cases h
      exact ⟨trivial, by simp⟩
    · split at h <;> cases h <;> exact ⟨trivial, by simp⟩
  | pinVerify i =>
    simp only [storeStep] at h
    split at h <;> cases h
    · next hcur =>
        refine ⟨trivial, fun j hj => ?_⟩
        cases hj
        exact hcur.symm
    · exact ⟨rfl, by simp⟩
  | pinReturned i => exact absurd rfl (hrunning i)
  | unpin | unpinLast | unpinSwap | cleanupReset | cleanupRelease | cleanupReturn =>
    rcases unpinsFor_step hpc h with hp | rfl
    · cases pc' <;> first | exact ⟨hp, by simp⟩ | cases hp
    · exact ⟨trivial, by simp [UnpinFor.next]⟩
  | _ => cases hpc

theorem StorePc.Pinning.ne_publishSwap (hpc : pc.Pinning) (i : Fin n) (g : Nat) :
    pc ≠ .publishSwap i g := by
  rintro rfl
  cases hpc

theorem StorePc.Releasing.ne_publishSwap (hpc : pc.Releasing) (i : Fin n) (g : Nat) :
    pc ≠ .publishSwap i g := by
  rintro rfl
  cases hpc

theorem StorePc.Releasing.step (hpc : pc.Releasing) (hrunning : pc ≠ .idle)
    (h : storeStep s pc choice = some (s', pc')) : pc'.Releasing := by
  cases pc with
  | idle => exact absurd rfl hrunning
  | unpin | unpinLast | unpinSwap | cleanupReset | cleanupRelease | cleanupReturn =>
    rcases unpinsFor_step hpc h with hp | rfl
    · cases pc' <;> first | exact hp | cases hp
    · trivial
  | _ => cases hpc

theorem StorePc.Guarding.step (hpc : pc.Guarding) (hguard : choice.request.isGuard = true)
    (h : storeStep s pc choice = some (s', pc')) : pc'.Guarding := by
  rcases hpc with hpc | hpc
  · by_cases hreturned : ∃ i, pc = .pinReturned i
    · obtain ⟨i, rfl⟩ := hreturned
      cases h
      exact .inr trivial
    · exact .inl (hpc.step (fun i hi => hreturned ⟨i, hi⟩) h).1
  · by_cases hidle : pc = .idle
    · subst hidle
      simp only [storeStep] at h
      cases hrequest : choice.request with
      | pin =>
        rw [hrequest] at h
        cases h
        exact .inl trivial
      | unpin i =>
        rw [hrequest] at h
        obtain ⟨-, h⟩ := Option.ite_none_right_eq_some.mp h
        cases h
        exact .inr rfl
      | prepare | publish | discard =>
        rw [hrequest] at hguard
        cases hguard
    · exact .inr (hpc.step hidle h)

theorem StorePc.Filled.congr {graph : G} {latest : Nat} {i : Fin n}
    (h : Filled s graph latest i) (hdata : (s'.slots i).data = (s.slots i).data) :
    Filled s' graph latest i := by
  obtain ⟨data, hsome, hrest⟩ := h
  exact ⟨data, hdata.trans hsome, hrest⟩

/-- `PrepareSnapshot` fills its slot with the graph it was given, under a generation
that is new. -/
theorem StorePc.Preparing.step {graph : G} {latest : Nat} (hpc : Preparing s graph latest pc)
    (hreturned : ∀ i, pc ≠ .prepareReturned i) (hfailed : ∀ e, pc ≠ .failed e)
    (hlatest : latest ≤ s.lastReservedGeneration)
    (h : storeStep s pc choice = some (s', pc')) : Preparing s' graph latest pc' := by
  cases pc with
  | prepare g planning =>
    subst hpc
    simp only [storeStep] at h
    split at h <;> cases h
    · trivial
    · rfl
  | prepareReserve i g planning =>
    simp only [storeStep] at h
    split at h <;> cases h
    · trivial
    · exact ⟨hpc, Nat.lt_succ_of_le hlatest⟩
  | prepareGuard i data =>
    cases h
    exact hpc
  | prepareFill i data =>
    simp only [storeStep] at h
    split at h <;> cases h
    · trivial
    · exact ⟨data, by rw [setData_slots_self], hpc⟩
  | prepareRelease i =>
    cases h
    exact Filled.congr hpc (s.setCount_data i _ i)
  | rollbackReset | rollbackCount | rollbackReturn =>
    cases h
    trivial
  | prepareReturned i => exact absurd rfl (hreturned i)
  | failed e => exact absurd rfl (hfailed e)
  | _ => exact hpc.elim

theorem StorePc.Publishing.step {generation : Nat} (hpc : pc.Publishing generation)
    (hrunning : pc ≠ .published generation)
    (h : storeStep s pc choice = some (s', pc')) : pc'.Publishing generation := by
  rcases hpc with hpc | hpc
  · exact unpinsFor_step hpc h
  · exact absurd hpc hrunning

end Neug.Storage

namespace Neug.Transaction

open OperationGateWord AdmissionState

namespace VmPc

/-- The program points outside the programs of readers and update transactions. -/
def Other : VmPc → Prop
  | readAdmit | readLoadView | reading _ => False
  | updateEnter _ | updateDrain _ | updateAbandon _ | updateReopen | updateReserve _
  | updateRefused _ | updating _ _ | updateBegin _ | updateDrainCheck _ | updateDrainReaders _
  | updateInstall _ _ | updateComplete _ _ | updateFinish => False
  | resetCheckGate _ | resetCheckWrite _ | resetting _ _ | resetFinish => False
  | _ => True

def Acquiring : VmPc → Prop
  | readAdmit | readLoadView | reading _ | threw _ => True
  | _ => False

def Beginning : VmPc → Prop
  | updateEnter _ | updateDrain _ | updateAbandon _ | updateReopen | updateReserve _
  | updateRefused _ | updating _ false | idle | threw _ => True
  | _ => False

def Leaving : VmPc → Prop
  | sharedRelease | idle | threw _ => True
  | _ => False

/-- Inside `finish_update_timestamp`, after the generation has been installed. -/
def Finishing : VmPc → Prop
  | updateComplete _ _ | updateFinish | idle => True
  | _ => False

theorem Other.afterCall {pc : VmPc} (h : pc.Other) (result : GateResult) (chance : Chance) :
    (pc.afterCall result chance).Other := by
  cases pc <;> first | exact h.elim | skip
  case insertBackOff reason | compactRefused reason =>
    cases reason <;> rcases result with _ | _ | _ | e <;> trivial
  case compactCheck ts =>
    rcases result with _ | _ | w | e
    case word =>
      simp only [VmPc.afterCall]
      split <;> trivial
    all_goals trivial
  all_goals rcases result with _ | ⟨_ | _⟩ | _ | e <;> trivial

theorem Other.ownStep {Tid : Type*} {clock clock' : WriteClock Tid} {t : Tid} {pc pc' : VmPc}
    {choice : VmChoice} (h : pc.Other) (hrequest : choice.request.isOther = true)
    (hstep : ownStep clock t pc choice = some (clock', pc')) : pc'.Other := by
  cases pc <;> first | exact h.elim | simp only [Neug.Transaction.ownStep] at hstep
  case idle =>
    obtain ⟨p, hp, heq⟩ := Option.map_eq_some_iff.mp hstep
    cases heq
    cases hr : choice.request <;> rw [hr] at hp hrequest <;> cases hp <;> trivial
  case insertReserve pc | compactReserve pc =>
    cases hstep
    rcases (reserveOn clock pc choice.chance.spurious).2 with _ | _ | ⟨_ | _ | _⟩ <;> trivial
  case insertComplete ts pc | compactComplete ts pc =>
    cases hstep
    rcases (completeStep clock t ts pc).2 with _ | _ <;> trivial
  case sealLock =>
    split at hstep <;> cases hstep <;> trivial
  case leased | inserting | compacting | exclusiveHeld =>
    obtain ⟨-, heq⟩ := Option.ite_none_right_eq_some.mp hstep
    cases heq
    trivial
  all_goals
    cases hstep
    try trivial

end VmPc

section Moves

variable {Tid : Type*} {word word' : GateWord} {clock clock' : WriteClock Tid} {t : Tid}
  {l l' : VmLocal} {choice : VmChoice}

/-- The program point after a step: inside a gate method the clock stays, outside the
step is one of the operation. -/
theorem VmMove.pc_cases (h : VmMove word clock t l choice word' clock' l') :
    (l.pc.call ≠ none ∧ clock' = clock ∧
      (l'.pc = l.pc ∨ ∃ result, l'.pc = l.pc.afterCall result choice.chance)) ∨
    (l.pc.call = none ∧ ownStep clock t l.pc choice = some (clock', l'.pc)) := by
  cases h with
  | ret c result hcall hpc => exact .inl ⟨by simp [hcall], rfl, .inr ⟨result, rfl⟩⟩
  | access c hcall hstep => exact .inl ⟨by simp [hcall], rfl, .inl rfl⟩
  | own hcall hstep => exact .inr ⟨hcall, hstep⟩

variable {pc : VmPc} {ts : Nat} {P : VmPc → Prop}

section

variable (h : VmMove word clock t l choice word' clock' l')
include h

theorem VmMove.own_of (hpc : l.pc = pc)
    (hcall : pc.call = none) : ownStep clock t pc choice = some (clock', l'.pc) := by
  subst hpc
  rcases h.pc_cases with ⟨hsome, -, -⟩ | ⟨-, hstep⟩
  · exact absurd hcall hsome
  · exact hstep

theorem VmMove.call_of (hpc : l.pc = pc) (hcall : pc.call.isSome) (hsame : P pc)
    (hafter : ∀ result, P (pc.afterCall result choice.chance)) : clock' = clock ∧ P l'.pc := by
  subst hpc
  rcases h.pc_cases with ⟨-, hclock, hpc' | ⟨result, hpc'⟩⟩ | ⟨hnone, -⟩
  · exact ⟨hclock, hpc' ▸ hsame⟩
  · exact ⟨hclock, hpc' ▸ hafter result⟩
  · simp [hnone] at hcall

theorem VmMove.other (hother : l.pc.Other)
    (hrequest : choice.request.isOther = true) : l'.pc.Other := by
  rcases h.pc_cases with ⟨-, -, hpc | ⟨result, hpc⟩⟩ | ⟨-, hstep⟩
  · rwa [hpc]
  · rw [hpc]
    exact hother.afterCall result _
  · exact hother.ownStep hrequest hstep

/-- `acquire_read_operation` returns the view that is published. -/
theorem VmMove.acquiring (hpc : l.pc = .readAdmit ∨ l.pc = .readLoadView) :
    l'.pc.Acquiring ∧ ∀ view, l'.pc = .reading view → view = clock'.publishedView := by
  rcases hpc with hpc | hpc
  · refine (h.call_of (P := fun p => p.Acquiring ∧ ∀ view, p = .reading view → view = _)
      hpc rfl ⟨trivial, nofun⟩ fun result => ?_).2
    rcases result with _ | ⟨_ | _⟩ | _ | e <;> exact ⟨trivial, nofun⟩
  · have hstep := h.own_of hpc rfl
    simp only [ownStep, Option.some.injEq, Prod.mk.injEq] at hstep
    obtain ⟨rfl, hpc'⟩ := hstep
    rw [← hpc']
    refine ⟨trivial, fun view hview => ?_⟩
    cases hview
    rfl

theorem VmMove.leaving (hpc : l.pc = .sharedRelease) : l'.pc.Leaving := by
  refine (h.call_of hpc rfl trivial fun result => ?_).2
  rcases result with _ | _ | _ | e <;> trivial

/-- The acquisition of an update timestamp ends with a lease, without one, or with an
exception. -/
theorem VmMove.beginning
    (hpc : l.pc.Beginning) (hupdating : ∀ ts b, l.pc ≠ .updating ts b) (hidle : l.pc ≠ .idle)
    (hthrew : ∀ e, l.pc ≠ .threw e) : l'.pc.Beginning := by
  cases hl : l.pc <;> rw [hl] at hpc <;> first | exact hpc.elim | skip
  case updating => exact absurd hl (hupdating _ _)
  case idle => exact absurd hl hidle
  case threw => exact absurd hl (hthrew _)
  case updateReserve pc =>
    have hstep := h.own_of hl rfl
    simp only [ownStep, Option.some.injEq, Prod.mk.injEq] at hstep
    rw [← hstep.2]
    rcases (reserveOn clock pc choice.chance.spurious).2 with _ | _ | ⟨_ | _ | _⟩ <;> trivial
  case updateRefused reason =>
    refine (h.call_of hl rfl trivial fun result => ?_).2
    cases reason <;> rcases result with _ | _ | _ | e <;> trivial
  case updateEnter mode =>
    refine (h.call_of hl (by cases mode <;> rfl) trivial fun result => ?_).2
    cases mode <;> rcases result with _ | ⟨_ | _⟩ | _ | e <;> trivial
  case updateDrain mode =>
    refine (h.call_of hl (by cases mode <;> rfl) trivial fun result => ?_).2
    cases mode <;> rcases result with _ | ⟨_ | _⟩ | _ | e <;> first | trivial | skip
    simp only [VmPc.afterCall]
    split <;> trivial
  all_goals
    refine (h.call_of hl rfl trivial fun result => ?_).2
    rcases result with _ | _ | _ | e <;> trivial

theorem VmMove.committing
    (hpc : l.pc = .updateBegin ts) : l'.pc = .updateBegin ts ∨ ∃ b, l'.pc = .updating ts b := by
  refine (h.call_of (P := fun p => p = .updateBegin ts ∨ ∃ b, p = .updating ts b) hpc rfl
    (.inl rfl) fun result => ?_).2
  rcases result with _ | _ | _ | e
  · exact .inr ⟨true, rfl⟩
  · exact .inl rfl
  · exact .inl rfl
  · exact .inr ⟨false, rfl⟩

theorem VmMove.finishing (hpc : l.pc.Finishing) (hidle : l.pc ≠ .idle) : l'.pc.Finishing := by
  cases hl : l.pc <;> rw [hl] at hpc <;> first | exact hpc.elim | skip
  case idle => exact absurd hl hidle
  case updateComplete ts pc =>
    have hstep := h.own_of hl rfl
    simp only [ownStep, Option.some.injEq, Prod.mk.injEq] at hstep
    rw [← hstep.2]
    rcases (completeStep clock t ts pc).2 with _ | _ <;> trivial
  case updateFinish =>
    refine (h.call_of hl rfl trivial fun result => ?_).2
    rcases result with _ | _ | _ | e <;> trivial

/-- The generation is installed before the timestamp is completed. -/
theorem VmMove.install {g : Nat} (hpc : l.pc = .updateInstall ts g) :
    l'.pc = .updateComplete ts .mark ∧ clock'.installedGeneration = g := by
  have hstep := h.own_of hpc rfl
  simp only [ownStep, Option.some.injEq, Prod.mk.injEq] at hstep
  obtain ⟨rfl, hpc'⟩ := hstep
  exact ⟨hpc'.symm, rfl⟩

/-- A compaction that holds its timestamp does not touch the clock. -/
theorem VmMove.clock_of_other
    (hother : l.pc.Other) (hts : l.pc.ts = .holding true ts) : clock' = clock := by
  cases hl : l.pc <;> rw [hl] at hother hts <;> first | exact hother.elim | cases hts | skip
  case threw e => cases e <;> cases hts
  case compacting =>
    have hstep := h.own_of hl rfl
    obtain ⟨-, heq⟩ := Option.ite_none_right_eq_some.mp hstep
    exact (congrArg Prod.fst (Option.some.inj heq)).symm
  case compactCheck => exact (h.call_of (P := fun _ => True) hl rfl trivial fun _ => trivial).1

/-- What a session asks for at its own program points. -/
theorem VmMove.request {pc' : VmPc} (hpc : l.pc = pc) (hcall : pc.call = none)
    (hnext : ownStep clock t pc choice = some (clock, pc')) : l'.pc = pc' ∧ clock' = clock := by
  have hstep := h.own_of hpc hcall
  rw [hnext, Option.some.injEq, Prod.mk.injEq] at hstep
  exact ⟨hstep.2.symm, hstep.1.symm⟩

end

end Moves

end Neug.Transaction
