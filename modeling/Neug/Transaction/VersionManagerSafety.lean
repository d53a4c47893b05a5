import Neug.Transaction.VersionManager

/-! # The version manager refines its parts

Seen through the packed word, a run of the version manager is a run of the
operation gate; seen through the timestamp variables, it is a run of the
write-timestamp system, where the admission conditions assumed there are
discharged by the gate.  Both views rest on one local fact per program point:
what the thread holds of the gate.
-/

namespace Neug.Transaction

open Function
open OperationGateWord AdmissionState TimestampWindow Library

namespace VmPc

def ts : VmPc → TsPc
  | threw (.reservationBroken e w r) => .refused e (.invariantBroken w r)
  | insertReserve pc => .reserving false pc
  | insertBackOff reason => .refused false reason
  | inserting ts => .holding false ts
  | insertComplete ts pc => .completing false ts pc
  | updateReserve pc => .reserving true pc
  | updateRefused reason => .refused true reason
  | updating ts _ => .holding true ts
  | updateBegin ts => .holding true ts
  | updateDrainCheck ts => .holding true ts
  | updateDrainReaders ts => .holding true ts
  | updateInstall ts _ => .holding true ts
  | updateComplete ts pc => .completing true ts pc
  | resetCheckGate ts => .holding true ts
  | resetCheckWrite ts => .holding true ts
  | resetting ts pc => .resetting ts pc
  | compactReserve pc => .reserving true pc
  | compactRefused reason => .refused true reason
  | compacting ts => .holding true ts
  | compactCheck ts => .holding true ts
  | compactComplete ts pc => .completing true ts pc
  | sealTry => .sealing
  | sealStore => .sealing
  | sealUnseal => .sealing
  | sealUnlock => .sealing
  | _ => .idle

/-- What the thread holds of the gate when it arrives at a program point. -/
def Expects : VmPc → Held → Prop
  | crashed, _ => False
  | threw (.reservationBroken _ _ _), _ => True
  | readLoadView, h | reading _, h | leased, h | sharedRelease, h => h = .shared
  | insertReserve _, h | insertBackOff _, h | inserting _, h | insertComplete _ _, h
  | insertRelease, h => h = .inserter
  | updateDrain _, h | updateAbandon _, h | updateReopen, h =>
    ∃ i, h = .owner (.insertsBlocked i)
  | updateReserve _, h | updateRefused _, h | updating _ false, h | updateBegin _, h =>
    h = .owner (.insertsBlocked true)
  | updating _ true, h | updateDrainCheck _, h | updateDrainReaders _, h | resetCheckGate _, h
  | resetCheckWrite _, h | resetting _ _, h | resetFinish, h =>
    ∃ r, h = .owner (.allBlocked true r)
  | updateInstall _ _, h | updateComplete _ _, h | updateFinish, h =>
    ∃ o : Ownership, h = .owner o ∧ o.insertersDrained = true
  | compactDrainReaders, h => ∃ i r, h = .owner (.allBlocked i r)
  | compactDrainInserters, h => ∃ i, h = .owner (.allBlocked i true)
  | compactReserve _, h | compactRefused _, h | compacting _, h | compactCheck _, h
  | compactComplete _ _, h | compactFinish, h => h = .owner (.allBlocked true true)
  | exclusiveDrainInserters _, h => ∃ i r, h = .owner (.allBlocked i r)
  | exclusiveDrainReaders _, h => ∃ r, h = .owner (.allBlocked true r)
  | exclusiveAbandon _, h => ∃ i r, h = .owner (.allBlocked i r)
  | exclusiveHeld, h | exclusiveFinish, h | sealStore, h | sealUnseal, h =>
    h = .owner (.allBlocked true true)
  | _, h => h = .nothing

/-- The gate method at a program point is one the thread may call there. -/
theorem permitted_of_expects {pc : VmPc} {h : Held} {c : GateCall}
    (hexp : pc.Expects h) (hcall : pc.call = some c) : c.Permitted h := by
  cases pc
  case updateEnter mode =>
    cases mode <;> cases hcall <;> exact ⟨hexp, by decide⟩
  case updateDrain mode =>
    obtain ⟨i, rfl⟩ := hexp
    cases mode <;> cases hcall <;> exact ⟨_, rfl⟩
  all_goals cases hcall
  case updateAbandon | updateReopen | compactDrainReaders | exclusiveDrainInserters |
      exclusiveDrainReaders | exclusiveAbandon | updateFinish | updateDrainCheck |
      updateDrainReaders | resetCheckGate | resetFinish | compactDrainInserters =>
    first
      | (obtain ⟨a, b, rfl⟩ := hexp; simp [GateCall.Permitted, Ownership.phase])
      | (obtain ⟨a, rfl, -⟩ := hexp; simp [GateCall.Permitted])
  all_goals
    subst hexp
    simp [GateCall.Permitted, Ownership.phase]

end VmPc

/-- The thread is where its holdings say it should be: inside the gate method of
its program point, called with the expected holdings, or outside the gate. -/
def VmLocal.Ok (l : VmLocal) : Prop :=
  match l.pc.call with
  | some c => ∃ h, l.pc.Expects h ∧ InCall c h l.gate
  | none => l.gate.pc = .outside ∧ l.pc.Expects l.gate.held

variable {pc : VmPc} {c : GateCall} {h : Held} {l : VmLocal} {held : Held}

theorem VmLocal.ok_goto (hexp : pc.Expects l.gate.held) : (l.goto pc).Ok := by
  unfold VmLocal.Ok VmLocal.goto
  cases hcall : pc.call with
  | none => exact ⟨rfl, hexp⟩
  | some c => exact ⟨l.gate.held, hexp, inCall_start c _⟩

theorem VmPc.expects_threw (error : VmError) : (threw error).Expects .nothing := by
  cases error <;> simp [VmPc.Expects]

/-- A thread that owns a phase and has seen the inserters gone. -/
def Held.Sole (h : Held) : Prop :=
  ∃ o : Ownership, h = .owner o ∧ o.insertersDrained = true

/-- What a return from a gate method leads to: a program point that expects what the
thread then holds and, for the timestamps, nothing, the beginning of a reservation by an
admitted thread, the end of a refused one, or the completion of a compaction. -/
theorem VmPc.afterCall_sound {result : GateResult} {chance : Chance} (hexp : pc.Expects h)
    (hcall : pc.call = some c) (hin : InCall c h ⟨held, .returned result⟩)
    (hfault : ¬GateLocal.Faulty ⟨held, .returned result⟩)
    (hword : ∀ w, result = .word w → phase w = some kAllBlocked ∧ inserters w = 0) :
    (pc.afterCall result chance).Expects held ∧ ((pc.afterCall result chance).ts = pc.ts ∨
        (∃ e, pc.ts = .idle ∧ (pc.afterCall result chance).ts = .reserving e .load ∧
          (e = false → held = .inserter) ∧ (e = true → held.Sole)) ∨
        (∃ e reason, pc.ts = .refused e reason ∧ (pc.afterCall result chance).ts = .idle) ∨
        ∃ ts, pc.ts = .holding true ts ∧
          (pc.afterCall result chance).ts = .completing true ts .mark) := by
  cases pc
  case' updateEnter mode => cases mode
  case' updateDrain mode => cases mode
  case' insertBackOff reason => cases reason
  case' updateRefused reason => cases reason
  case' compactRefused reason => cases reason
  all_goals cases hcall
  all_goals rcases result with _ | ⟨_ | _⟩ | _ | e <;> first | exact hin.elim | skip
  all_goals simp only [InCall] at hin
  all_goals simp only [VmPc.Expects] at hexp
  all_goals first
    | obtain ⟨a, b, rfl⟩ := hexp
    | obtain ⟨o, rfl, ho⟩ := hexp
  case updateDrain.timed.refl.admitted.true =>
    subst hin
    simp only [afterCall]
    split
    · exact ⟨⟨true, rfl⟩, .inl rfl⟩
    · exact ⟨rfl, .inr (.inl ⟨true, rfl, rfl, by simp, fun _ => ⟨_, rfl, rfl⟩⟩)⟩
  case updateAbandon.refl.done | exclusiveAbandon.refl.done =>
    subst hin
    refine ⟨expects_threw _, ?_⟩
    simp only [afterCall]
    split <;> exact .inl rfl
  all_goals simp_all [GateLocal.Faulty, afterCall, VmPc.Expects, ts, Held.Sole,
    Held.moved, Held.entered, Held.noteReadersDrained, Held.noteInsertersDrained,
    Ownership.noteReadersDrained, Ownership.noteInsertersDrained, Ownership.insertersDrained,
    Ownership.readersDrained]

/-- Outside the gate a thread keeps what it holds, each program point it can reach
expects just that, and the timestamps take one step or none. -/
theorem VmPc.ownStep_sound {Tid : Type*} [DecidableEq Tid] {s : TsState Tid} {t : Tid}
    {pc' : VmPc} {choice : VmChoice} {clock' : WriteClock Tid} (ht : s.threads t = pc.ts)
    (hexp : pc.Expects held) (hbroken : ∀ e w r, pc ≠ .threw (.reservationBroken e w r))
    (hlast : ∀ ts, pc = .resetCheckWrite ts → s.clock.writeTs = nextTs ts)
    (hstep : ownStep s.clock t pc choice = some (clock', pc')) : pc'.Expects held ∧
      ((clock' = s.clock ∧ pc'.ts = pc.ts) ∨ s.Step ⟨clock', update s.threads t pc'.ts⟩) := by
  cases pc
  case idle =>
    simp only [ownStep, Option.map_eq_some_iff, Prod.mk.injEq] at hstep
    obtain ⟨pc, hpc, rfl, rfl⟩ := hstep
    cases hr : choice.request <;> simp only [hr, ofRequest, Option.some.injEq, reduceCtorEq]
      at hpc
    all_goals
      subst hpc
      exact ⟨hexp, .inl ⟨rfl, rfl⟩⟩
  case threw e =>
    obtain ⟨rfl, rfl⟩ := hstep
    cases e
    case reservationBroken => exact absurd rfl (hbroken _ _ _)
    all_goals exact ⟨hexp, .inl ⟨rfl, rfl⟩⟩
  case updating ts started =>
    simp only [ownStep, Option.map_eq_some_iff, Prod.mk.injEq] at hstep
    obtain ⟨pc, hpc, rfl, rfl⟩ := hstep
    unfold ofLeaseRequest at hpc
    split at hpc
    all_goals
      cases started <;> simp only [Bool.false_eq_true, if_false, if_true, reduceCtorEq,
        Option.some.injEq] at hpc
    all_goals
      subst hpc
      constructor
    all_goals first
      | exact .inl ⟨rfl, rfl⟩
      | exact .inr (.finish t true ts ht)
      | skip
    all_goals
      first
        | exact hexp
        | (subst hexp; exact ⟨_, rfl, rfl⟩)
        | (obtain ⟨r, rfl⟩ := hexp; exact ⟨_, rfl, rfl⟩)
  case insertReserve pc | updateReserve pc | compactReserve pc =>
    simp only [ownStep, Option.some.injEq, Prod.mk.injEq] at hstep
    obtain ⟨rfl, rfl⟩ := hstep
    have hreserve := TsState.Step.reserve t _ pc choice.chance.spurious ht
    rcases hprogress : (reserveOn s.clock pc choice.chance.spurious).2 with _ | _ | ⟨_ | _ | _⟩
    all_goals
      rw [hprogress] at hreserve
      exact ⟨by first | exact hexp | trivial, .inr hreserve⟩
  case insertComplete ts pc | updateComplete ts pc | compactComplete ts pc =>
    simp only [ownStep, Option.some.injEq, Prod.mk.injEq] at hstep
    obtain ⟨rfl, rfl⟩ := hstep
    have hcomplete := TsState.Step.complete t _ ts pc ht
    rcases hnext : (completeStep s.clock t ts pc).2 with _ | _
    all_goals
      rw [hnext] at hcomplete
      exact ⟨hexp, .inr hcomplete⟩
  case resetting ts pc =>
    simp only [ownStep, Option.some.injEq, Prod.mk.injEq] at hstep
    obtain ⟨rfl, rfl⟩ := hstep
    have hreset := TsState.Step.reset t ts pc ht
    rcases hnext : (resetStep s.clock pc).2 with _ | _
    all_goals
      rw [hnext] at hreset
      exact ⟨hexp, .inr hreset⟩
  case resetCheckWrite ts =>
    simp only [ownStep, hlast ts rfl, if_true, Option.some.injEq, Prod.mk.injEq] at hstep
    obtain ⟨rfl, rfl⟩ := hstep
    exact ⟨hexp, .inr (.beginReset t ts ht (hlast ts rfl))⟩
  case sealLock =>
    simp only [ownStep] at hstep
    split at hstep
    all_goals
      obtain ⟨rfl, rfl⟩ := hstep
    case h_1 hfree => exact ⟨hexp, .inr (.sealLock t ht hfree)⟩
    case h_2 => exact ⟨hexp, .inl ⟨rfl, rfl⟩⟩
  case reading | leased | inserting | compacting | exclusiveHeld =>
    simp only [ownStep, Option.ite_none_right_eq_some, Option.some.injEq, Prod.mk.injEq] at hstep
    obtain ⟨-, rfl, rfl⟩ := hstep
    first | exact ⟨hexp, .inl ⟨rfl, rfl⟩⟩ | exact ⟨hexp, .inr (.finish t _ _ ht)⟩
  all_goals simp only [ownStep, Option.some.injEq, Prod.mk.injEq, reduceCtorEq] at hstep
  all_goals obtain ⟨rfl, rfl⟩ := hstep
  case updateInstall ts generation => exact ⟨hexp, .inr (.install t ts generation ht)⟩
  case sealUnlock => exact ⟨hexp, .inr (.sealUnlock t ht)⟩
  all_goals exact ⟨hexp, .inl ⟨rfl, rfl⟩⟩

/-- A method that an active thread calls leaves it the owner, with the inserters
gone. -/
theorem InCall.sole {l : GateLocal} (hcall : InCall c h l)
    (hc : c = .transitionPhase kInsertsBlocked kAllBlocked ∨ c = .waitReadersDrained false ∨
      c = .loadAcquire) (hsole : h.Sole) : l.held.Sole := by
  obtain ⟨held, pc⟩ := l
  obtain ⟨o, rfl, ho⟩ := hsole
  rcases hc with rfl | rfl | rfl
  all_goals cases pc <;> first | exact hcall.elim | skip
  case' inl.returned result => rcases result with _ | _ | _ | e
  case' inr.inl.returned result => rcases result with _ | ⟨_ | _⟩ | _ | e
  case' inr.inr.returned result => rcases result with _ | _ | _ | e
  all_goals first | exact hcall.elim | skip
  all_goals simp only [InCall] at hcall
  case inl.returned.done =>
    subst hcall
    exact ⟨_, rfl, ho⟩
  case inr.inl.returned.admitted.true =>
    subst hcall
    cases o <;> exact ⟨_, rfl, ho⟩
  all_goals simp_all [Held.Sole]

theorem VmPc.held_of_active (hexp : pc.Expects h) (hactive : pc.ts.Active) :
    h = .inserter ∨ h.Sole := by
  cases pc
  case updating ts started =>
    cases started
    · exact .inr ⟨_, hexp, rfl⟩
    · obtain ⟨r, rfl⟩ := hexp
      exact .inr ⟨_, rfl, rfl⟩
  case threw e => cases e <;> exact hactive.elim
  all_goals first | exact hactive.elim | skip
  all_goals first
    | exact .inl hexp
    | exact .inr hexp
    | exact .inr ⟨_, hexp, rfl⟩
    | (obtain ⟨r, rfl⟩ := hexp; exact .inr ⟨_, rfl, rfl⟩)

theorem VmPc.sole_of_exclusive (hexp : pc.Expects h) (hexcl : pc.ts.Exclusive) : h.Sole := by
  rcases held_of_active hexp hexcl.active with hins | hsole
  · subst hins
    cases pc
    case updating ts started =>
      cases started
      · cases hexp
      · obtain ⟨r, hr⟩ := hexp
        cases hr
    case threw e => cases e <;> exact hexcl.elim
    all_goals simp_all [ts, TsPc.Exclusive, VmPc.Expects]
  · exact hsole

/-- The gate methods called while busy with a timestamp are those that do not
give up the phase. -/
theorem VmPc.call_of_active (hcall : pc.call = some c) (hactive : pc.ts.Active) :
    pc.ts.Exclusive ∧ (c = .transitionPhase kInsertsBlocked kAllBlocked ∨
      c = .waitReadersDrained false ∨ c = .loadAcquire) := by
  cases pc <;> first | exact hactive.elim | cases hcall
  all_goals simp [ts, TsPc.Exclusive]

theorem VmLocal.Ok.sole_of_exclusive (hok : l.Ok) (hexcl : l.pc.ts.Exclusive) :
    l.gate.held.Sole := by
  unfold VmLocal.Ok at hok
  cases hcall : l.pc.call with
  | none =>
    rw [hcall] at hok
    exact VmPc.sole_of_exclusive hok.2 hexcl
  | some c =>
    rw [hcall] at hok
    obtain ⟨h, hexp, hin⟩ := hok
    exact hin.sole (VmPc.call_of_active hcall hexcl.active).2
      (VmPc.sole_of_exclusive hexp hexcl)

/-- Whoever is busy with a timestamp has the gate's leave. -/
theorem VmLocal.Ok.held_of_active (hok : l.Ok) (hactive : l.pc.ts.Active) :
    l.gate.held = .inserter ∨ l.gate.held.Sole := by
  cases hcall : l.pc.call with
  | none =>
    unfold VmLocal.Ok at hok
    rw [hcall] at hok
    exact VmPc.held_of_active hok.2 hactive
  | some c => exact .inr (hok.sole_of_exclusive (VmPc.call_of_active hcall hactive).1)

/-! ### The two views -/

section Views

variable {Tid : Type*}

def VmState.gate (s : VmState Tid) : GateState Tid :=
  ⟨s.word, fun t => (s.threads t).gate⟩

def VmState.ts (s : VmState Tid) : TsState Tid :=
  ⟨s.clock, fun t => (s.threads t).pc.ts⟩

variable [DecidableEq Tid]

section

variable (word : GateWord) (clock : WriteClock Tid) (threads : Tid → VmLocal) (t : Tid)
  (l : VmLocal)

theorem VmState.gate_update : (VmState.mk word clock (update threads t l)).gate =
      ⟨word, update (fun u => (threads u).gate) t l.gate⟩ := by
  unfold VmState.gate
  congr 1
  funext u
  exact apply_update (fun _ l => VmLocal.gate l) threads t l u

theorem VmState.ts_update : (VmState.mk word clock (update threads t l)).ts =
      ⟨clock, update (fun u => (threads u).pc.ts) t l.pc.ts⟩ := by
  unfold VmState.ts
  congr 1
  funext u
  exact apply_update (fun _ (l : VmLocal) => l.pc.ts) threads t l u

end

/-- The three kinds of steps of a thread: it returns from a gate method, it is
inside one, or it is outside the gate. -/
inductive VmMove (word : GateWord) (clock : WriteClock Tid) (t : Tid) (l : VmLocal)
    (choice : VmChoice) : GateWord → WriteClock Tid → VmLocal → Prop
  | ret (c : GateCall) (result : GateResult) (hcall : l.pc.call = some c)
      (hpc : l.gate.pc = .returned result) :
      VmMove word clock t l choice word clock (l.goto (l.pc.afterCall result choice.chance))
  | access (c : GateCall) {word' : GateWord} {gate' : GateLocal} (hcall : l.pc.call = some c)
      (hstep : gateStep word l.gate choice.chance = some (word', gate')) :
      VmMove word clock t l choice word' clock ⟨gate', l.pc⟩
  | own {clock' : WriteClock Tid} {pc' : VmPc} (hcall : l.pc.call = none)
      (hstep : ownStep clock t l.pc choice = some (clock', pc')) :
      VmMove word clock t l choice word clock' (l.goto pc')

omit [DecidableEq Tid] in
theorem vmStep_move {word word' : GateWord} {clock clock' : WriteClock Tid} {t : Tid}
    {l l' : VmLocal} {choice : VmChoice}
    (hstep : vmStep word clock t l choice = some (word', clock', l')) :
    VmMove word clock t l choice word' clock' l' := by
  unfold vmStep at hstep
  split at hstep
  case h_1 c hcall =>
    split at hstep
    case h_1 result hpc =>
      obtain ⟨rfl, rfl, rfl⟩ := hstep
      exact .ret c result hcall hpc
    case h_2 =>
      simp only [Option.map_eq_some_iff, Prod.mk.injEq] at hstep
      obtain ⟨⟨word'', gate'⟩, hgate, rfl, rfl, rfl⟩ := hstep
      exact .access c hcall hgate
  case h_2 hcall =>
    simp only [Option.map_eq_some_iff, Prod.mk.injEq] at hstep
    obtain ⟨⟨clock'', pc'⟩, hown, rfl, rfl, rfl⟩ := hstep
    exact .own hcall hown

end Views

end Neug.Transaction
