import Neug.Transaction.VersionManagerSafety

/-! # Runs of the version manager

Every step of the version manager is a step of the operation gate and, at the
same time, a step of the write-timestamp system or none.  The admission
conditions under which the latter lets a reservation begin are what the gate's
invariant says about the threads it has admitted, so both invariants hold along
every run.
-/

namespace Neug.Transaction

open Function
open OperationGateWord AdmissionState TimestampWindow Library

variable {Tid : Type*} [Fintype Tid]

theorem Counted.inserters_eq_zero {word : GateWord} {threads : Tid → GateLocal}
    (hcount : Counted word threads) (hnone : ∀ t, (threads t).held ≠ .inserter) :
    inserters word = 0 := by
  rw [hcount.inserters_eq]
  rw [tally_eq_zero_iff]
  intro t
  exact Held.inserterUnits_eq_zero (hnone t)

/-- The word is loaded only by owners of the all-blocked phase. -/
theorem VmPc.expects_of_loadAcquire {pc : VmPc} {h : Held} (hcall : pc.call = some .loadAcquire)
    (hexp : pc.Expects h) : ∃ r, h = .owner (.allBlocked true r) := by
  cases pc
  case updateEnter mode | updateDrain mode => cases mode <;> cases hcall
  case compactCheck => exact ⟨true, hexp⟩
  all_goals first | exact hexp | cases hcall

theorem VmLocal.goto_not_returned (l : VmLocal) (pc : VmPc) (result : GateResult) :
    (l.goto pc).gate.pc ≠ .returned result := by
  unfold VmLocal.goto
  cases pc.call with
  | none => simp
  | some c => cases c <;> simp [GateCall.start]

structure VmState.Inv (s : VmState Tid) : Prop where
  ok : ∀ t, (s.threads t).Ok
  observed : ∀ t w, (s.threads t).gate.pc = .returned (.word w) →
    phase w = some kAllBlocked ∧ inserters w = 0
  gate : s.gate.Inv
  ts : s.ts.Inv

namespace VmState.Inv

variable {s : VmState Tid} {t : Tid}

theorem of_initial (h : s.Initial) : s.Inv := by
  obtain ⟨view, hview, rfl⟩ := h
  refine ⟨fun t => ⟨rfl, rfl⟩, ?_, ?_, ?_⟩
  · intro t w hw
    cases hw
  · exact .of_initial ⟨rfl, fun t => rfl⟩
  · exact .of_initial ⟨⟨view, hview, rfl⟩, fun t => rfl⟩

omit [Fintype Tid] in
/-- Going on to another program point is a call or a departure at the gate. -/
theorem goto_step [DecidableEq Tid] (hidle : (s.gate.threads t).pc.Idle) {pc' : VmPc}
    (hexp : pc'.Expects (s.threads t).gate.held) :
    s.gate.Step ⟨s.word, update s.gate.threads t ((s.threads t).goto pc').gate⟩ := by
  unfold VmLocal.goto
  cases hcall : pc'.call with
  | none => exact .leave t hidle
  | some c => exact .call t c hidle (VmPc.permitted_of_expects hexp hcall)

section

variable (hinv : s.Inv)
include hinv

/-- Nobody else is busy with a timestamp while a thread is the only one admitted. -/
theorem not_active_of_sole (hsole : (s.threads t).gate.held.Sole) (u : Tid)
    (hut : u ≠ t) : ¬(s.threads u).pc.ts.Active := by
  intro hactive
  obtain ⟨o, ho, hdrained⟩ := hsole
  rcases (hinv.ok u).held_of_active hactive with hins | ⟨o', ho', -⟩
  · exact hinv.gate.excluded.inserters_drained t o ho hdrained u hins
  · exact hut (hinv.gate.excluded.owner_unique u t o' o ho' ho)

/-- Nobody is exclusively busy with a timestamp while an inserter is admitted. -/
theorem not_exclusive_of_inserter (hins : (s.threads t).gate.held = .inserter)
    (u : Tid) : ¬(s.threads u).pc.ts.Exclusive := by
  intro hexcl
  obtain ⟨o, ho, hdrained⟩ := (hinv.ok u).sole_of_exclusive hexcl
  exact hinv.gate.excluded.inserters_drained u o ho hdrained t hins

/-- The checks of `finish_update_and_reset_timeline` pass. -/
theorem writeTs_of_resetCheckWrite {ts : Nat}
    (hpc : (s.threads t).pc = .resetCheckWrite ts) : s.clock.writeTs = nextTs ts := by
  have hts : s.ts.threads t = .holding true ts := congrArg VmPc.ts hpc
  have hok := hinv.ts.localOk t
  rw [hts] at hok
  have hmax := hinv.ts.clockOk.next_le
  have hlast : ts + 1 = s.clock.timeline.next := hok.2 rfl
  have hwrite : s.clock.writeTs = s.clock.timeline.next := by
    apply hinv.ts.writeTs_eq_of_active (t := t)
    · rw [hts]
      trivial
    · intro ts' hreset
      rw [hts] at hreset
      cases hreset
  rw [hwrite, ← hlast, nextTs_of_lt]
  exact Nat.lt_of_lt_of_le (Nat.lt_succ_self ts) (hlast.le.trans hmax)

/-- The reservation-invariant exception is never raised. -/
theorem ne_reservationBroken (e : Bool) (w r : Nat) :
    (s.threads t).pc ≠ .threw (.reservationBroken e w r) := by
  intro hpc
  have hts : s.ts.threads t = .refused e (.invariantBroken w r) := congrArg VmPc.ts hpc
  have hok := hinv.ts.localOk t
  rw [hts] at hok
  exact hok.1 w r rfl

variable {s' : VmState Tid} {c : GateCall}

section

variable (hcall : (s.threads t).pc.call = some c)
include hcall

/-- A word loaded by an owner of the all-blocked phase that has seen the
inserters gone shows that phase and no inserter. -/
theorem observed_of_load {chance : Chance} {word' : GateWord} {l' : GateLocal}
    {w : GateWord} (hstep : gateStep s.word (s.threads t).gate chance = some (word', l'))
    (hl' : l'.pc = .returned (.word w)) : phase w = some kAllBlocked ∧ inserters w = 0 := by
  have hok := hinv.ok t
  unfold VmLocal.Ok at hok
  rw [hcall] at hok
  obtain ⟨h, hexp, hin⟩ := hok
  have hperm := VmPc.permitted_of_expects hexp hcall
  have hin' := hin.step hperm hstep
  obtain rfl : c = .loadAcquire := by
    obtain ⟨held', pc'⟩ := l'
    subst hl'
    cases c <;> first | rfl | exact hin'.elim
  obtain ⟨r, rfl⟩ := VmPc.expects_of_loadAcquire hcall hexp
  have hheld : (s.gate.threads t).held = .owner (.allBlocked true r) ∧ w = s.word := by
    change (s.threads t).gate.held = _ ∧ _
    generalize (s.threads t).gate = l at hin hstep
    obtain ⟨held, pc⟩ := l
    cases pc <;> first | exact hin.elim | skip
    case returned => simp [gateStep] at hstep
    case wordLoad =>
      obtain ⟨-, rfl⟩ := hstep
      simp only [GatePc.returned.injEq, GateResult.word.injEq] at hl'
      exact ⟨hin, hl'.symm⟩
  obtain ⟨hheld, rfl⟩ := hheld
  exact ⟨hinv.gate.excluded.owner_phase t _ hheld,
    hinv.gate.counted.inserters_eq_zero (hinv.gate.excluded.inserters_drained t _ hheld rfl)⟩

omit hcall in
theorem outside (hcall : (s.threads t).pc.call = none) :
    (s.threads t).gate.pc = .outside ∧ (s.threads t).pc.Expects (s.threads t).gate.held := by
  have hok := hinv.ok t
  unfold VmLocal.Ok at hok
  rwa [hcall] at hok

/-- What a thread that returns from a gate method holds, and with what it was
called. -/
theorem returned {result : GateResult} (hpc : (s.threads t).gate.pc = .returned result) :
    ∃ h, (s.threads t).pc.Expects h ∧ InCall c h ⟨(s.threads t).gate.held, .returned result⟩ ∧
      ¬GateLocal.Faulty ⟨(s.threads t).gate.held, .returned result⟩ ∧
      ∀ w, result = .word w → phase w = some kAllBlocked ∧ inserters w = 0 := by
  have hok := hinv.ok t
  unfold VmLocal.Ok at hok
  rw [hcall] at hok
  obtain ⟨h, hexp, hin⟩ := hok
  have hgate : (s.threads t).gate = ⟨(s.threads t).gate.held, .returned result⟩ := by
    rw [← hpc]
  refine ⟨h, hexp, hgate ▸ hin, ?_, ?_⟩
  · have hfault := hinv.gate.faultless t
    change ¬(s.threads t).gate.Faulty at hfault
    rwa [hgate] at hfault
  · rintro w rfl
    exact hinv.observed t w hpc

theorem expects_ret {result : GateResult} {chance : Chance}
    (hpc : (s.threads t).gate.pc = .returned result) :
    ((s.threads t).pc.afterCall result chance).Expects (s.threads t).gate.held := by
  obtain ⟨h, hexp, hin, hfault, hword⟩ := hinv.returned hcall hpc
  exact (VmPc.afterCall_sound hexp hcall hin hfault hword).1

end

variable [DecidableEq Tid]

theorem own {clock' : WriteClock Tid} {pc' : VmPc} {choice : VmChoice}
    (hcall : (s.threads t).pc.call = none)
    (hstep : ownStep s.clock t (s.threads t).pc choice = some (clock', pc')) :
    pc'.Expects (s.threads t).gate.held ∧ ((clock' = s.clock ∧ pc'.ts = (s.threads t).pc.ts) ∨
        s.ts.Step ⟨clock', update s.ts.threads t pc'.ts⟩) := by
  refine VmPc.ownStep_sound (s := s.ts) rfl (hinv.outside hcall).2 ?_ ?_ hstep
  · exact fun e w r => hinv.ne_reservationBroken e w r
  · exact fun _ hpc => hinv.writeTs_of_resetCheckWrite hpc

/-- Seen at the gate, a step of the version manager is a step of the gate. -/
theorem gate_step (hstep : s.Step s') : s.gate.Step s'.gate := by
  obtain ⟨t, choice, hroom, hnext⟩ := hstep
  simp only [VmState.next, Option.map_eq_some_iff] at hnext
  obtain ⟨⟨word', clock', l'⟩, hmove, rfl⟩ := hnext
  rw [VmState.gate_update]
  cases vmStep_move hmove with
  | ret c result hcall hpc =>
    have hidle : (s.gate.threads t).pc.Idle := by
      change (s.threads t).gate.pc.Idle
      rw [hpc]
      trivial
    exact goto_step hidle (hinv.expects_ret hcall hpc)
  | access c hcall hgate => exact .access t choice.chance hgate hroom
  | own hcall hown =>
    obtain ⟨hout, -⟩ := hinv.outside hcall
    have hidle : (s.gate.threads t).pc.Idle := by
      change (s.threads t).gate.pc.Idle
      rw [hout]
      trivial
    exact goto_step hidle (hinv.own hcall hown).1

/-- A thread that the gate has just admitted may begin its reservation. -/
theorem begin_step {e : Bool} (hidle : (s.threads t).pc.ts = .idle)
    (hinserter : e = false → (s.threads t).gate.held = .inserter)
    (hsole : e = true → (s.threads t).gate.held.Sole) :
    s.ts.Step ⟨s.clock, update s.ts.threads t (.reserving e .load)⟩ := by
  have hself : s.ts.threads t = .idle := hidle
  have halone : e = true → ∀ u, ¬(s.ts.threads u).Active := by
    intro he
    exact (and_forall_ne t).mp ⟨by rw [hself]; exact id, hinv.not_active_of_sole (hsole he)⟩
  refine .begin t e (by simp [hself, TsPc.Active]) (by simp [hself]) ?_ halone
  intro u
  cases e with
  | false => exact hinv.not_exclusive_of_inserter (hinserter rfl) u
  | true => exact fun hu => halone rfl u hu.active

/-- Seen at the timestamps, a step of the version manager is one step or none. -/
theorem ts_step (hstep : s.Step s') : s'.ts = s.ts ∨ s.ts.Step s'.ts := by
  obtain ⟨t, choice, -, hnext⟩ := hstep
  simp only [VmState.next, Option.map_eq_some_iff] at hnext
  obtain ⟨⟨word', clock', l'⟩, hmove, rfl⟩ := hnext
  rw [VmState.ts_update]
  have hstutter : ∀ p, p = (s.threads t).pc.ts →
      TsState.mk s.clock (update (fun u => (s.threads u).pc.ts) t p) = s.ts := by
    rintro p rfl
    unfold VmState.ts
    rw [update_eq_self]
  cases vmStep_move hmove with
  | ret c result hcall hpc =>
    obtain ⟨h, hexp, hin, hfault, hword⟩ := hinv.returned hcall hpc
    change _ = s.ts ∨ s.ts.Step ⟨s.clock, update s.ts.threads t
      ((s.threads t).pc.afterCall result choice.chance).ts⟩
    rcases (VmPc.afterCall_sound hexp hcall hin hfault hword).2 with
      hsame | ⟨e, hidle, hbegin, hinserter, hsole⟩ | ⟨e, reason, hrefused, hdone⟩ |
        ⟨ts, hholding, hfinish⟩
    · exact .inl (hstutter _ hsame)
    · rw [hbegin]
      exact .inr (hinv.begin_step hidle hinserter hsole)
    · rw [hdone]
      exact .inr (.dismiss t e reason hrefused)
    · rw [hfinish]
      exact .inr (.finish t true ts hholding)
  | access c hcall hgate => exact .inl (hstutter _ rfl)
  | own hcall hown =>
    rcases (hinv.own hcall hown).2 with ⟨rfl, hsame⟩ | hts
    · exact .inl (hstutter _ hsame)
    · exact .inr hts

theorem step (hstep : s.Step s') : s'.Inv := by
  have hgate : s'.gate.Inv := hinv.gate.step (hinv.gate_step hstep)
  have hts : s'.ts.Inv := by
    rcases hinv.ts_step hstep with hsame | hmove
    · rw [hsame]
      exact hinv.ts
    · exact hinv.ts.step hmove
  obtain ⟨t, choice, -, hnext⟩ := hstep
  simp only [VmState.next, Option.map_eq_some_iff] at hnext
  obtain ⟨⟨word', clock', l'⟩, hmove, rfl⟩ := hnext
  suffices hlocal : l'.Ok ∧ ∀ w, l'.gate.pc = .returned (.word w) →
      phase w = some kAllBlocked ∧ inserters w = 0 by
    refine ⟨?_, ?_, hgate, hts⟩
    · exact (forall_update_iff s.threads fun _ l => l.Ok).mpr
        ⟨hlocal.1, fun u _ => hinv.ok u⟩
    · exact (forall_update_iff s.threads fun _ l => ∀ w,
        l.gate.pc = .returned (.word w) → phase w = some kAllBlocked ∧ inserters w = 0).mpr
        ⟨hlocal.2, fun u _ => hinv.observed u⟩
  cases vmStep_move hmove with
  | ret c result hcall hpc =>
    refine ⟨VmLocal.ok_goto (hinv.expects_ret hcall hpc), ?_⟩
    intro w hw
    exact absurd hw (VmLocal.goto_not_returned _ _ _)
  | access c hcall haccess =>
    refine ⟨?_, fun w hw => hinv.observed_of_load hcall haccess hw⟩
    have hok := hinv.ok t
    unfold VmLocal.Ok at hok ⊢
    rw [hcall] at hok ⊢
    obtain ⟨h, hexp, hin⟩ := hok
    exact ⟨h, hexp, hin.step (VmPc.permitted_of_expects hexp hcall) haccess⟩
  | own hcall hown =>
    refine ⟨VmLocal.ok_goto (hinv.own hcall hown).1, ?_⟩
    intro w hw
    exact absurd hw (VmLocal.goto_not_returned _ _ _)

end

end VmState.Inv

theorem VmState.inv_of_reachable [DecidableEq Tid] {s : VmState Tid}
    (hreach : Reachable VmState.Initial VmState.Step s) : s.Inv :=
  Reachable.invariant VmState.Inv (fun _ h => .of_initial h) (fun _ _ _ hinv h => hinv.step h)
    hreach

end Neug.Transaction
