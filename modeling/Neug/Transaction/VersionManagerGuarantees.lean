import Neug.Transaction.VersionManagerRuns

/-! # What the version manager guarantees

The three guarantees its clients build on, each over every interleaving of the
threads' atomic steps: the read frontier is the end of the completed prefix,
reserved timestamps are distinct and fit the completion window, and the gate
keeps its classes of threads apart.
-/

namespace Neug.Transaction

open Function Option Finset
open OperationGateWord AdmissionState TimestampWindow Library VmState

variable {Tid : Type*} [Fintype Tid] [DecidableEq Tid]

/-! ### Schedules -/

def VmState.play (s : VmState Tid) (schedule : List (Tid × VmChoice)) : Option (VmState Tid) :=
  schedule.foldlM (fun s m => if readers s.word < kMaxReaderCount then s.next m.1 m.2 else none) s

variable {s s' : VmState Tid} {word' word : GateWord} {l : GateLocal} {h : Held} {t : Tid}

omit [Fintype Tid] in
theorem VmState.reachable_of_play {view : PublishedReadView} {schedule : List (Tid × VmChoice)}
    (hview : view.visibilityTs < kMaxTimestamp) (hplay : (init Tid view).play schedule = some s) :
    Reachable Initial Step s := by
  refine ⟨_, ⟨view, hview, rfl⟩, run_of_foldlM (fun _ => True) (fun s m s' _ h => ?_) trivial hplay⟩
  obtain ⟨hroom, hnext⟩ := ite_none_right_eq_some.mp h
  exact ⟨⟨m.1, m.2, fun _ => hroom, hnext⟩, trivial⟩

def VmState.repeated (t : Tid) (count : Nat) (request : Request) : List (Tid × VmChoice) :=
  List.replicate count (t, ⟨⟨false, false⟩, request⟩)

/-! ### The read frontier -/

theorem VmState.frontierLe_of_run (hreach : Reachable Initial Step s)
    (hrun : Relation.ReflTransGen Step s s') : s.clock.FrontierLe s'.clock := by
  induction hrun with
  | refl => exact .of_eq rfl rfl
  | tail hprefix hlast ih =>
    have hinv := inv_of_reachable (hreach.trans hprefix)
    refine ih.trans ?_
    rcases hinv.ts_step hlast with hsame | hmove
    · have hclock := congrArg TsState.clock hsame
      exact .of_eq (congrArg (·.timeline.epoch) hclock) (congrArg (·.readTs) hclock)
    · exact hmove.frontierLe hinv.ts

/-- In every reachable state the read timestamp is below every reserved timestamp
that is not completed; it never decreases within a timeline; and unless some
completer is between its mark and the end of its locked section, it is the
largest timestamp up to which everything is completed. -/
theorem VmState.readTs_completed_frontier {s : VmState Tid}
    (hreach : Reachable VmState.Initial VmState.Step s) :
    (∀ ts ∈ s.clock.timeline.reserved, ts ∉ s.clock.timeline.completed → s.clock.readTs < ts) ∧
      (∀ s', Relation.ReflTransGen VmState.Step s s' →
        s'.clock.timeline.epoch = s.clock.timeline.epoch → s.clock.readTs ≤ s'.clock.readTs) ∧
      ((∀ t, ¬(s.threads t).pc.ts.Publishing) →
        IsGreatest {r | ∀ ts ≤ r, ts ≤ s.clock.timeline.base ∨ ts ∈ s.clock.timeline.completed}
          s.clock.readTs) := by
  have hinv := (inv_of_reachable hreach).ts
  have hclock : ClockOk s.clock := hinv.clockOk
  refine ⟨?_, ?_, ?_⟩
  · intro ts hreserved hcompleted
    have hrange := (hclock.mem_reserved ts).mp hreserved
    exact (hinv.outstanding_bounds ⟨hrange.1, hrange.2, hcompleted⟩).1
  · intro s' hrun hepoch
    rcases frontierLe_of_run hreach hrun with hlater | ⟨-, hle⟩
    · exact absurd hepoch hlater.ne'
    · exact hle
  · intro hquiet
    refine ⟨?_, ?_⟩
    · intro ts hts
      by_cases hbase : ts ≤ s.clock.timeline.base
      · exact .inl hbase
      · exact .inr (hclock.published ts (Nat.lt_of_not_le hbase) hts)
    · intro r hr
      by_contra hlt
      rcases hr (s.clock.readTs + 1) (Nat.succ_le_of_lt (Nat.lt_of_not_le hlt)) with hb | hc
      · exact absurd (hb.trans hclock.base_le) (Nat.not_succ_le_self _)
      · exact hinv.frontier_not_completed hquiet hc

/-- Two inserters reserve 1 and 2, and the second one completes first. -/
def VmState.overtaking : List (Fin 2 × VmChoice) :=
  repeated 0 7 .insert ++ repeated 1 7 .insert ++ repeated 1 5 .release

theorem VmState.exists_overtaking : ∃ s : VmState (Fin 2), Reachable Initial Step s ∧
    s.clock.timeline.reserved = [2, 1] ∧ s.clock.timeline.completed = [2] ∧ s.clock.readTs = 0 ∧
      (s.threads 0).pc = .inserting 1 ∧ (s.threads 1).pc = .insertRelease := by
  have hplay : ((VmState.init (Fin 2) ⟨0, 0⟩).play overtaking).map
      (fun s => (s.clock.timeline.reserved, s.clock.timeline.completed, s.clock.readTs,
        (s.threads 0).pc, (s.threads 1).pc)) =
      some ([2, 1], [2], 0, .inserting 1, .insertRelease) := by decide +kernel
  obtain ⟨s, hrun, hs⟩ := map_eq_some_iff.mp hplay
  simp only [Prod.mk.injEq] at hs
  exact ⟨s, reachable_of_play (by decide) hrun, hs⟩

theorem VmState.readTs_completed_frontier_overtaking :
    ∃ s : VmState (Fin 2), s.clock.timeline.reserved = [2, 1] ∧
      s.clock.timeline.completed = [2] ∧ s.clock.readTs < 1 ∧
      IsGreatest {r | ∀ ts ≤ r, ts ≤ s.clock.timeline.base ∨ ts ∈ s.clock.timeline.completed}
        s.clock.readTs := by
  obtain ⟨s, hreach, hreserved, hcompleted, -, h0, h1⟩ := exists_overtaking
  obtain ⟨hbelow, -, hgreatest⟩ := readTs_completed_frontier hreach
  refine ⟨s, hreserved, hcompleted, hbelow 1 (by simp [hreserved]) (by simp [hcompleted]),
    hgreatest (Fin.forall_fin_two.mpr ⟨?_, ?_⟩)⟩
  · simp [h0, VmPc.ts, TsPc.Publishing]
  · simp [h1, VmPc.ts, TsPc.Publishing]

/-! ### Reservations -/

/-- A reserved timestamp that is not completed or not covered by the frontier. -/
def WriteClock.Unpublished {Tid : Type*} (clock : WriteClock Tid) (ts : Nat) : Prop :=
  ts ∈ clock.timeline.reserved ∧ (ts ∉ clock.timeline.completed ∨ clock.readTs < ts)

omit [Fintype Tid] [DecidableEq Tid] in
theorem TsState.Inv.unpublished_bounds {s : TsState Tid} (hinv : s.Inv) {ts : Nat}
    (hts : s.clock.Unpublished ts) : s.clock.readTs < ts ∧ ts ≤ s.clock.readTs + kWindowSize := by
  obtain ⟨hreserved, hopen⟩ := hts
  have hrange := (hinv.clockOk.mem_reserved ts).mp hreserved
  by_cases hcompleted : ts ∈ s.clock.timeline.completed
  · exact hinv.completed_bounds hcompleted (hopen.resolve_left (not_not_intro hcompleted))
  · exact hinv.outstanding_bounds ⟨hrange.1, hrange.2, hcompleted⟩

/-- Reserved timestamps of a timeline are distinct and below the maximum; the
unpublished ones lie within one window above the frontier and occupy different
slots; the reservation loop never reports a broken invariant; and an update or a
compaction never finds the window full. -/
theorem VmState.reservations_fit_window {s : VmState Tid}
    (hreach : Reachable VmState.Initial VmState.Step s) : s.clock.timeline.reserved.Nodup ∧
      (∀ ts ∈ s.clock.timeline.reserved, ts < kMaxTimestamp) ∧ (∀ ts, s.clock.Unpublished ts →
        s.clock.readTs < ts ∧ ts ≤ s.clock.readTs + kWindowSize) ∧
      (∀ ts ts', s.clock.Unpublished ts → s.clock.Unpublished ts' → ts ≠ ts' →
        tsIndex ts ≠ tsIndex ts') ∧
      (∀ t e w r, (s.threads t).pc ≠ .threw (.reservationBroken e w r)) ∧
      (∀ t, (s.threads t).pc ≠ .updateRefused .windowFull ∧
        (s.threads t).pc ≠ .compactRefused .windowFull) := by
  have hinv := inv_of_reachable hreach
  have hclock : ClockOk s.clock := hinv.ts.clockOk
  refine ⟨hclock.nodup_reserved, ?_, fun _ hts => hinv.ts.unpublished_bounds hts, ?_,
    fun t e w r => hinv.ne_reservationBroken e w r, ?_⟩
  · intro ts hts
    exact Nat.lt_of_lt_of_le ((hclock.mem_reserved ts).mp hts).2 hclock.next_le
  · intro ts ts' hts hts' hne
    exact tsIndex_ne hne (hinv.ts.unpublished_bounds hts) (hinv.ts.unpublished_bounds hts')
  · intro t
    have hok : LocalOk s.clock t (s.threads t).pc.ts := hinv.ts.localOk t
    constructor
    · intro hpc
      rw [hpc] at hok
      exact hok.2 rfl rfl
    · intro hpc
      rw [hpc] at hok
      exact hok.2 rfl rfl

theorem VmState.reservations_fit_window_overtaking :
    ∃ s : VmState (Fin 2), s.clock.timeline.reserved = [2, 1] ∧
      s.clock.Unpublished 1 ∧ s.clock.Unpublished 2 ∧ tsIndex 1 ≠ tsIndex 2 := by
  obtain ⟨s, hreach, hreserved, -, hread, -⟩ := exists_overtaking
  have h1 : s.clock.Unpublished 1 := ⟨by simp [hreserved], .inr (by simp [hread])⟩
  have h2 : s.clock.Unpublished 2 := ⟨by simp [hreserved], .inr (by simp [hread])⟩
  obtain ⟨-, -, -, hslots, -, -⟩ := reservations_fit_window hreach
  exact ⟨s, hreserved, h1, h2, hslots 1 2 h1 h2 (by decide)⟩

/-! ### Admission -/

def VmState.admittedReaders (s : VmState Tid) : Finset Tid :=
  univ.filter fun t => (s.threads t).gate.held = .shared

def VmState.admittedInserters (s : VmState Tid) : Finset Tid :=
  univ.filter fun t => (s.threads t).gate.held = .inserter

/-- The threads that have counted themselves and are about to take it back. -/
def VmState.speculativeReaders (s : VmState Tid) : Finset Tid :=
  univ.filter fun t => (s.threads t).gate.pc.transientReaders = 1

/-- Program points of an attempt to be admitted, including the drains of an owner
that may still give up. -/
def VmPc.Attempting : VmPc → Prop
  | readAdmit | leaseAdmit _ | insertAdmit | updateEnter _ | updateDrain _ | updateAbandon _
  | updateReopen | compactEnter | compactDrainReaders | compactDrainInserters
  | exclusiveEnter _ | exclusiveDrainInserters _ | exclusiveDrainReaders _ | exclusiveAbandon _
  | sealTry => True
  | _ => False

omit [DecidableEq Tid] in
theorem GateState.Inv.readers_eq_card (hinv : s.gate.Inv) :
    readers s.word = s.admittedReaders.card + s.speculativeReaders.card := by
  have hunits : ∀ l : GateLocal, readerUnits l =
      (if l.held = .shared then 1 else 0) + if l.pc.transientReaders = 1 then 1 else 0 := by
    rintro ⟨held, pc⟩
    cases held <;> cases pc <;> rfl
  have hcount : readers s.word = tally readerUnits s.gate.threads := hinv.counted.readers_eq
  rw [hcount, admittedReaders, speculativeReaders,
    card_filter_eq_tally (fun l : VmLocal => l.gate.held = .shared),
    card_filter_eq_tally (fun l : VmLocal => l.gate.pc.transientReaders = 1)]
  unfold tally
  rw [← sum_add_distrib]
  exact sum_congr rfl fun t _ => hunits (s.threads t).gate

omit [DecidableEq Tid] in
theorem GateState.Inv.inserters_eq_card (hinv : s.gate.Inv) :
    inserters s.word = s.admittedInserters.card := by
  have hunits : ∀ l : GateLocal, inserterUnits l = if l.held = .inserter then 1 else 0 := by
    rintro ⟨held, pc⟩
    cases held <;> rfl
  have hcount : inserters s.word = tally inserterUnits s.gate.threads := hinv.counted.inserters_eq
  rw [hcount, admittedInserters, card_filter_eq_tally (fun l : VmLocal => l.gate.held = .inserter)]
  exact sum_congr rfl fun t _ => hunits (s.threads t).gate

/-- Inside a method a thread holds what it came with, or the phase it entered. -/
theorem InCall.held_running {c : GateCall} (hcall : InCall c h l)
    (hrunning : ∀ r, l.pc ≠ .returned r) : l.held = h ∨ ∃ d, l.held = .entered d := by
  obtain ⟨held, pc⟩ := l
  cases c <;> cases pc <;> first | exact hcall.elim | exact absurd rfl (hrunning _) | skip
  all_goals simp only [InCall] at hcall
  all_goals simp [hcall]

theorem VmPc.Attempting.expects {pc : VmPc} (hattempt : pc.Attempting) (hexp : pc.Expects h) :
    h = .nothing ∨ ∃ o, h = .owner o := by
  cases pc <;> first | exact hattempt.elim | skip
  all_goals simp only [VmPc.Expects] at hexp
  all_goals first
    | exact .inl hexp
    | (obtain ⟨i, r, hexp⟩ := hexp; exact .inr ⟨_, hexp⟩)
    | (obtain ⟨i, hexp⟩ := hexp; exact .inr ⟨_, hexp⟩)

omit [Fintype Tid] [DecidableEq Tid] in
/-- A step of an attempt that does not end in an admission finds the thread not
admitted and leaves it so. -/
theorem VmMove.held_of_attempting {clock clock' : WriteClock Tid} {l l' : VmLocal}
    {choice : VmChoice} (hmove : VmMove word clock t l choice word' clock' l') (hok : l.Ok)
    (hattempt : l.pc.Attempting) (hshared : l'.gate.held ≠ .shared)
    (hinserter : l'.gate.held ≠ .inserter) : l.gate.held ≠ .shared ∧ l.gate.held ≠ .inserter := by
  cases hmove with
  | ret c result hcall hpc => exact ⟨hshared, hinserter⟩
  | own hcall hstep => exact ⟨hshared, hinserter⟩
  | access c hcall hstep =>
    unfold VmLocal.Ok at hok
    rw [hcall] at hok
    obtain ⟨h, hexp, hin⟩ := hok
    have hrunning : ∀ r, l.gate.pc ≠ .returned r := by
      intro r hr
      simp [gateStep, hr] at hstep
    rcases hin.held_running hrunning with hheld | ⟨d, hheld⟩
    · rw [hheld]
      rcases hattempt.expects hexp with rfl | ⟨o, rfl⟩ <;> simp
    · rw [hheld]
      cases d <;> simp [Held.entered]

/-- An owner that has drained both counters stays one until it reopens the gate. -/
theorem gateStep_keeps_drained {c : GateCall} {l' : GateLocal} {chance : Chance}
    (hperm : c.Permitted h) (hcall : InCall c h l) (hheld : l.held = .owner (.allBlocked true true))
    (hstep : gateStep word l chance = some (word', l')) :
    l'.held = .owner (.allBlocked true true) ∨ l'.held = .nothing ∧ phase word' = some kOpen := by
  have hmoved : ∀ d, d ≠ kInsertsBlocked →
      (Held.owner (.allBlocked true true)).moved d = .owner (.allBlocked true true) ∨
        (Held.owner (.allBlocked true true)).moved d = .nothing ∧ d = kOpen := by
    intro d hd
    cases d <;> simp_all [Held.moved, Ownership.insertersDrained, Ownership.readersDrained]
  obtain ⟨held, pc⟩ := l
  subst hheld
  cases c <;> cases pc <;> first | exact hcall.elim | skip
  all_goals simp only [InCall, GateCall.Permitted] at hcall hperm
  case transitionPhase.transitionCas =>
    obtain ⟨rfl, rfl, rfl⟩ := hcall
    simp only [gateStep] at hstep
    split at hstep
    · obtain ⟨rfl, rfl⟩ := hstep
      rcases hmoved _ hperm.2 with hkeep | ⟨hleave, rfl⟩
      · exact .inl hkeep
      · exact .inr ⟨hleave, by simp⟩
    · obtain ⟨rfl, rfl⟩ := hstep
      exact .inl rfl
  all_goals simp only [gateStep, reduceCtorEq] at hstep
  all_goals repeat' split at hstep
  all_goals simp only [Option.some.injEq, Prod.mk.injEq] at hstep
  all_goals obtain ⟨rfl, rfl⟩ := hstep
  all_goals first | exact .inl rfl | simp_all [Held.moved]

/-- Inserters are admitted in the open phase only. -/
theorem GateEffect.inserter_admitted {l' : GateLocal} (heffect : GateEffect word l word' l')
    (hbefore : l.held ≠ .inserter) (hafter : l'.held = .inserter) : phase word = some kOpen := by
  cases heffect with
  | admitInserter hphase => exact hphase
  | quiet hheld => exact absurd (hheld ▸ hafter) hbefore
  | count _ _ _ _ hunits => rcases hunits with ⟨h, -⟩ | ⟨h, -⟩ <;> simp [h] at hafter
  | speculate _ _ _ _ _ hheld' | uncount _ _ _ hheld' | dropInserter _ hheld'
  | enter _ _ _ hheld' | advance _ _ _ hheld' | leave _ _ hheld' | drain _ _ _ hheld' =>
    simp [hheld'] at hafter

/-- What a step does to what the threads hold: the moving thread's holdings
follow the gate, all others keep theirs. -/
theorem VmState.Inv.held_cases {choice : VmChoice} (hinv : s.Inv)
    (hnext : s.next t choice = some s') (u : Tid) :
    (s'.threads u).gate.held = (s.threads u).gate.held ∨
      u = t ∧ ∃ c h, c.Permitted h ∧ InCall c h (s.threads t).gate ∧
        gateStep s.word (s.threads t).gate choice.chance = some (s'.word, (s'.threads t).gate) := by
  simp only [next, map_eq_some_iff] at hnext
  obtain ⟨⟨word', clock', l'⟩, hstep, rfl⟩ := hnext
  by_cases hut : u = t
  · subst hut
    simp only [update_self]
    have hok := hinv.ok u
    cases vmStep_move hstep with
    | ret c result hcall hpc => exact .inl rfl
    | own hcall hown => exact .inl rfl
    | access c hcall hgate =>
      unfold VmLocal.Ok at hok
      rw [hcall] at hok
      obtain ⟨h, hexp, hin⟩ := hok
      exact .inr ⟨trivial, c, h, VmPc.permitted_of_expects hexp hcall, hin, hgate⟩
  · left
    simp only [update_of_ne hut]

omit [DecidableEq Tid] in
/-- A thread whose operation has ended, normally or with an exception, holds
nothing of the gate. -/
theorem VmState.Inv.gate_of_ended (hinv : s.Inv)
    (hended : (s.threads t).pc = .idle ∨ ∃ e, (s.threads t).pc = .threw e) :
    (s.threads t).gate = ⟨.nothing, .outside⟩ := by
  have hlocal : (s.threads t).gate.pc = .outside ∧ (s.threads t).gate.held = .nothing := by
    rcases hended with hpc | ⟨e, hpc⟩
    · have hok := hinv.outside (t := t) (by rw [hpc]; rfl)
      rw [hpc] at hok
      exact hok
    · have hok := hinv.outside (t := t) (by rw [hpc]; rfl)
      refine ⟨hok.1, ?_⟩
      have hbroken := hinv.ne_reservationBroken (t := t)
      rw [hpc] at hok hbroken
      cases e <;> first | exact hok.2 | exact absurd rfl (hbroken _ _ _)
  obtain ⟨hpc, hheld⟩ := hlocal
  rw [← hpc, ← hheld]

/-- Admission at the gate.  One thread at most owns a phase; an inserter is
admitted only while no phase is owned; while an owner of the all-blocked phase
that has drained both counters stays in it, no reader or inserter is admitted;
the counters are the admitted threads and the readers about to take their unit
back; an operation that has ended holds nothing; and the steps of an attempt that
do not admit its thread leave the admitted threads as they are. -/
theorem VmState.admission_exclusive {s : VmState Tid}
    (hreach : Reachable VmState.Initial VmState.Step s) :
    (∀ t u o o', (s.threads t).gate.held = .owner o → (s.threads u).gate.held = .owner o' → t = u) ∧
      (∀ s', s.Step s' → ∀ t, t ∉ s.admittedInserters → t ∈ s'.admittedInserters →
        ∀ u o, (s.threads u).gate.held ≠ .owner o) ∧
      (∀ t, (s.threads t).gate.held = .owner (.allBlocked true true) →
        s.admittedReaders = ∅ ∧ s.admittedInserters = ∅ ∧
          ∀ s', s.Step s' → (s'.threads t).gate.held = .owner (.allBlocked true true) ∨
            (s'.threads t).gate.held = .nothing ∧ phase s'.word = some kOpen) ∧
      readers s.word = s.admittedReaders.card + s.speculativeReaders.card ∧
      inserters s.word = s.admittedInserters.card ∧
      (∀ t, ((s.threads t).pc = .idle ∨ ∃ e, (s.threads t).pc = .threw e) →
        (s.threads t).gate = ⟨.nothing, .outside⟩) ∧
      (∀ t choice s', s.next t choice = some s' → (s.threads t).pc.Attempting →
        t ∉ s'.admittedReaders → t ∉ s'.admittedInserters →
        s'.admittedReaders = s.admittedReaders ∧ s'.admittedInserters = s.admittedInserters) := by
  have hinv := inv_of_reachable hreach
  have hexcl := hinv.gate.excluded
  refine ⟨hexcl.owner_unique, ?_, ?_, hinv.gate.readers_eq_card, hinv.gate.inserters_eq_card,
    fun t => hinv.gate_of_ended, ?_⟩
  · rintro s' ⟨v, choice, -, hnext⟩ t hbefore hafter u o
    simp only [admittedInserters, mem_filter_univ] at hbefore hafter
    rcases hinv.held_cases hnext t with hsame | ⟨rfl, c, h, hperm, hin, hgate⟩
    · exact absurd (hsame ▸ hafter) hbefore
    · have heffect := gateStep_effect hperm hin hgate
      exact hexcl.no_owner (heffect.inserter_admitted hbefore hafter) u o
  · intro t hheld
    refine ⟨?_, ?_, ?_⟩
    · apply filter_eq_empty_iff.mpr
      intro u _ hu
      exact hexcl.readers_drained t _ hheld rfl u (.inl hu)
    · apply filter_eq_empty_iff.mpr
      intro u _ hu
      exact hexcl.inserters_drained t _ hheld rfl u hu
    · rintro s' ⟨v, choice, -, hnext⟩
      rcases hinv.held_cases hnext t with hsame | ⟨rfl, c, h, hperm, hin, hgate⟩
      · exact .inl (hsame.trans hheld)
      · exact gateStep_keeps_drained hperm hin hheld hgate
  · intro t choice s' hnext hattempt hreader hinserter
    simp only [VmState.next, map_eq_some_iff] at hnext
    obtain ⟨⟨word', clock', l'⟩, hstep, rfl⟩ := hnext
    simp only [admittedReaders, admittedInserters, mem_filter_univ,
      update_self] at hreader hinserter
    obtain ⟨hreader', hinserter'⟩ := (vmStep_move hstep).held_of_attempting (hinv.ok t) hattempt
      hreader hinserter
    constructor
    · apply filter_congr
      intro u _
      by_cases hut : u = t
      · subst hut
        simp [hreader, hreader']
      · simp [update_of_ne hut]
    · apply filter_congr
      intro u _
      by_cases hut : u = t
      · subst hut
        simp [hinserter, hinserter']
      · simp [update_of_ne hut]

/-- A reader that finds the gate blocked by a compaction counts itself and takes
the unit back, while the compaction has drained both counters. -/
def VmState.speculating : List (Fin 2 × VmChoice) :=
  repeated 1 2 .read ++ repeated 0 8 .compact ++ repeated 1 1 .read

theorem VmState.admission_exclusive_speculating :
    ∃ s : VmState (Fin 2), (s.threads 0).gate.held = .owner (.allBlocked true true) ∧
      (s.threads 1).pc.Attempting ∧ s.admittedReaders = ∅ ∧ readers s.word = 1 ∧
      readers s.word = s.admittedReaders.card + s.speculativeReaders.card := by
  have hplay : ((VmState.init (Fin 2) ⟨0, 0⟩).play speculating).map
      (fun s => ((s.threads 0).gate.held, (s.threads 1).pc, readers s.word)) =
      some (.owner (.allBlocked true true), .readAdmit, 1) := by decide +kernel
  obtain ⟨s, hrun, hs⟩ := map_eq_some_iff.mp hplay
  simp only [Prod.mk.injEq] at hs
  obtain ⟨hheld, hpc, hreaders⟩ := hs
  obtain ⟨-, -, hdrained, hcount, -, -, -⟩ := admission_exclusive
    (reachable_of_play (by decide) hrun)
  exact ⟨s, hheld, by rw [hpc]; trivial, (hdrained 0 hheld).1, hreaders, hcount⟩

end Neug.Transaction
