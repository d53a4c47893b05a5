import Neug.Library.Reachability
import Neug.Library.Threads
import Neug.Transaction.OperationGateContract

/-! # Mutual exclusion at the operation gate

Any number of threads run gate methods against one packed word, each in its own
order as long as it keeps the calling convention.  Readers count themselves
before they know whether they may, so the reader field over-counts; the invariant
therefore separates the units a thread was admitted with from those it is about
to take back.
-/

namespace Neug.Transaction

open Function
open OperationGateWord AdmissionState Library

structure GateState (Tid : Type*) where
  word : GateWord
  threads : Tid → GateLocal

def GatePc.Idle : GatePc → Prop
  | .outside => True
  | .returned _ => True
  | _ => False

section System

variable {Tid : Type*} [DecidableEq Tid]

/-- One thread performs one atomic access, or, between two calls, leaves the gate
alone or makes a permitted call.  A reader that counts itself finds the counter
below its maximum, so that no increment carries into the inserter field. -/
inductive GateState.Step (s : GateState Tid) : GateState Tid → Prop
  | access (t : Tid) (chance : Chance) {word' : GateWord} {l' : GateLocal}
      (h : gateStep s.word (s.threads t) chance = some (word', l'))
      (hroom : (s.threads t).pc.Counting → readers s.word < kMaxReaderCount) :
      s.Step ⟨word', update s.threads t l'⟩
  | leave (t : Tid) (hidle : (s.threads t).pc.Idle) :
      s.Step ⟨s.word, update s.threads t ⟨(s.threads t).held, .outside⟩⟩
  | call (t : Tid) (c : GateCall) (hidle : (s.threads t).pc.Idle)
      (hperm : c.Permitted (s.threads t).held) :
      s.Step ⟨s.word, update s.threads t ⟨(s.threads t).held, c.start⟩⟩

def GateState.Initial (s : GateState Tid) : Prop :=
  s.word = empty kOpen ∧ ∀ t, s.threads t = ⟨.nothing, .outside⟩

end System

/-- A thread outside the gate, or inside a call it was permitted to make. -/
def Coherent (l : GateLocal) : Prop :=
  l.pc = .outside ∨ ∃ c h, c.Permitted h ∧ InCall c h l

theorem transientReaders_of_idle {pc : GatePc} (h : pc.Idle) : pc.transientReaders = 0 := by
  cases pc <;> first | rfl | exact h.elim

theorem transientReaders_start (c : GateCall) : c.start.transientReaders = 0 := by
  cases c <;> rfl

theorem settled_iff_shared {l : GateLocal} (h : l.pc.transientReaders = 0) :
    Settled l ↔ l.held = .shared := by
  constructor
  · rintro (hshared | hcancel)
    · exact hshared
    · rw [hcancel] at h
      contradiction
  · exact .inl

section Invariant

variable {Tid : Type*} [Fintype Tid]

/-- The counters of the word are the units the threads account for. -/
structure Counted (word : GateWord) (threads : Tid → GateLocal) : Prop where
  readers_eq : readers word = tally readerUnits threads
  inserters_eq : inserters word = tally inserterUnits threads

omit [Fintype Tid] in
/-- The phase of the word is the owner's, there is one owner at most, and what an
owner has drained stays away. -/
structure Excluded (word : GateWord) (threads : Tid → GateLocal) : Prop where
  owner_phase : ∀ t o, (threads t).held = .owner o → phase word = some o.phase
  owner_unique : ∀ t u o o', (threads t).held = .owner o → (threads u).held = .owner o' → t = u
  inserters_drained : ∀ t o, (threads t).held = .owner o → o.insertersDrained = true →
    ∀ u, (threads u).held ≠ .inserter
  readers_drained : ∀ t o, (threads t).held = .owner o → o.readersDrained = true →
    ∀ u, ¬Settled (threads u)

variable {threads : Tid → GateLocal} {word word' : GateWord} {l' : GateLocal} {s : GateState Tid}
  {t : Tid}

theorem Counted.no_inserter (hcount : Counted word threads) (hzero : inserters word = 0) (t : Tid) :
    (threads t).held ≠ .inserter := by
  intro hheld
  have hle := units_le_tally inserterUnits threads t
  rw [← hcount.inserters_eq, hzero] at hle
  simp [inserterUnits, hheld, Held.inserterUnits] at hle

theorem Counted.no_settled (hcount : Counted word threads) (hzero : readers word = 0) (t : Tid) :
    ¬Settled (threads t) := by
  intro hsettled
  have hle := units_le_tally readerUnits threads t
  rw [← hcount.readers_eq, hzero] at hle
  have hpos := readerUnits_pos_of_settled hsettled
  omega

omit [Fintype Tid] in
/-- In the open phase nobody owns the gate. -/
theorem Excluded.no_owner (hexcl : Excluded word threads) (hopen : phase word = some kOpen)
    (t : Tid) (o : Ownership) : (threads t).held ≠ .owner o := by
  intro hheld
  have hphase := hexcl.owner_phase t o hheld
  rw [hopen, Option.some.injEq] at hphase
  exact o.phase_ne_open hphase.symm

omit [Fintype Tid] in
theorem Excluded.others_own_nothing {o : Ownership} (hexcl : Excluded word threads)
    (hheld : (threads t).held = .owner o) (u : Tid) (hut : u ≠ t) (o' : Ownership) :
    (threads u).held ≠ .owner o' := by
  intro hu
  exact hut (hexcl.owner_unique u t o' o hu hheld)

variable [DecidableEq Tid]

/-- The counters stay right if they move by the units that a thread takes up and gives back. -/
theorem Counted.exchange (hcount : Counted word threads)
    (hread : readers word' + readerUnits (threads t) = readers word + readerUnits l')
    (hins : inserters word' + inserterUnits (threads t) = inserters word + inserterUnits l') :
    Counted word' (update threads t l') := by
  have hreaders := tally_update readerUnits threads t l'
  have hinserters := tally_update inserterUnits threads t l'
  rw [← hcount.readers_eq] at hreaders
  rw [← hcount.inserters_eq] at hinserters
  constructor <;> omega

attribute [local simp] readerUnits inserterUnits Held.readerUnits Held.inserterUnits

/-- A step keeps the counters right, provided a reader increment does not find
the counter full. -/
theorem Counted.effect (hcount : Counted word threads)
    (hroom : (threads t).pc.Counting → readers word < kMaxReaderCount)
    (heffect : GateEffect word (threads t) word' l') : Counted word' (update threads t l') := by
  have hle := units_le_tally readerUnits threads t
  have hle' := units_le_tally inserterUnits threads t
  rw [← hcount.readers_eq] at hle
  rw [← hcount.inserters_eq] at hle'
  cases heffect with
  | quiet hheld hpc hpc' => exact hcount.exchange (by simp [hheld, hpc, hpc']) (by simp [hheld])
  | count hcounting hphase hheld hpc hunits =>
    obtain ⟨-, hfi, hfr⟩ := add_reader_fields (hroom hcounting)
    rcases hunits with ⟨hheld', hpc'⟩ | ⟨hheld', hpc'⟩
    all_goals
      exact hcount.exchange (by simp [hfr, hheld, hheld', hpc, hpc']) (by simp [hfi, hheld, hheld'])
  | speculate timed exhausted hcounting hheld hpc hheld' hpc' =>
    obtain ⟨-, hfi, hfr⟩ := add_reader_fields (hroom hcounting)
    exact hcount.exchange (by simp [hfr, hheld, hheld', hpc, hpc']) (by simp [hfi, hheld, hheld'])
  | uncount hunits hheld hinserter hheld' hpc' =>
    obtain ⟨-, hfi, hfr⟩ := sub_reader_fields (show 0 < readers word by omega)
    have hnew : readerUnits l' = 0 := by simp [hheld', hpc']
    refine hcount.exchange (by omega) ?_
    simp [hfi, hheld']
  | admitInserter hphase hroom' hheld hheld' hpc hpc' =>
    obtain ⟨-, hfi, hfr⟩ := incrementInserter_fields hroom'
    exact hcount.exchange (by simp [hfr, hheld, hheld', hpc, hpc']) (by simp [hfi, hheld, hheld'])
  | dropInserter hheld hheld' hpc hpc' =>
    simp only [inserterUnits, hheld, Held.inserterUnits] at hle'
    obtain ⟨-, hfi, hfr⟩ := sub_inserter_fields hle'
    refine hcount.exchange (by simp [hfr, hheld, hheld', hpc, hpc']) ?_
    simp only [inserterUnits, hheld, hheld', Held.inserterUnits]
    omega
  | enter _ _ hheld hheld' _ _ hpc hpc' | advance _ _ hheld hheld' _ _ hpc hpc'
  | leave _ hheld hheld' hpc hpc' | drain _ _ hheld hheld' _ _ _ hpc hpc' =>
    exact hcount.exchange (by simp [hheld, hheld', hpc, hpc']) (by simp [hheld, hheld'])

omit [Fintype Tid] in
/-- A step that neither creates nor changes an owner, admits no inserter while
somebody owns the gate and settles no reader while readers are blocked. -/
theorem Excluded.of_not_owner (hexcl : Excluded word threads) (hphase : phase word' = phase word)
    (howner : ∀ o, l'.held ≠ .owner o)
    (hinserter : l'.held = .inserter → (threads t).held = .inserter ∨ phase word = some kOpen)
    (hsettled : Settled l' → Settled (threads t) ∨ phase word ≠ some kAllBlocked) :
    Excluded word' (update threads t l') := by
  have hother := (forall_update_iff (a := t) threads fun u l => ∀ o, l.held = .owner o →
    (threads u).held = .owner o).mpr ⟨fun o hu => absurd hu (howner o), fun _ _ _ hu => hu⟩
  refine ⟨?_, ?_, ?_, ?_⟩
  · intro u o hu
    rw [hphase]
    exact hexcl.owner_phase u o (hother u o hu)
  · intro u v o o' hu hv
    exact hexcl.owner_unique u v o o' (hother u o hu) (hother v o' hv)
  · intro u o hu hdrained
    have hu' := hother u o hu
    have hnone := hexcl.inserters_drained u o hu' hdrained
    refine (forall_update_iff threads fun _ l => l.held ≠ .inserter).mpr
      ⟨fun hv => ?_, fun v _ => hnone v⟩
    rcases hinserter hv with hwas | hopen
    · exact hnone t hwas
    · exact hexcl.no_owner hopen u o hu'
  · intro u o hu hdrained
    have hu' := hother u o hu
    have hnone := hexcl.readers_drained u o hu' hdrained
    refine (forall_update_iff threads fun _ l => ¬Settled l).mpr ⟨fun hv => ?_, fun v _ => hnone v⟩
    rcases hsettled hv with hwas | hblocked
    · exact hnone t hwas
    · apply hblocked
      rw [hexcl.owner_phase u o hu', o.phase_of_readersDrained hdrained]

omit [Fintype Tid] in
theorem Excluded.of_owner {o : Ownership} (hheld : l'.held = .owner o)
    (hphase : phase word' = some o.phase) (hpc' : l'.pc.transientReaders = 0)
    (halone : ∀ u, u ≠ t → ∀ o', (threads u).held ≠ .owner o')
    (hinserters : o.insertersDrained = true → ∀ u, u ≠ t → (threads u).held ≠ .inserter)
    (hreaders : o.readersDrained = true → ∀ u, u ≠ t → ¬Settled (threads u)) :
    Excluded word' (update threads t l') := by
  have hself := (forall_update_iff (a := t) threads fun u l => ∀ o', l.held = .owner o' →
    u = t ∧ o' = o).mpr ⟨fun o' hu => ⟨rfl, Held.owner.inj (hu.symm.trans hheld)⟩,
      fun u hut o' hu => absurd hu (halone u hut o')⟩
  refine ⟨?_, ?_, ?_, ?_⟩
  · intro u o' hu
    obtain ⟨-, rfl⟩ := hself u o' hu
    exact hphase
  · intro u v o₁ o₂ hu hv
    rw [(hself u o₁ hu).1, (hself v o₂ hv).1]
  · intro u o' hu hdrained
    obtain ⟨-, rfl⟩ := hself u o' hu
    exact (forall_update_iff threads fun _ l => l.held ≠ .inserter).mpr
      ⟨by simp [hheld], hinserters hdrained⟩
  · intro u o' hu hdrained
    obtain ⟨-, rfl⟩ := hself u o' hu
    exact (forall_update_iff threads fun _ l => ¬Settled l).mpr
      ⟨by simp [settled_iff_shared hpc', hheld], hreaders hdrained⟩

theorem Excluded.effect (hcount : Counted word threads) (hexcl : Excluded word threads)
    (hroom : (threads t).pc.Counting → readers word < kMaxReaderCount)
    (heffect : GateEffect word (threads t) word' l') : Excluded word' (update threads t l') := by
  cases heffect with
  | quiet hheld hpc hpc' =>
    by_cases howner : ∃ o, (threads t).held = .owner o
    · obtain ⟨o, ho⟩ := howner
      exact .of_owner (hheld.trans ho) (hexcl.owner_phase t o ho) hpc'
        (hexcl.others_own_nothing ho)
        (fun hd u _ => hexcl.inserters_drained t o ho hd u)
        (fun hd u _ => hexcl.readers_drained t o ho hd u)
    · refine hexcl.of_not_owner rfl ?_ ?_ ?_
      · intro o ho
        exact howner ⟨o, hheld ▸ ho⟩
      · intro h
        exact .inl (hheld ▸ h)
      · intro h
        rw [settled_iff_shared hpc'] at h
        exact .inl (.inl (hheld ▸ h))
  | count hcounting hphase hheld hpc hunits =>
    obtain ⟨hfp, -, -⟩ := add_reader_fields (hroom hcounting)
    refine hexcl.of_not_owner hfp ?_ ?_ (fun _ => .inr hphase)
    · rcases hunits with ⟨hheld', -⟩ | ⟨hheld', -⟩ <;> simp [hheld']
    · rcases hunits with ⟨hheld', -⟩ | ⟨hheld', -⟩ <;> simp [hheld']
  | speculate timed exhausted hcounting hheld hpc hheld' hpc' =>
    obtain ⟨hfp, -, -⟩ := add_reader_fields (hroom hcounting)
    exact hexcl.of_not_owner hfp (by simp [hheld']) (by simp [hheld'])
      (by simp [Settled, hheld', hpc'])
  | uncount hunits hheld hinserter hheld' hpc' =>
    have hle := units_le_tally readerUnits threads t
    have hsome : 0 < readers word := by
      rw [hcount.readers_eq]
      omega
    obtain ⟨hfp, -, -⟩ := sub_reader_fields hsome
    exact hexcl.of_not_owner hfp (by simp [hheld']) (by simp [hheld'])
      (by simp [settled_iff_shared hpc', hheld'])
  | admitInserter hphase hroom' hheld hheld' hpc hpc' =>
    obtain ⟨hfp, -, -⟩ := incrementInserter_fields hroom'
    exact hexcl.of_not_owner hfp (by simp [hheld']) (fun _ => .inr hphase)
      (by simp [settled_iff_shared hpc', hheld'])
  | dropInserter hheld hheld' hpc hpc' =>
    have hle := units_le_tally inserterUnits threads t
    have hsome : 0 < inserters word := by
      rw [hcount.inserters_eq]
      simp only [inserterUnits, hheld, Held.inserterUnits] at hle
      omega
    obtain ⟨hfp, -, -⟩ := sub_inserter_fields hsome
    exact hexcl.of_not_owner hfp (by simp [hheld']) (by simp [hheld'])
      (by simp [settled_iff_shared hpc', hheld'])
  | enter o hphase hheld hheld' hdi hdr hpc hpc' =>
    exact .of_owner hheld' (by simp) hpc' (fun u _ => hexcl.no_owner hphase u)
      (fun hd u _ => hcount.no_inserter (hdi hd) u)
      (fun hd u _ => hcount.no_settled (hdr hd) u)
  | advance o o' hheld hheld' hdi hdr hpc hpc' =>
    exact .of_owner hheld' (by simp) hpc' (hexcl.others_own_nothing hheld)
      (fun hd u _ => hexcl.inserters_drained t o hheld (hdi hd) u)
      (fun hd u _ => hexcl.readers_drained t o hheld (hdr hd) u)
  | leave o hheld hheld' hpc hpc' =>
    -- After the only owner has left, every remaining clause is about no one.
    have hnone := (forall_update_iff (a := t) threads fun _ l => ∀ o', l.held ≠ .owner o').mpr
      ⟨fun _ hu => Held.noConfusion (hheld'.symm.trans hu), hexcl.others_own_nothing hheld⟩
    exact ⟨fun u o' hu => absurd hu (hnone u o'), fun u _ o' _ hu => absurd hu (hnone u o'),
      fun u o' hu => absurd hu (hnone u o'), fun u o' hu => absurd hu (hnone u o')⟩
  | drain o o' hheld hheld' hphase hdi hdr hpc hpc' =>
    refine .of_owner hheld' ?_ hpc' (hexcl.others_own_nothing hheld) ?_ ?_
    · rw [hphase]
      exact hexcl.owner_phase t o hheld
    · intro hd u _
      rcases hdi hd with hwas | hzero
      · exact hexcl.inserters_drained t o hheld hwas u
      · exact hcount.no_inserter hzero u
    · intro hd u _
      rcases hdr hd with hwas | hzero
      · exact hexcl.readers_drained t o hheld hwas u
      · exact hcount.no_settled hzero u

/-- The call has thrown one of the exceptions that report a caller's mistake. -/
def GateLocal.Faulty (l : GateLocal) : Prop :=
  l.pc = .returned (.thrown .releaseSharedWithoutAdmission) ∨
    l.pc = .returned (.thrown .releaseInserterWithoutAdmission) ∨
    l.pc = .returned (.thrown .invalidTransition)

omit [DecidableEq Tid] in
/-- Under the calling convention the checks of `release_shared`,
`release_inserter` and `transition_phase` always pass. -/
theorem gateStep_not_faulty {c : GateCall} {h : Held} {chance : Chance}
    (hcount : Counted word threads) (hexcl : Excluded word threads) (hperm : c.Permitted h)
    (hcall : InCall c h (threads t)) (hstep : gateStep word (threads t) chance = some (word', l')) :
    ¬l'.Faulty := by
  have hread := hcount.no_settled (t := t)
  have hins := hcount.no_inserter (t := t)
  have hphase := hexcl.owner_phase t
  generalize hl : threads t = l at *
  obtain ⟨held, pc⟩ := l
  cases c <;> cases pc <;> first | exact hcall.elim | skip
  all_goals simp only [InCall, GateCall.Permitted] at hcall hperm
  all_goals simp only [gateStep, sharedTest, inserterTest, enterTest, transitionTest,
    reduceCtorEq] at hstep
  all_goals repeat' split at hstep
  all_goals simp only [Option.some.injEq, Prod.mk.injEq] at hstep
  all_goals obtain ⟨rfl, rfl⟩ := hstep
  case releaseShared.releaseSharedLoad.isTrue hzero =>
    exact absurd (.inl (hcall.trans hperm)) (hread hzero)
  case releaseInserter.releaseInserterLoad.isTrue hzero =>
    exact absurd (hcall.trans hperm) (hins hzero)
  case transitionPhase.transitionLoad.isFalse hne =>
    obtain ⟨⟨o, rfl, rfl⟩, -⟩ := hperm
    obtain ⟨rfl, -, rfl⟩ := hcall
    exact absurd (hphase o rfl) hne
  case transitionPhase.transitionCas.isFalse.isFalse hne =>
    obtain ⟨⟨o, rfl, rfl⟩, -⟩ := hperm
    obtain ⟨rfl, -, rfl⟩ := hcall
    exact absurd (hphase o rfl) hne
  all_goals simp_all [GateLocal.Faulty]

structure GateState.Inv (s : GateState Tid) : Prop where
  coherent : ∀ t, Coherent (s.threads t)
  faultless : ∀ t, ¬(s.threads t).Faulty
  counted : Counted s.word s.threads
  excluded : Excluded s.word s.threads

omit [DecidableEq Tid] in
theorem GateState.Inv.of_initial (h : s.Initial) : s.Inv := by
  obtain ⟨hword, hthreads⟩ := h
  refine ⟨?_, ?_, ⟨?_, ?_⟩, ⟨?_, ?_, ?_, ?_⟩⟩
  · intro t
    exact .inl (by rw [hthreads t])
  · intro t
    simp [hthreads, GateLocal.Faulty]
  · rw [hword, readers_empty, eq_comm, tally_eq_zero_iff]
    intro t
    rw [hthreads t]
    rfl
  · rw [hword, inserters_empty, eq_comm, tally_eq_zero_iff]
    intro t
    rw [hthreads t]
    rfl
  all_goals
    intro t
    simp [hthreads]

/-- Between calls a thread may move to another program point without any effect. -/
theorem GateState.Inv.reposition (hinv : s.Inv) {pc : GatePc} (hidle : (s.threads t).pc.Idle)
    (hpc : pc.transientReaders = 0) (hcoherent : Coherent ⟨(s.threads t).held, pc⟩)
    (hnotReturned : ∀ r, pc ≠ .returned r) :
    GateState.Inv ⟨s.word, update s.threads t ⟨(s.threads t).held, pc⟩⟩ := by
  have heffect : GateEffect s.word (s.threads t) s.word ⟨(s.threads t).held, pc⟩ :=
    .quiet rfl (transientReaders_of_idle hidle) hpc
  have hroom : (s.threads t).pc.Counting → readers s.word < kMaxReaderCount := by
    intro hcounting
    cases hpc' : (s.threads t).pc <;> rw [hpc'] at hidle hcounting <;>
      first | exact hidle.elim | exact hcounting.elim
  refine ⟨?_, ?_, hinv.counted.effect hroom heffect,
    hinv.excluded.effect hinv.counted hroom heffect⟩
  · exact (forall_update_iff s.threads fun _ l => Coherent l).mpr
      ⟨hcoherent, fun u _ => hinv.coherent u⟩
  · refine (forall_update_iff s.threads fun _ l => ¬l.Faulty).mpr
      ⟨?_, fun u _ => hinv.faultless u⟩
    rintro (h | h | h) <;> exact hnotReturned _ h

theorem GateState.Inv.step {s' : GateState Tid} (hinv : s.Inv) (hstep : s.Step s') : s'.Inv := by
  cases hstep with
  | leave t hidle => exact hinv.reposition hidle rfl (.inl rfl) (by simp)
  | call t c hidle hperm =>
    refine hinv.reposition hidle (transientReaders_start c)
      (.inr ⟨c, _, hperm, inCall_start c _⟩) ?_
    cases c <;> simp [GateCall.start]
  | access t chance h hroom =>
    rcases hinv.coherent t with hout | ⟨c, held, hperm, hcall⟩
    · rw [gateStep, hout] at h
      cases h
    · have heffect := gateStep_effect hperm hcall h
      refine ⟨?_, ?_, hinv.counted.effect hroom heffect,
        hinv.excluded.effect hinv.counted hroom heffect⟩
      · exact (forall_update_iff s.threads fun _ l => Coherent l).mpr
          ⟨.inr ⟨c, held, hperm, hcall.step hperm h⟩, fun u _ => hinv.coherent u⟩
      · exact (forall_update_iff s.threads fun _ l => ¬l.Faulty).mpr
          ⟨gateStep_not_faulty hinv.counted hinv.excluded hperm hcall h,
            fun u _ => hinv.faultless u⟩

end Invariant

end Neug.Transaction
