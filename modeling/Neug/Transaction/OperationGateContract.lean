import Neug.Transaction.OperationGate

/-! # What a gate method can do

Two descriptions of `gateStep`, from which every later fact about the gate is
derived.  `InCall` is the contract of a method towards its caller: it ties the
program point, and in particular the value returned, to what the thread holds.
`GateEffect` is the contract towards the other threads: it lists the ways in
which one step may change the word and the units the thread accounts for.
-/

namespace Neug.Transaction

open OperationGateWord AdmissionState

/-- Reader units counted in the word for what a thread holds. -/
def Held.readerUnits : Held → Nat
  | .shared => 1
  | _ => 0

def Held.inserterUnits : Held → Nat
  | .inserter => 1
  | _ => 0

/-- Reader units counted in the word for a thread that is about to take its
increment back. -/
def GatePc.transientReaders : GatePc → Nat
  | .sharedRollback _ _ => 1
  | .sharedCancel => 1
  | _ => 0

def readerUnits (l : GateLocal) : Nat :=
  l.held.readerUnits + l.pc.transientReaders

def inserterUnits (l : GateLocal) : Nat :=
  l.held.inserterUnits

/-- The thread was counted as a reader while readers were not blocked: it has
been admitted, or it passed the phase check and gives up on its deadline. -/
def Settled (l : GateLocal) : Prop :=
  l.held = .shared ∨ l.pc = .sharedCancel

variable {desired : AdmissionState} {l : GateLocal} {word : GateWord}

theorem readerUnits_pos_of_settled (h : Settled l) : 0 < readerUnits l := by
  rcases h with h | h
  · simp only [readerUnits, h, Held.readerUnits]
    omega
  · simp [readerUnits, h, GatePc.transientReaders]

theorem Held.inserterUnits_eq_zero {held : Held} (h : held ≠ .inserter) :
    held.inserterUnits = 0 := by
  cases held with
  | inserter => contradiction
  | nothing | shared | owner o => rfl

theorem Held.moved_entered_open (h : desired ≠ kOpen) :
    (Held.entered desired).moved kOpen = .nothing := by
  cases desired with
  | kOpen => contradiction
  | kInsertsBlocked | kAllBlocked => rfl

theorem Held.entered_eq_owner (h : desired ≠ kOpen) :
    ∃ o, Held.entered desired = .owner o ∧ o.phase = desired ∧
      o.insertersDrained = false ∧ o.readersDrained = false := by
  cases desired with
  | kOpen => contradiction
  | kInsertsBlocked => exact ⟨.insertsBlocked false, rfl, rfl, rfl, rfl⟩
  | kAllBlocked => exact ⟨.allBlocked false false, rfl, rfl, rfl, rfl⟩

@[simp] theorem transientReaders_sharedRollback (timed exhausted : Bool) :
    (GatePc.sharedRollback timed exhausted).transientReaders = 1 := rfl

@[simp] theorem transientReaders_sharedCancel : GatePc.sharedCancel.transientReaders = 1 := rfl

/-! The loop heads lead to program points at which no reader unit is pending. -/

@[simp] theorem transientReaders_sharedTest (timed : Bool) (observed : GateWord) :
    (sharedTest timed observed).transientReaders = 0 := by
  unfold sharedTest
  split <;> rfl

@[simp] theorem transientReaders_inserterTest (observed : GateWord) :
    (inserterTest observed).transientReaders = 0 := by
  unfold inserterTest
  split
  · rfl
  · split <;> rfl

@[simp] theorem transientReaders_enterTest (desired : AdmissionState) (timed : Bool)
    (observed : GateWord) : (enterTest desired timed observed).transientReaders = 0 := by
  unfold enterTest
  split <;> rfl

@[simp] theorem transientReaders_transitionTest (expected desired : AdmissionState)
    (observed : GateWord) : (transitionTest expected desired observed).transientReaders = 0 := by
  unfold transitionTest
  split <;> rfl

/-- `InCall c h l`: a thread in state `l` is executing, or has just returned
from, the call `c`, which it made while it held `h`. -/
def InCall (c : GateCall) (h : Held) (l : GateLocal) : Prop :=
  match c with
  | .acquireShared timed =>
    match l.pc with
    | .sharedLoad b => b = timed ∧ l.held = h
    | .sharedAdd b => b = timed ∧ l.held = h
    | .sharedRollback b _ => b = timed ∧ l.held = h
    | .sharedCancel => timed = true ∧ l.held = h
    | .returned result =>
      match result with
      | .admitted true => l.held = .shared
      | .admitted false => timed = true ∧ l.held = h
      | .thrown e => e = .readerCounterExhausted ∧ l.held = h
      | _ => False
    | _ => False
  | .releaseShared =>
    match l.pc with
    | .releaseSharedLoad => l.held = h
    | .releaseSharedSub => l.held = h
    | .returned result =>
      match result with
      | .done => l.held = .nothing
      | .thrown e => e = .releaseSharedWithoutAdmission ∧ l.held = h
      | _ => False
    | _ => False
  | .acquireInserter =>
    match l.pc with
    | .inserterLoad => l.held = h
    | .inserterCas observed =>
      l.held = h ∧ phase observed = some kOpen ∧ inserters observed ≠ kMaxInserterCount
    | .returned result =>
      match result with
      | .done => l.held = .inserter
      | .thrown e => e = .inserterCounterExhausted ∧ l.held = h
      | _ => False
    | _ => False
  | .releaseInserter =>
    match l.pc with
    | .releaseInserterLoad => l.held = h
    | .releaseInserterSub => l.held = h
    | .returned result =>
      match result with
      | .done => l.held = .nothing
      | .thrown e => e = .releaseInserterWithoutAdmission ∧ l.held = h
      | _ => False
    | _ => False
  | .enterPhase desired timed =>
    match l.pc with
    | .enterLoad d b => d = desired ∧ b = timed ∧ l.held = h
    | .enterCas d b observed =>
      d = desired ∧ b = timed ∧ l.held = h ∧ phase observed = some kOpen
    | .reopenLoad r => timed = true ∧ r = .admitted false ∧ l.held = .entered desired
    | .reopenCas r _ => timed = true ∧ r = .admitted false ∧ l.held = .entered desired
    | .returned result =>
      match result with
      | .admitted true => l.held = .entered desired
      | .admitted false => timed = true ∧ l.held = .nothing
      | _ => False
    | _ => False
  | .tryEnterPhase desired =>
    match l.pc with
    | .tryEnterLoad d => d = desired ∧ l.held = h
    | .tryEnterCas d observed => d = desired ∧ l.held = h ∧ phase observed = some kOpen
    | .returned result =>
      match result with
      | .admitted true => l.held = .entered desired
      | .admitted false => l.held = h
      | _ => False
    | _ => False
  | .transitionPhase expected desired =>
    match l.pc with
    | .transitionLoad e d => e = expected ∧ d = desired ∧ l.held = h
    | .transitionCas e d _ => e = expected ∧ d = desired ∧ l.held = h
    | .returned result =>
      match result with
      | .done => l.held = h.moved desired
      | .thrown e => e = .invalidTransition ∧ l.held = h
      | _ => False
    | _ => False
  | .reopen =>
    match l.pc with
    | .reopenLoad r => r = .done ∧ l.held = h
    | .reopenCas r _ => r = .done ∧ l.held = h
    | .returned result =>
      match result with
      | .done => l.held = h.moved kOpen
      | _ => False
    | _ => False
  | .waitReadersDrained timed =>
    match l.pc with
    | .waitReadersLoad b => b = timed ∧ l.held = h
    | .returned result =>
      match result with
      | .admitted true => l.held = h.noteReadersDrained
      | .admitted false => timed = true ∧ l.held = h
      | _ => False
    | _ => False
  | .waitInsertersDrained timed =>
    match l.pc with
    | .waitInsertersLoad b => b = timed ∧ l.held = h
    | .returned result =>
      match result with
      | .admitted true => l.held = h.noteInsertersDrained
      | .admitted false => timed = true ∧ l.held = h
      | _ => False
    | _ => False
  | .peekInserters =>
    match l.pc with
    | .peekInsertersLoad => l.held = h
    | .returned result =>
      match result with
      | .admitted true => l.held = h.noteInsertersDrained
      | .admitted false => l.held = h
      | _ => False
    | _ => False
  | .trySealOpenState =>
    match l.pc with
    | .sealCas => l.held = h
    | .returned result =>
      match result with
      | .admitted true => l.held = .owner (.allBlocked true true)
      | .admitted false => l.held = h
      | _ => False
    | _ => False
  | .loadAcquire =>
    match l.pc with
    | .wordLoad => l.held = h
    | .returned result =>
      match result with
      | .word _ => l.held = h
      | _ => False
    | _ => False

theorem inCall_start (c : GateCall) (h : Held) : InCall c h ⟨h, c.start⟩ := by
  cases c <;> simp [InCall, GateCall.start]

/-- The contract of a method holds at each of its program points. -/
theorem InCall.step {c : GateCall} {h : Held} {l' : GateLocal} {word' : GateWord}
    {chance : Chance} (hperm : c.Permitted h) (hcall : InCall c h l)
    (hstep : gateStep word l chance = some (word', l')) : InCall c h l' := by
  obtain ⟨held, pc⟩ := l
  -- Of the pairs of a method and a program point only those of the method remain.
  cases c <;> cases pc <;> first | exact hcall.elim | skip
  all_goals simp only [InCall, GateCall.Permitted] at hcall hperm
  all_goals simp only [gateStep, sharedTest, inserterTest, enterTest, transitionTest,
    reduceCtorEq] at hstep
  all_goals repeat' split at hstep
  all_goals simp only [Option.some.injEq, Prod.mk.injEq] at hstep
  all_goals obtain ⟨rfl, rfl⟩ := hstep
  case enterPhase.reopenCas.isTrue =>
    obtain ⟨htimed, rfl, rfl⟩ := hcall
    exact ⟨htimed, Held.moved_entered_open hperm.2⟩
  all_goals simp_all [InCall]

/-- The thread is about to add its unit to the reader counter. -/
def GatePc.Counting : GatePc → Prop
  | .sharedAdd _ => True
  | _ => False

/-- The ways in which one step of a thread in state `l` may change the word and
the thread's holdings.  Unless stated otherwise the thread has no reader unit
pending before or after. -/
inductive GateEffect (word : GateWord) (l : GateLocal) : GateWord → GateLocal → Prop
  /-- Nothing that another thread could notice. -/
  | quiet {l'} (hheld : l'.held = l.held) (hpc : l.pc.transientReaders = 0)
      (hpc' : l'.pc.transientReaders = 0) : GateEffect word l word l'
  /-- A reader is counted while readers are not blocked. -/
  | count {l'} (hcounting : l.pc.Counting) (hphase : phase word ≠ some kAllBlocked)
      (hheld : l.held = .nothing) (hpc : l.pc.transientReaders = 0)
      (hunits : (l'.held = .shared ∧ l'.pc.transientReaders = 0) ∨
        (l'.held = .nothing ∧ l'.pc = .sharedCancel)) :
      GateEffect word l (word + kReaderUnit) l'
  /-- A reader is counted although readers are blocked, or the counter was full;
  it will take its unit back. -/
  | speculate {l'} (timed exhausted : Bool) (hcounting : l.pc.Counting) (hheld : l.held = .nothing)
      (hpc : l.pc.transientReaders = 0) (hheld' : l'.held = .nothing)
      (hpc' : l'.pc = .sharedRollback timed exhausted) :
      GateEffect word l (word + kReaderUnit) l'
  /-- A reader unit is given back. -/
  | uncount {l'} (hunits : readerUnits l = 1) (hheld : ∀ o, l.held ≠ .owner o)
      (hinserter : l.held ≠ .inserter) (hheld' : l'.held = .nothing)
      (hpc' : l'.pc.transientReaders = 0) :
      GateEffect word l (word - kReaderUnit) l'
  | admitInserter {l'} (hphase : phase word = some kOpen)
      (hroom : inserters word ≠ kMaxInserterCount) (hheld : l.held = .nothing)
      (hheld' : l'.held = .inserter) (hpc : l.pc.transientReaders = 0)
      (hpc' : l'.pc.transientReaders = 0) :
      GateEffect word l (incrementInserter word) l'
  | dropInserter {l'} (hheld : l.held = .inserter) (hheld' : l'.held = .nothing)
      (hpc : l.pc.transientReaders = 0) (hpc' : l'.pc.transientReaders = 0) :
      GateEffect word l (word - kInserterUnit) l'
  /-- A blocking phase is entered; a thread that enters by sealing has seen both
  counters at zero. -/
  | enter {l'} (o : Ownership) (hphase : phase word = some kOpen)
      (hheld : l.held = .nothing) (hheld' : l'.held = .owner o)
      (hinserters : o.insertersDrained = true → inserters word = 0)
      (hreaders : o.readersDrained = true → readers word = 0)
      (hpc : l.pc.transientReaders = 0) (hpc' : l'.pc.transientReaders = 0) :
      GateEffect word l (withPhase word o.phase) l'
  /-- The owner moves on to another blocking phase. -/
  | advance {l'} (o o' : Ownership) (hheld : l.held = .owner o) (hheld' : l'.held = .owner o')
      (hinserters : o'.insertersDrained = true → o.insertersDrained = true)
      (hreaders : o'.readersDrained = true → o.readersDrained = true)
      (hpc : l.pc.transientReaders = 0) (hpc' : l'.pc.transientReaders = 0) :
      GateEffect word l (withPhase word o'.phase) l'
  /-- The owner reopens the gate. -/
  | leave {l'} (o : Ownership) (hheld : l.held = .owner o) (hheld' : l'.held = .nothing)
      (hpc : l.pc.transientReaders = 0) (hpc' : l'.pc.transientReaders = 0) :
      GateEffect word l (withPhase word kOpen) l'
  /-- The owner observes a counter at zero. -/
  | drain {l'} (o o' : Ownership) (hheld : l.held = .owner o) (hheld' : l'.held = .owner o')
      (hphase : o'.phase = o.phase)
      (hinserters : o'.insertersDrained = true →
        o.insertersDrained = true ∨ inserters word = 0)
      (hreaders : o'.readersDrained = true → o.readersDrained = true ∨ readers word = 0)
      (hpc : l.pc.transientReaders = 0) (hpc' : l'.pc.transientReaders = 0) :
      GateEffect word l word l'

/-- What the owner holds after an exchange to `desired`, when the convention
allows that exchange. -/
theorem Held.moved_owner (o : Ownership) (h : desired ≠ kInsertsBlocked) :
    (desired = kOpen ∧ (Held.owner o).moved desired = .nothing) ∨
      ∃ o', (Held.owner o).moved desired = .owner o' ∧ o'.phase = desired ∧
        o'.insertersDrained = o.insertersDrained ∧ o'.readersDrained = o.readersDrained := by
  cases desired with
  | kOpen => exact .inl ⟨rfl, rfl⟩
  | kInsertsBlocked => contradiction
  | kAllBlocked => exact .inr ⟨.allBlocked o.insertersDrained o.readersDrained, rfl, rfl, rfl, rfl⟩

theorem Held.entered_open_effect {pc : GatePc} (hdesired : desired ≠ kOpen)
    (hheld : l.held = .nothing) (hphase : phase word = some kOpen)
    (hpc : l.pc.transientReaders = 0) (hpc' : pc.transientReaders = 0) :
    GateEffect word l (withPhase word desired) ⟨.entered desired, pc⟩ := by
  obtain ⟨o, howner, hdes, hins, hread⟩ := Held.entered_eq_owner hdesired
  rw [← hdes]
  refine .enter o hphase hheld (by rw [hdes]; exact howner) ?_ ?_ hpc hpc'
  · intro h
    rw [hins] at h
    contradiction
  · intro h
    rw [hread] at h
    contradiction

theorem Held.insertersDrained_effect {pc : GatePc} {o : Ownership} (hheld : l.held = .owner o)
    (hzero : inserters word = 0) (hpc : l.pc.transientReaders = 0)
    (hpc' : pc.transientReaders = 0) :
    GateEffect word l word ⟨l.held.noteInsertersDrained, pc⟩ := by
  refine .drain o o.noteInsertersDrained hheld ?_ ?_ (fun _ => .inr hzero) ?_ hpc hpc'
  · rw [hheld]
    rfl
  · cases o <;> rfl
  · cases o <;> exact .inl

/-- Every step of a permitted call has one of the listed effects. -/
theorem gateStep_effect {c : GateCall} {h : Held} {l' : GateLocal} {word' : GateWord}
    {chance : Chance} (hperm : c.Permitted h) (hcall : InCall c h l)
    (hstep : gateStep word l chance = some (word', l')) : GateEffect word l word' l' := by
  obtain ⟨held, pc⟩ := l
  cases c <;> cases pc <;> first | exact hcall.elim | skip
  all_goals simp only [InCall, GateCall.Permitted] at hcall hperm
  all_goals simp only [gateStep, reduceCtorEq] at hstep
  all_goals repeat' split at hstep
  all_goals simp only [Option.some.injEq, Prod.mk.injEq] at hstep
  all_goals obtain ⟨rfl, rfl⟩ := hstep
  case acquireShared.sharedAdd.isTrue.isTrue hadmit _ =>
    obtain ⟨-, rfl⟩ := hcall
    exact .count trivial hadmit.1 hperm rfl (.inr ⟨hperm, rfl⟩)
  case acquireShared.sharedAdd.isTrue.isFalse hadmit _ =>
    obtain ⟨-, rfl⟩ := hcall
    exact .count trivial hadmit.1 hperm rfl (.inl ⟨rfl, rfl⟩)
  case acquireShared.sharedAdd.isFalse =>
    obtain ⟨-, rfl⟩ := hcall
    exact .speculate _ _ trivial hperm rfl hperm rfl
  case acquireShared.sharedRollback.isTrue | acquireShared.sharedRollback.isFalse |
      acquireShared.sharedCancel =>
    obtain ⟨-, rfl⟩ := hcall
    subst hperm
    exact .uncount rfl (by simp) (by simp) rfl rfl
  case releaseShared.releaseSharedSub =>
    subst hcall hperm
    exact .uncount rfl (by simp) (by simp) rfl rfl
  case acquireInserter.inserterCas.isTrue hcas =>
    obtain ⟨rfl, hopen, hroom⟩ := hcall
    obtain ⟨rfl, -⟩ := hcas
    exact .admitInserter hopen hroom hperm rfl rfl rfl
  case releaseInserter.releaseInserterSub =>
    exact .dropInserter (hcall.trans hperm) rfl rfl rfl
  case enterPhase.enterCas.isTrue.isTrue hcas _ | enterPhase.enterCas.isTrue.isFalse hcas _ =>
    obtain ⟨rfl, -, rfl, hopen⟩ := hcall
    obtain ⟨rfl, -⟩ := hcas
    exact Held.entered_open_effect hperm.2 hperm.1 hopen rfl rfl
  case tryEnterPhase.tryEnterCas.isTrue hcas =>
    obtain ⟨rfl, rfl, hopen⟩ := hcall
    subst hcas
    exact Held.entered_open_effect hperm.2 hperm.1 hopen rfl rfl
  case enterPhase.reopenCas.isTrue hcas =>
    obtain ⟨-, rfl, rfl⟩ := hcall
    obtain ⟨rfl, -⟩ := hcas
    obtain ⟨o, howner, -⟩ := Held.entered_eq_owner hperm.2
    exact .leave o howner (Held.moved_entered_open hperm.2) rfl rfl
  case transitionPhase.transitionCas.isTrue hcas =>
    obtain ⟨-, rfl, rfl⟩ := hcall
    obtain ⟨rfl, -⟩ := hcas
    obtain ⟨⟨o, rfl, -⟩, hforward⟩ := hperm
    rcases Held.moved_owner o hforward with ⟨rfl, hmoved⟩ | ⟨o', hmoved, rfl, hins, hread⟩
    · exact .leave o rfl hmoved rfl rfl
    · exact .advance o o' rfl hmoved (hins ▸ id) (hread ▸ id) rfl rfl
  case reopen.reopenCas.isTrue hcas =>
    obtain ⟨-, rfl⟩ := hcall
    obtain ⟨rfl, -⟩ := hcas
    obtain ⟨o, rfl⟩ := hperm
    exact .leave o rfl rfl rfl rfl
  case waitReadersDrained.waitReadersLoad.isFalse.isTrue hzero =>
    obtain ⟨-, rfl⟩ := hcall
    obtain ⟨o, rfl, hphase⟩ := hperm
    refine .drain o o.noteReadersDrained rfl rfl ?_ ?_ (fun _ => .inr hzero) rfl rfl
    · cases o <;> rfl
    · cases o <;> exact .inl
  case waitInsertersDrained.waitInsertersLoad.isFalse.isTrue hzero =>
    obtain ⟨-, rfl⟩ := hcall
    obtain ⟨o, rfl⟩ := hperm
    exact Held.insertersDrained_effect rfl hzero rfl rfl
  case peekInserters.peekInsertersLoad.isTrue hzero =>
    subst hcall
    obtain ⟨o, rfl⟩ := hperm
    exact Held.insertersDrained_effect rfl hzero rfl rfl
  case trySealOpenState.sealCas.isTrue hempty =>
    subst hcall hempty
    have hword : empty kAllBlocked = withPhase (empty kOpen) kAllBlocked := by decide
    exact .enter (.allBlocked true true) (by simp) hperm rfl (by simp) (by simp) rfl rfl
  all_goals refine .quiet rfl rfl ?_
  all_goals first | rfl | simp only [transientReaders_sharedTest, transientReaders_inserterTest,
    transientReaders_enterTest, transientReaders_transitionTest]

end Neug.Transaction
