import Neug.Transaction.OperationGateWord

/-! # The operation gate

Every method of the gate is a short program of atomic accesses to the packed
word.  A thread inside such a method is described by a program counter, which
holds the method's local variables; one step performs one atomic access together
with the thread-local tests that follow it.  Two things are left to the
scheduler: whether the deadline of a timed method has expired when it looks at
the clock, and whether a weak compare-exchange fails spuriously.

Beside the program counter a thread carries what it holds of the gate: nothing,
one reader unit, one inserter unit, or a blocking phase it has entered.
-/

namespace Neug.Transaction

open OperationGateWord AdmissionState

inductive GateError where
  | readerCounterExhausted
  | inserterCounterExhausted
  | releaseSharedWithoutAdmission
  | releaseInserterWithoutAdmission
  | invalidTransition
  deriving DecidableEq, Repr

inductive GateResult where
  | done
  | admitted (granted : Bool)
  | word (observed : GateWord)
  | thrown (error : GateError)
  deriving DecidableEq, Repr

/-- A blocking phase owned by a thread, with the drains it has completed since
it entered.  Readers can only be drained once they are blocked, so the reader
flag exists in the all-blocked phase alone. -/
inductive Ownership where
  | insertsBlocked (insertersDrained : Bool)
  | allBlocked (insertersDrained readersDrained : Bool)
  deriving DecidableEq, Repr

namespace Ownership

def phase : Ownership → AdmissionState
  | insertsBlocked _ => kInsertsBlocked
  | allBlocked _ _ => kAllBlocked

def insertersDrained : Ownership → Bool
  | insertsBlocked i => i
  | allBlocked i _ => i

def readersDrained : Ownership → Bool
  | insertsBlocked _ => false
  | allBlocked _ r => r

def noteInsertersDrained : Ownership → Ownership
  | insertsBlocked _ => insertsBlocked true
  | allBlocked _ r => allBlocked true r

def noteReadersDrained : Ownership → Ownership
  | insertsBlocked i => insertsBlocked i
  | allBlocked i _ => allBlocked i true

theorem phase_ne_open (o : Ownership) : o.phase ≠ kOpen := by
  cases o <;> simp [phase]

theorem phase_of_readersDrained {o : Ownership} (h : o.readersDrained = true) :
    o.phase = kAllBlocked := by
  cases o with
  | insertsBlocked i => simp [readersDrained] at h
  | allBlocked i r => rfl

end Ownership

inductive Held where
  | nothing
  | shared
  | inserter
  | owner (o : Ownership)
  deriving DecidableEq, Repr

namespace Held

/-- Ownership gained by winning the exchange out of the open phase. -/
def entered : AdmissionState → Held
  | kOpen => nothing
  | kInsertsBlocked => owner (.insertsBlocked false)
  | kAllBlocked => owner (.allBlocked false false)

def moved (held : Held) (desired : AdmissionState) : Held :=
  match held, desired with
  | owner _, kOpen => nothing
  | owner o, kInsertsBlocked => owner (.insertsBlocked o.insertersDrained)
  | owner o, kAllBlocked => owner (.allBlocked o.insertersDrained o.readersDrained)
  | held, _ => held

def noteInsertersDrained : Held → Held
  | owner o => owner o.noteInsertersDrained
  | held => held

def noteReadersDrained : Held → Held
  | owner o => owner o.noteReadersDrained
  | held => held

end Held

/-- Where a thread stands inside the gate.  `outside` and `returned` are between
two calls; every other constructor names the atomic access performed next. -/
inductive GatePc where
  | outside
  | returned (result : GateResult)
  | sharedLoad (timed : Bool)
  | sharedAdd (timed : Bool)
  | sharedRollback (timed exhausted : Bool)
  | sharedCancel
  | releaseSharedLoad
  | releaseSharedSub
  | inserterLoad
  | inserterCas (observed : GateWord)
  | releaseInserterLoad
  | releaseInserterSub
  | enterLoad (desired : AdmissionState) (timed : Bool)
  | enterCas (desired : AdmissionState) (timed : Bool) (observed : GateWord)
  | tryEnterLoad (desired : AdmissionState)
  | tryEnterCas (desired : AdmissionState) (observed : GateWord)
  | transitionLoad (expected desired : AdmissionState)
  | transitionCas (expected desired : AdmissionState) (observed : GateWord)
  | reopenLoad (result : GateResult)
  | reopenCas (result : GateResult) (observed : GateWord)
  | waitReadersLoad (timed : Bool)
  | waitInsertersLoad (timed : Bool)
  | peekInsertersLoad
  | sealCas
  | wordLoad
  deriving DecidableEq, Repr

structure GateLocal where
  held : Held
  pc : GatePc
  deriving DecidableEq, Repr

structure Chance where
  expired : Bool
  spurious : Bool
  deriving DecidableEq, Repr

/-- Loop head of `acquire_shared`, after `observed` was loaded. -/
def sharedTest (timed : Bool) (observed : GateWord) : GatePc :=
  if phase observed = some kAllBlocked then .sharedLoad timed else .sharedAdd timed

def inserterTest (observed : GateWord) : GatePc :=
  if phase observed ≠ some kOpen then .inserterLoad
  else if inserters observed = kMaxInserterCount then
    .returned (.thrown .inserterCounterExhausted)
  else .inserterCas observed

def enterTest (desired : AdmissionState) (timed : Bool) (observed : GateWord) : GatePc :=
  if phase observed = some kOpen then .enterCas desired timed observed
  else .enterLoad desired timed

def transitionTest (expected desired : AdmissionState) (observed : GateWord) : GatePc :=
  if phase observed = some expected then .transitionCas expected desired observed
  else .returned (.thrown .invalidTransition)

/-- One atomic access of a thread that is inside a gate method. -/
def gateStep (word : GateWord) (l : GateLocal) (chance : Chance) :
    Option (GateWord × GateLocal) :=
  match l.pc with
  | .outside => none
  | .returned _ => none
  | .sharedLoad timed =>
    if timed && chance.expired then
      some (word, { l with pc := .returned (.admitted false) })
    else some (word, { l with pc := sharedTest timed word })
  | .sharedAdd timed =>
    let exhausted : Bool := kMaxReaderCount ≤ readers word
    if phase word ≠ some kAllBlocked ∧ ¬exhausted then
      -- The timed variant confirms the deadline once more after being counted.
      if timed && chance.expired then
        some (word + kReaderUnit, { l with pc := .sharedCancel })
      else
        some (word + kReaderUnit, { held := .shared, pc := .returned (.admitted true) })
    else some (word + kReaderUnit, { l with pc := .sharedRollback timed exhausted })
  | .sharedCancel =>
    some (word - kReaderUnit, { l with pc := .returned (.admitted false) })
  | .sharedRollback timed exhausted =>
    some (word - kReaderUnit,
      { l with pc := if exhausted then .returned (.thrown .readerCounterExhausted)
                     else .sharedLoad timed })
  | .releaseSharedLoad =>
    if readers word = 0 then
      some (word, { l with pc := .returned (.thrown .releaseSharedWithoutAdmission) })
    else some (word, { l with pc := .releaseSharedSub })
  | .releaseSharedSub =>
    some (word - kReaderUnit, { held := .nothing, pc := .returned .done })
  | .inserterLoad => some (word, { l with pc := inserterTest word })
  | .inserterCas observed =>
    if word = observed ∧ ¬chance.spurious then
      some (incrementInserter observed, { held := .inserter, pc := .returned .done })
    else some (word, { l with pc := inserterTest word })
  | .releaseInserterLoad =>
    if inserters word = 0 then
      some (word, { l with pc := .returned (.thrown .releaseInserterWithoutAdmission) })
    else some (word, { l with pc := .releaseInserterSub })
  | .releaseInserterSub =>
    some (word - kInserterUnit, { held := .nothing, pc := .returned .done })
  | .enterLoad desired timed =>
    if timed && chance.expired then
      some (word, { l with pc := .returned (.admitted false) })
    else some (word, { l with pc := enterTest desired timed word })
  | .enterCas desired timed observed =>
    if word = observed ∧ ¬chance.spurious then
      some (withPhase observed desired,
        { held := .entered desired,
          pc := if timed && chance.expired then .reopenLoad (.admitted false)
                else .returned (.admitted true) })
    else
      some (word, { l with pc := if timed then .enterLoad desired timed
                                 else enterTest desired timed word })
  | .tryEnterLoad desired =>
    if phase word = some kOpen then some (word, { l with pc := .tryEnterCas desired word })
    else some (word, { l with pc := .returned (.admitted false) })
  | .tryEnterCas desired observed =>
    if word = observed then
      some (withPhase observed desired,
        { held := .entered desired, pc := .returned (.admitted true) })
    else some (word, { l with pc := .returned (.admitted false) })
  | .transitionLoad expected desired =>
    some (word, { l with pc := transitionTest expected desired word })
  | .transitionCas expected desired observed =>
    if word = observed ∧ ¬chance.spurious then
      some (withPhase observed desired,
        { held := l.held.moved desired, pc := .returned .done })
    else some (word, { l with pc := transitionTest expected desired word })
  | .reopenLoad result => some (word, { l with pc := .reopenCas result word })
  | .reopenCas result observed =>
    if word = observed ∧ ¬chance.spurious then
      some (withPhase observed kOpen, { held := l.held.moved kOpen, pc := .returned result })
    else some (word, { l with pc := .reopenCas result word })
  | .waitReadersLoad timed =>
    if timed && chance.expired then
      some (word, { l with pc := .returned (.admitted false) })
    else if readers word = 0 then
      some (word, { held := l.held.noteReadersDrained, pc := .returned (.admitted true) })
    else some (word, l)
  | .waitInsertersLoad timed =>
    if timed && chance.expired then
      some (word, { l with pc := .returned (.admitted false) })
    else if inserters word = 0 then
      some (word, { held := l.held.noteInsertersDrained, pc := .returned (.admitted true) })
    else some (word, l)
  | .peekInsertersLoad =>
    if inserters word = 0 then
      some (word, { held := l.held.noteInsertersDrained, pc := .returned (.admitted true) })
    else some (word, { l with pc := .returned (.admitted false) })
  | .sealCas =>
    if word = empty kOpen then
      some (empty kAllBlocked,
        { held := .owner (.allBlocked true true), pc := .returned (.admitted true) })
    else some (word, { l with pc := .returned (.admitted false) })
  | .wordLoad => some (word, { l with pc := .returned (.word word) })

/-- The methods of the gate.  `unseal_to_open` runs the same exchange loop as
`reopen` and is not listed apart; `peekInserters` is a `load_acquire` whose caller
only asks whether inserters are left. -/
inductive GateCall where
  | acquireShared (timed : Bool)
  | releaseShared
  | acquireInserter
  | releaseInserter
  | enterPhase (desired : AdmissionState) (timed : Bool)
  | tryEnterPhase (desired : AdmissionState)
  | transitionPhase (expected desired : AdmissionState)
  | reopen
  | waitReadersDrained (timed : Bool)
  | waitInsertersDrained (timed : Bool)
  | peekInserters
  | trySealOpenState
  | loadAcquire
  deriving DecidableEq, Repr

namespace GateCall

def start : GateCall → GatePc
  | acquireShared timed => .sharedLoad timed
  | releaseShared => .releaseSharedLoad
  | acquireInserter => .inserterLoad
  | releaseInserter => .releaseInserterLoad
  | enterPhase desired timed => .enterLoad desired timed
  | tryEnterPhase desired => .tryEnterLoad desired
  | transitionPhase expected desired => .transitionLoad expected desired
  | reopen => .reopenLoad .done
  | waitReadersDrained timed => .waitReadersLoad timed
  | waitInsertersDrained timed => .waitInsertersLoad timed
  | peekInserters => .peekInsertersLoad
  | trySealOpenState => .sealCas
  | loadAcquire => .wordLoad

/-- The gate's calling convention: a unit is released by its holder, a phase is
entered by a thread that holds nothing and is moved, drained or reopened by its
owner, forwards only, and readers are drained once they are blocked. -/
def Permitted : GateCall → Held → Prop
  | acquireShared _, held => held = .nothing
  | releaseShared, held => held = .shared
  | acquireInserter, held => held = .nothing
  | releaseInserter, held => held = .inserter
  | enterPhase desired _, held => held = .nothing ∧ desired ≠ kOpen
  | tryEnterPhase desired, held => held = .nothing ∧ desired ≠ kOpen
  | transitionPhase expected desired, held =>
    (∃ o, held = .owner o ∧ o.phase = expected) ∧ desired ≠ kInsertsBlocked
  | reopen, held => ∃ o, held = .owner o
  | waitReadersDrained _, held => ∃ o, held = .owner o ∧ o.phase = kAllBlocked
  | waitInsertersDrained _, held => ∃ o, held = .owner o
  | peekInserters, held => ∃ o, held = .owner o
  | trySealOpenState, held => held = .nothing
  | loadAcquire, _ => True

end GateCall

end Neug.Transaction
