import Neug.Transaction.OperationGateSafety
import Neug.Transaction.WriteTimestampsSteps

/-! # The version manager

The version manager composes the operation gate with the write timestamps.  A
thread runs one of its operations; while the operation is inside a gate method
the thread's steps are those of the gate, and otherwise they are accesses to the
timestamp variables.  Update leases, shared leases and exclusive leases are the
clients that call these operations, so their calling order is part of the model.
-/

namespace Neug.Transaction

open OperationGateWord AdmissionState TimestampWindow Library

inductive VmError where
  | gate (error : GateError)
  | sharedTimeout
  | updateAdmissionTimeout
  | insertDrainTimeout
  | reserveTimeout
  | exclusiveTimeout
  | readerDrainTimeout
  | windowFull
  | exhausted
  | reservationBroken (exclusive : Bool) (writeTs readTs : Nat)
  deriving DecidableEq, Repr

/-- The three ways of acquiring an update timestamp: `acquire_update_timestamp`,
`acquire_update_timestamp_until` and `try_acquire_update_timestamp`. -/
inductive UpdateMode where
  | blocking
  | timed
  | oneShot
  deriving DecidableEq, Repr

/-- Where a thread stands in an operation of the version manager or of a lease. -/
inductive VmPc where
  | idle
  | threw (error : VmError)
  | crashed
  -- acquire_read_operation, SharedOperationLease
  | readAdmit
  | readLoadView
  | reading (view : PublishedReadView)
  | leaseAdmit (timed : Bool)
  | leased
  | sharedRelease
  -- acquire_insert_timestamp, release_insert_timestamp
  | insertAdmit
  | insertReserve (pc : ReservePc)
  | insertBackOff (reason : Refusal)
  | inserting (ts : Nat)
  | insertComplete (ts : Nat) (pc : CompletePc)
  | insertRelease
  -- acquire_update_timestamp and its variants
  | updateEnter (mode : UpdateMode)
  | updateDrain (mode : UpdateMode)
  | updateAbandon (drained : Bool)
  | updateReopen
  | updateReserve (pc : ReservePc)
  | updateRefused (reason : Refusal)
  -- an update lease, before and after begin_update_commit
  | updating (ts : Nat) (commitStarted : Bool)
  | updateBegin (ts : Nat)
  | updateDrainCheck (ts : Nat)
  | updateDrainReaders (ts : Nat)
  -- finish_update_timestamp
  | updateInstall (ts generation : Nat)
  | updateComplete (ts : Nat) (pc : CompletePc)
  | updateFinish
  -- finish_update_and_reset_timeline
  | resetCheckGate (ts : Nat)
  | resetCheckWrite (ts : Nat)
  | resetting (ts : Nat) (pc : ResetPc)
  | resetFinish
  -- acquire_compact_timestamp, release_compact_timestamp, revert_compact_timestamp
  | compactEnter
  | compactDrainReaders
  | compactDrainInserters
  | compactReserve (pc : ReservePc)
  | compactRefused (reason : Refusal)
  | compacting (ts : Nat)
  | compactCheck (ts : Nat)
  | compactComplete (ts : Nat) (pc : CompletePc)
  | compactFinish
  -- ExclusiveOperationLease
  | exclusiveEnter (timed : Bool)
  | exclusiveDrainInserters (timed : Bool)
  | exclusiveDrainReaders (timed : Bool)
  | exclusiveAbandon (insertersDrained : Bool)
  | exclusiveHeld
  | exclusiveFinish
  -- try_set_runtime_wait_if_quiescent
  | sealLock
  | sealTry
  | sealStore
  | sealUnseal
  | sealUnlock
  deriving DecidableEq, Repr

namespace VmPc

/-- The gate method the thread is inside at a program point. -/
def call : VmPc → Option GateCall
  | readAdmit => some (.acquireShared false)
  | leaseAdmit timed => some (.acquireShared timed)
  | sharedRelease => some .releaseShared
  | insertAdmit => some .acquireInserter
  | insertBackOff _ => some .releaseInserter
  | insertRelease => some .releaseInserter
  | updateEnter .blocking => some (.enterPhase kInsertsBlocked false)
  | updateEnter .timed => some (.enterPhase kInsertsBlocked true)
  | updateEnter .oneShot => some (.tryEnterPhase kInsertsBlocked)
  | updateDrain .blocking => some (.waitInsertersDrained false)
  | updateDrain .timed => some (.waitInsertersDrained true)
  | updateDrain .oneShot => some .peekInserters
  | updateAbandon _ => some (.transitionPhase kInsertsBlocked kOpen)
  | updateReopen => some .reopen
  | updateRefused _ => some (.transitionPhase kInsertsBlocked kOpen)
  | updateBegin _ => some (.transitionPhase kInsertsBlocked kAllBlocked)
  | updateDrainCheck _ => some .loadAcquire
  | updateDrainReaders _ => some (.waitReadersDrained false)
  | updateFinish => some .reopen
  | resetCheckGate _ => some .loadAcquire
  | resetFinish => some (.transitionPhase kAllBlocked kOpen)
  | compactEnter => some (.enterPhase kAllBlocked false)
  | compactDrainReaders => some (.waitReadersDrained false)
  | compactDrainInserters => some (.waitInsertersDrained false)
  | compactRefused _ => some (.transitionPhase kAllBlocked kOpen)
  | compactCheck _ => some .loadAcquire
  | compactFinish => some (.transitionPhase kAllBlocked kOpen)
  | exclusiveEnter timed => some (.enterPhase kAllBlocked timed)
  | exclusiveDrainInserters timed => some (.waitInsertersDrained timed)
  | exclusiveDrainReaders timed => some (.waitReadersDrained timed)
  | exclusiveAbandon _ => some .reopen
  | exclusiveFinish => some .reopen
  | sealTry => some .trySealOpenState
  | sealUnseal => some .reopen
  | _ => none

/-- How the operation continues with the result of its gate method.  Results a
method cannot return leave the thread where it is. -/
def afterCall (pc : VmPc) (result : GateResult) (chance : Chance) : VmPc :=
  match pc, result with
  | readAdmit, .admitted true => readLoadView
  | readAdmit, .thrown e => threw (.gate e)
  | leaseAdmit _, .admitted true => leased
  | leaseAdmit _, .admitted false => threw .sharedTimeout
  | leaseAdmit _, .thrown e => threw (.gate e)
  | sharedRelease, .done => idle
  | sharedRelease, .thrown e => threw (.gate e)
  | insertAdmit, .done => insertReserve .load
  | insertAdmit, .thrown e => threw (.gate e)
  | insertBackOff .exhausted, .done => threw .exhausted
  | insertBackOff _, .done => insertAdmit
  | insertBackOff _, .thrown e => threw (.gate e)
  | insertRelease, .done => idle
  | insertRelease, .thrown e => threw (.gate e)
  | updateEnter mode, .admitted true => updateDrain mode
  | updateEnter .oneShot, .admitted false => idle
  | updateEnter _, .admitted false => threw .updateAdmissionTimeout
  | updateDrain .timed, .admitted true =>
    if chance.expired then updateAbandon true else updateReserve .load
  | updateDrain _, .admitted true => updateReserve .load
  | updateDrain .oneShot, .admitted false => updateReopen
  | updateDrain _, .admitted false => updateAbandon false
  | updateAbandon drained, .done =>
    threw (if drained then .reserveTimeout else .insertDrainTimeout)
  | updateAbandon _, .thrown e => threw (.gate e)
  | updateReopen, .done => idle
  | updateRefused .exhausted, .done => threw .exhausted
  | updateRefused _, .done => threw .windowFull
  | updateRefused _, .thrown e => threw (.gate e)
  | updateBegin ts, .done => updating ts true
  | updateBegin ts, .thrown _ => updating ts false
  | updateDrainCheck ts, .word observed =>
    if phase observed = some kAllBlocked then updateDrainReaders ts else updating ts true
  | updateDrainReaders ts, .admitted true => updating ts true
  | updateFinish, .done => idle
  | resetCheckGate ts, .word observed =>
    if phase observed = some kAllBlocked ∧ inserters observed = 0 then resetCheckWrite ts
    else crashed
  | resetFinish, .done => idle
  | resetFinish, .thrown _ => crashed
  | compactEnter, .admitted true => compactDrainReaders
  | compactDrainReaders, .admitted true => compactDrainInserters
  | compactDrainInserters, .admitted true => compactReserve .load
  | compactRefused .exhausted, .done => threw .exhausted
  | compactRefused _, .done => threw .windowFull
  | compactRefused _, .thrown e => threw (.gate e)
  | compactCheck ts, .word observed =>
    if phase observed = some kAllBlocked then compactComplete ts .mark else compacting ts
  | compactFinish, .done => idle
  | compactFinish, .thrown e => threw (.gate e)
  | exclusiveEnter timed, .admitted true => exclusiveDrainInserters timed
  | exclusiveEnter _, .admitted false => threw .exclusiveTimeout
  | exclusiveDrainInserters timed, .admitted true => exclusiveDrainReaders timed
  | exclusiveDrainInserters _, .admitted false => exclusiveAbandon false
  | exclusiveDrainReaders _, .admitted true => exclusiveHeld
  | exclusiveDrainReaders _, .admitted false => exclusiveAbandon true
  | exclusiveAbandon insertersDrained, .done =>
    threw (if insertersDrained then .readerDrainTimeout else .insertDrainTimeout)
  | exclusiveFinish, .done => idle
  | sealTry, .admitted true => sealStore
  | sealTry, .admitted false => sealUnlock
  | sealUnseal, .done => sealUnlock
  | pc, _ => pc

end VmPc

inductive Request where
  | read
  | lease (timed : Bool)
  | insert
  | update (mode : UpdateMode)
  | compact
  | exclusive (timed : Bool)
  | setRuntimeWait
  | beginCommit
  | drainReaders
  | finish (generation : Option Nat)
  | finishAndReset
  | release
  deriving DecidableEq, Repr

structure VmLocal where
  gate : GateLocal
  pc : VmPc
  deriving DecidableEq, Repr

/-- Continue at `pc`, entering the gate method that `pc` is inside, if any. -/
def VmLocal.goto (l : VmLocal) (pc : VmPc) : VmLocal :=
  ⟨⟨l.gate.held, match pc.call with
    | some c => c.start
    | none => .outside⟩, pc⟩

structure VmChoice where
  chance : Chance
  request : Request
  deriving DecidableEq, Repr

/-- The program point after a reservation step made for an insert. -/
def VmPc.ofInsertReserve : ReserveProgress → VmPc
  | .running pc => .insertReserve pc
  | .reserved ts => .inserting ts
  | .refused (.invariantBroken w r) => .threw (.reservationBroken false w r)
  | .refused reason => .insertBackOff reason

def VmPc.ofUpdateReserve : ReserveProgress → VmPc
  | .running pc => .updateReserve pc
  | .reserved ts => .updating ts false
  | .refused (.invariantBroken w r) => .threw (.reservationBroken true w r)
  | .refused reason => .updateRefused reason

def VmPc.ofCompactReserve : ReserveProgress → VmPc
  | .running pc => .compactReserve pc
  | .reserved ts => .compacting ts
  | .refused (.invariantBroken w r) => .threw (.reservationBroken true w r)
  | .refused reason => .compactRefused reason

def VmPc.ofRequest : Request → Option VmPc
  | .read => some .readAdmit
  | .lease timed => some (.leaseAdmit timed)
  | .insert => some .insertAdmit
  | .update mode => some (.updateEnter mode)
  | .compact => some .compactEnter
  | .exclusive timed => some (.exclusiveEnter timed)
  | .setRuntimeWait => some .sealLock
  | _ => none

/-- What the holder of an update lease does next.  Publishing a generation and
resetting the timeline require that the commit has begun. -/
def VmPc.ofLeaseRequest (ts : Nat) (commitStarted : Bool) : Request → Option VmPc
  | .beginCommit => if commitStarted then none else some (.updateBegin ts)
  | .drainReaders => if commitStarted then some (.updateDrainCheck ts) else none
  | .finish none => some (.updateComplete ts .mark)
  | .finish (some generation) =>
    if commitStarted then some (.updateInstall ts generation) else none
  | .finishAndReset => if commitStarted then some (.resetCheckGate ts) else none
  | _ => none

section Steps

variable {Tid : Type*}

def ownStep (clock : WriteClock Tid) (t : Tid) (pc : VmPc) (choice : VmChoice) :
    Option (WriteClock Tid × VmPc) :=
  match pc with
  | .idle => (VmPc.ofRequest choice.request).map fun pc' => (clock, pc')
  | .threw _ => some (clock, .idle)
  | .readLoadView => some (clock, .reading clock.publishedView)
  | .reading _ => if choice.request = .release then some (clock, .sharedRelease) else none
  | .leased => if choice.request = .release then some (clock, .sharedRelease) else none
  | .insertReserve pc =>
    let (clock', progress) := reserveOn clock pc choice.chance.spurious
    some (clock', .ofInsertReserve progress)
  | .inserting ts =>
    if choice.request = .release then some (clock, .insertComplete ts .mark) else none
  | .insertComplete ts pc =>
    let (clock', next) := completeStep clock t ts pc
    some (clock', match next with
      | some pc' => .insertComplete ts pc'
      | none => .insertRelease)
  | .updateReserve pc =>
    let (clock', progress) := reserveOn clock pc choice.chance.spurious
    some (clock', .ofUpdateReserve progress)
  | .updating ts commitStarted =>
    (VmPc.ofLeaseRequest ts commitStarted choice.request).map fun pc' => (clock, pc')
  | .updateInstall ts generation =>
    some ({ clock with installedGeneration := generation }, .updateComplete ts .mark)
  | .updateComplete ts pc =>
    let (clock', next) := completeStep clock t ts pc
    some (clock', match next with
      | some pc' => .updateComplete ts pc'
      | none => .updateFinish)
  | .resetCheckWrite ts =>
    if clock.writeTs = nextTs ts then some (clock, .resetting ts .storeWrite)
    else some (clock, .crashed)
  | .resetting ts pc =>
    let (clock', next) := resetStep clock pc
    some (clock', match next with
      | some pc' => .resetting ts pc'
      | none => .resetFinish)
  | .compactReserve pc =>
    let (clock', progress) := reserveOn clock pc choice.chance.spurious
    some (clock', .ofCompactReserve progress)
  | .compacting ts => if choice.request = .release then some (clock, .compactCheck ts) else none
  | .compactComplete ts pc =>
    let (clock', next) := completeStep clock t ts pc
    some (clock', match next with
      | some pc' => .compactComplete ts pc'
      | none => .compactFinish)
  | .exclusiveHeld =>
    if choice.request = .release then some (clock, .exclusiveFinish) else none
  | .sealLock =>
    match clock.lock with
    | none => some ({ clock with lock := some t }, .sealTry)
    | some _ => some (clock, .idle)
  | .sealStore => some (clock, .sealUnseal)
  | .sealUnlock => some ({ clock with lock := none }, .idle)
  | _ => none

/-- One step of a thread: inside a gate method an access to the word, on return
from it the continuation of the operation, elsewhere an access to the timestamp
variables or a request of the client. -/
def vmStep (word : GateWord) (clock : WriteClock Tid) (t : Tid) (l : VmLocal)
    (choice : VmChoice) : Option (GateWord × WriteClock Tid × VmLocal) :=
  match l.pc.call with
  | some _ =>
    match l.gate.pc with
    | .returned result =>
      some (word, clock, l.goto (l.pc.afterCall result choice.chance))
    | _ => (gateStep word l.gate choice.chance).map fun (word', gate') =>
      (word', clock, ⟨gate', l.pc⟩)
  | none => (ownStep clock t l.pc choice).map fun (clock', pc') => (word, clock', l.goto pc')

structure VmState (Tid : Type*) where
  word : GateWord
  clock : WriteClock Tid
  threads : Tid → VmLocal

variable [DecidableEq Tid]

def VmState.next (s : VmState Tid) (t : Tid) (choice : VmChoice) : Option (VmState Tid) :=
  (vmStep s.word s.clock t (s.threads t) choice).map fun (word', clock', l') =>
    ⟨word', clock', Function.update s.threads t l'⟩

/-- A version manager initialised by `init_ts` with every thread idle. -/
def VmState.init (Tid : Type*) (view : PublishedReadView) : VmState Tid where
  word := empty kOpen
  clock := .initTs view
  threads := fun _ => ⟨⟨.nothing, .outside⟩, .idle⟩

/-- `init_ts` rejects the maximal timestamp. -/
def VmState.Initial (s : VmState Tid) : Prop :=
  ∃ view : PublishedReadView, view.visibilityTs < kMaxTimestamp ∧ s = VmState.init Tid view

/-- One step of some thread.  A reader that counts itself at the gate finds the
reader counter below its maximum. -/
def VmState.Step (s s' : VmState Tid) : Prop :=
  ∃ t choice, ((s.threads t).gate.pc.Counting → readers s.word < kMaxReaderCount) ∧
    s.next t choice = some s'

end Steps

end Neug.Transaction
