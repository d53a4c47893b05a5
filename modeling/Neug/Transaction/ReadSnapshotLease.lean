import Neug.Library.VersionHistory
import Neug.Storage.SnapshotGenerations
import Neug.Transaction.PublishedView
import Neug.Transaction.VersionManagerRuns

/-! # Read leases and update transactions

The version manager and the snapshot store do not know of each other.  They meet in
the programs of their clients: a reader captures the published view and then pins the
current slot, an update transaction makes its slot current and then completes its
timestamp.  The model runs these programs over both components.  Each step of a
session is a step of the version manager, a step of the store, or a decision between
two of them.  Sessions that neither read nor update may use the version manager and
pin snapshots as insert transactions do.

A graph is an arbitrary value, and an update transaction an arbitrary change of it.
-/

namespace Neug.Transaction

open Library Storage

inductive SessionPc (n : Nat) (G : Type*) where
  | outside
  -- ReadSnapshotLease::Acquire and release
  | acquiring
  | pinning (view : PublishedReadView)
  | comparing (view : PublishedReadView) (slot : Fin n)
  | leased (view : PublishedReadView) (slot : Fin n)
  | unpinning (again : Bool)
  | leaving (again : Bool)
  -- BeginSnapshotCowWriteTransaction, CloneCurrentForUpdate
  | beginning
  | clonePin (ts : Nat)
  | cloneRead (ts : Nat) (slot : Fin n)
  | cloneUnpin (ts : Nat) (base : G)
  -- SnapshotCowWriteTransaction
  | executing (ts : Nat) (base : G) (change : G → G)
  | preparing (ts : Nat) (base : G) (change : G → G)
  | prepared (ts : Nat) (base : G) (change : G → G) (slot : Fin n)
  | committing (ts : Nat) (base : G) (change : G → G) (slot : Fin n)
  | publishing (ts : Nat) (base : G) (change : G → G) (slot : Fin n)
  | published (ts : Nat)
  | discarding (ts : Nat)
  | finishing

inductive SessionAct (G : Type*) where
  | manager
  | store
  | acquire
  | release
  | begin (mode : UpdateMode)
  | change (f : G → G)
  | prepare (planningGeneration : Nat)
  | commit
  | abort

/-- What the scheduler and the session decide for one step.  The request fields of
the two components matter only for sessions that are outside both programs. -/
structure SessionChoice (n : Nat) (G : Type*) where
  act : SessionAct G
  vm : VmChoice
  store : StoreChoice n G

/-- Both components and all sessions.  The last four fields are not part of the
program: the graph and generation at the start, the updates that have been published
since, the newest first, and the read views that have been published. -/
structure SystemState (Tid : Type*) (n : Nat) (G : Type*) where
  vm : VmState Tid
  store : StoreState Tid n G
  sessions : Tid → SessionPc n G
  origin : G
  first : Nat
  history : List (Version G)
  views : List PublishedReadView

/-- Requests of the version manager outside the two programs; a timeline is not reset
while the service runs. -/
def Request.isOther : Request → Bool
  | .read | .update _ | .finishAndReset => false
  | _ => true

end Neug.Transaction

namespace Neug.Storage

def StoreRequest.isGuard {n : Nat} {G : Type*} : StoreRequest n G → Bool
  | pin | unpin _ => true
  | _ => false

def StorePc.isIdle {n : Nat} {G : Type*} : StorePc n G → Bool
  | idle => true
  | _ => false

end Neug.Storage

namespace Neug.Transaction

open Library Storage

namespace SystemState

variable {Tid : Type*} [DecidableEq Tid] {n : Nat} {G : Type*}

variable (s : SystemState Tid n G)

/-- A step of the version manager for a given request; the view it leaves published
is recorded. -/
def vmMove (t : Tid) (choice : SessionChoice n G) (request : Request) :
    Option (SystemState Tid n G) :=
  (s.vm.next t ⟨choice.vm.chance, request⟩).map fun vm' =>
    { s with vm := vm', views := vm'.clock.publishedView :: s.views }

def storeMove (t : Tid) (choice : SessionChoice n G)
    (request : StoreRequest n G) : Option (SystemState Tid n G) :=
  (s.store.next t { choice.store with request := request }).map fun store' =>
    { s with store := store' }

def goto (t : Tid) (pc : SessionPc n G) : SystemState Tid n G :=
  { s with sessions := Function.update s.sessions t pc }

/-- `publishPreparedSnapshot` makes an update part of the current snapshot. -/
def record (version : Version G) : SystemState Tid n G :=
  { s with history := version :: s.history }

/-- Hand a guard or token over to the operation that consumes it.  The return to the
caller and the next call touch no shared variable. -/
def consume (t : Tid) (choice : SessionChoice n G)
    (request : StoreRequest n G) : Option (SystemState Tid n G) := do
  let s' ← s.storeMove t choice request
  s'.storeMove t choice request

def next (t : Tid) (choice : SessionChoice n G) : Option (SystemState Tid n G) :=
  match s.sessions t with
  | .outside =>
    match choice.act with
    | .manager => if choice.vm.request.isOther then s.vmMove t choice choice.vm.request else none
    | .store =>
      if choice.store.request.isGuard then s.storeMove t choice choice.store.request else none
    | .acquire =>
      if (s.vm.threads t).pc = .idle ∧ (s.store.threads t).isIdle then
        (s.vmMove t choice .read).map (·.goto t .acquiring)
      else none
    | .begin mode =>
      if (s.vm.threads t).pc = .idle ∧ (s.store.threads t).isIdle then
        (s.vmMove t choice (.update mode)).map (·.goto t .beginning)
      else none
    | _ => none
  | .acquiring =>
    match (s.vm.threads t).pc with
    | .reading view => (s.storeMove t choice .pin).map (·.goto t (.pinning view))
    | .threw _ => some (s.goto t .outside)
    | _ => s.vmMove t choice .release
  | .pinning view =>
    match s.store.threads t with
    | .pinReturned slot => some (s.goto t (.comparing view slot))
    | _ => s.storeMove t choice .pin
  | .comparing view slot =>
    if (s.store.store.slots slot).snapshotGeneration = view.snapshotGeneration then
      some (s.goto t (.leased view slot))
    else (s.consume t choice (.unpin slot)).map (·.goto t (.unpinning true))
  | .leased _ slot =>
    match choice.act with
    | .release => (s.consume t choice (.unpin slot)).map (·.goto t (.unpinning false))
    | _ => none
  | .unpinning again =>
    match s.store.threads t with
    | .idle => (s.vmMove t choice .release).map (·.goto t (.leaving again))
    | _ => s.storeMove t choice .pin
  | .leaving again =>
    match (s.vm.threads t).pc with
    | .idle =>
      if again then (s.vmMove t choice .read).map (·.goto t .acquiring)
      else some (s.goto t .outside)
    | .threw _ => some (s.goto t .outside)
    | _ => s.vmMove t choice .release
  | .beginning =>
    match (s.vm.threads t).pc with
    | .updating ts _ => (s.storeMove t choice .pin).map (·.goto t (.clonePin ts))
    | .idle => some (s.goto t .outside)
    | .threw _ => some (s.goto t .outside)
    | _ => s.vmMove t choice .release
  | .clonePin ts =>
    match s.store.threads t with
    | .pinReturned slot => some (s.goto t (.cloneRead ts slot))
    | _ => s.storeMove t choice .pin
  | .cloneRead ts slot =>
    match (s.store.store.slots slot).data with
    | some data => (s.consume t choice (.unpin slot)).map (·.goto t (.cloneUnpin ts data.graph))
    | none => none
  | .cloneUnpin ts base =>
    match s.store.threads t with
    | .idle => some (s.goto t (.executing ts base id))
    | _ => s.storeMove t choice .pin
  | .executing ts base change =>
    match choice.act with
    | .change f => some (s.goto t (.executing ts base (f ∘ change)))
    | .prepare planning =>
      (s.storeMove t choice (.prepare (some (change base)) planning)).map
        (·.goto t (.preparing ts base change))
    | .abort => (s.vmMove t choice (.finish none)).map (·.goto t .finishing)
    | _ => none
  | .preparing ts base change =>
    match s.store.threads t with
    | .prepareReturned slot => some (s.goto t (.prepared ts base change slot))
    -- a status aborts the transaction, an exception leaves it as it is
    | .failed error =>
      (s.storeMove t choice .pin).bind fun s' =>
        if error = .nullGraph ∨ error = .slotsExhausted then
          (s'.vmMove t choice (.finish none)).map (·.goto t .finishing)
        else some (s'.goto t (.executing ts base change))
    | _ => s.storeMove t choice .pin
  | .prepared ts base change slot =>
    match choice.act with
    | .commit => (s.vmMove t choice .beginCommit).map (·.goto t (.committing ts base change slot))
    | .abort => (s.consume t choice (.discard slot)).map (·.goto t (.discarding ts))
    | _ => none
  | .committing ts base change slot =>
    match (s.vm.threads t).pc with
    | .updating _ true =>
      (s.consume t choice (.publish slot)).map (·.goto t (.publishing ts base change slot))
    | .updating _ false => (s.consume t choice (.discard slot)).map (·.goto t (.discarding ts))
    | _ => s.vmMove t choice .release
  | .publishing ts _ change _ =>
    match s.store.threads t with
    | .publishSwap _ generation =>
      (s.storeMove t choice .pin).map fun s' =>
        (s'.record ⟨ts, generation, change⟩).goto t (.published ts)
    | _ => s.storeMove t choice .pin
  | .published _ =>
    match s.store.threads t with
    | .published generation =>
      (s.storeMove t choice .pin).bind fun s' =>
        (s'.vmMove t choice (.finish (some generation))).map (·.goto t .finishing)
    | _ => s.storeMove t choice .pin
  | .discarding _ =>
    match s.store.threads t with
    | .idle => (s.vmMove t choice (.finish none)).map (·.goto t .finishing)
    | _ => s.storeMove t choice .pin
  | .finishing =>
    match (s.vm.threads t).pc with
    | .idle => some (s.goto t .outside)
    | _ => s.vmMove t choice .release

/-- A database that has been opened: the version manager is initialised with the
generation of the snapshot that the store holds. -/
def Initial [NeZero n] (s : SystemState Tid n G) : Prop :=
  ∃ (graph : G) (view : PublishedReadView), view.visibilityTs < kMaxTimestamp ∧
    s = ⟨.init Tid view, ⟨.init graph view.snapshotGeneration, fun _ => .idle⟩,
      fun _ => .outside, graph, view.snapshotGeneration, [], [view]⟩

/-- One step of some session.  A reader that counts itself at the gate finds the
reader counter below its maximum. -/
def Step (s s' : SystemState Tid n G) : Prop :=
  ∃ t choice, ((s.vm.threads t).gate.pc.Counting →
      OperationGateWord.readers s.vm.word < OperationGateWord.kMaxReaderCount) ∧
    s.next t choice = some s'

end SystemState

end Neug.Transaction
