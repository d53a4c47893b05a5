import Mathlib.Data.List.FinRange
import Neug.Library.Reachability

/-! # The snapshot store

A fixed pool of slots holds the published graphs.  Readers pin the current slot by
raising its count, writers build a new graph in a free slot and make it current,
and whoever lowers the count of a stale slot to zero cleans it and gives it back.
A count is positive while the slot can be pinned; a negative sentinel marks a slot
that is being filled or cleaned.  Every atomic access is one step of a thread; the
plain fields of a slot are written in one step.
-/

namespace Neug.Storage

open Function

def kCleanupSentinel : Int := -1048576

def kMaxGeneration : Nat := 4294967295

/-- The fields of a filled slot; the view is determined by the graph. -/
structure SnapshotData (G : Type*) where
  graph : G
  snapshotGeneration : Nat
  planningGeneration : Nat
  deriving DecidableEq, Repr

/-- `SnapshotSlot`; an empty slot has no storage and generation zero. -/
structure SnapshotSlot (G : Type*) where
  data : Option (SnapshotData G)
  readerCount : Int
  deriving DecidableEq, Repr

def SnapshotSlot.snapshotGeneration {G : Type*} (slot : SnapshotSlot G) : Nat :=
  (slot.data.map (·.snapshotGeneration)).getD 0

/-- `GraphSnapshotStore`.  The last two fields are not part of the program: they
count, for each slot, the guards and the prepared tokens that callers hold. -/
structure GraphSnapshotStore (n : Nat) (G : Type*) where
  slots : Fin n → SnapshotSlot G
  curSlotIndex : Fin n
  lastReservedGeneration : Nat
  freeList : List (Fin n)
  guards : Fin n → Nat
  tokens : Fin n → Nat

/-- Why `PrepareSnapshot` fails. -/
inductive SnapshotError where
  | nullGraph
  | slotsExhausted
  | generationsExhausted
  | viewFailed
  deriving DecidableEq, Repr

/-- The texts of the failures; that of a view that cannot be built is its own. -/
def SnapshotError.message : SnapshotError → String
  | nullGraph => "Cannot prepare a null PropertyGraph snapshot"
  | slotsExhausted => "GraphSnapshotStore slot exhausted"
  | generationsExhausted =>
    "Snapshot generation space exhausted; restart the database before preparing another snapshot"
  | viewFailed => ""

/-- What a thread does after `unpinSnapshotByIndex`: it returns to its caller, tries
again to pin the current slot, or returns from `Publish`. -/
inductive UnpinFor where
  | caller
  | repin
  | publish (generation : Nat)
  deriving DecidableEq, Repr

inductive StorePc (n : Nat) (G : Type*) where
  | idle
  | failed (error : SnapshotError)
  | crashed
  -- PinCurrentSnapshot
  | pinLoad
  | pinRead (slot : Fin n)
  | pinSwap (slot : Fin n) (observed : Int)
  | pinVerify (slot : Fin n)
  | pinReturned (slot : Fin n)
  -- unpinSnapshotByIndex, cleanupSlot
  | unpin (slot : Fin n) (goal : UnpinFor)
  | unpinLast (slot : Fin n) (goal : UnpinFor)
  | unpinSwap (slot : Fin n) (goal : UnpinFor)
  | cleanupReset (slot : Fin n) (goal : UnpinFor)
  | cleanupRelease (slot : Fin n) (goal : UnpinFor)
  | cleanupReturn (slot : Fin n) (goal : UnpinFor)
  -- PrepareSnapshot and its handler
  | prepare (graph : Option G) (planningGeneration : Nat)
  | prepareReserve (slot : Fin n) (graph : G) (planningGeneration : Nat)
  | prepareGuard (slot : Fin n) (data : SnapshotData G)
  | prepareFill (slot : Fin n) (data : SnapshotData G)
  | prepareRelease (slot : Fin n)
  | prepareReturned (slot : Fin n)
  | rollbackReset (slot : Fin n) (error : SnapshotError)
  | rollbackCount (slot : Fin n) (error : SnapshotError)
  | rollbackReturn (slot : Fin n) (error : SnapshotError)
  -- PreparedSnapshot::Publish, publishPreparedSnapshot
  | publish (slot : Fin n)
  | publishSwap (slot : Fin n) (generation : Nat)
  | published (generation : Nat)
  deriving DecidableEq, Repr

/-- What a caller asks for: a pin, the release of a guard, a prepared snapshot, and
the publication or the destruction of a prepared token. -/
inductive StoreRequest (n : Nat) (G : Type*) where
  | pin
  | unpin (slot : Fin n)
  | prepare (graph : Option G) (planningGeneration : Nat)
  | publish (slot : Fin n)
  | discard (slot : Fin n)
  deriving DecidableEq, Repr

/-- What the scheduler and the caller decide for one step. -/
structure StoreChoice (n : Nat) (G : Type*) where
  request : StoreRequest n G
  spurious : Bool
  viewFails : Bool
  deriving DecidableEq, Repr

section Steps

variable {n : Nat} {G : Type*}

def UnpinFor.next : UnpinFor → StorePc n G
  | caller => .idle
  | repin => .pinLoad
  | publish generation => .published generation

namespace GraphSnapshotStore

variable (s : GraphSnapshotStore n G)

variable (i : Fin n)

def setSlot (slot : SnapshotSlot G) : GraphSnapshotStore n G :=
  { s with slots := update s.slots i slot }

def setCount (count : Int) : GraphSnapshotStore n G :=
  s.setSlot i { s.slots i with readerCount := count }

def setData (data : Option (SnapshotData G)) : GraphSnapshotStore n G :=
  s.setSlot i { s.slots i with data := data }

def setCurrent : GraphSnapshotStore n G :=
  { s with curSlotIndex := i }

def setGuards (count : Nat) : GraphSnapshotStore n G :=
  { s with guards := update s.guards i count }

def setTokens (count : Nat) : GraphSnapshotStore n G :=
  { s with tokens := update s.tokens i count }

/-- The operation that a caller starts; only what it holds can be released. -/
def start : StoreRequest n G → Option (GraphSnapshotStore n G × StorePc n G)
  | .pin => some (s, .pinLoad)
  | .unpin i =>
    if 0 < s.guards i then some (s.setGuards i (s.guards i - 1), .unpin i .caller) else none
  | .prepare graph planning => some (s, .prepare graph planning)
  | .publish i =>
    if 0 < s.tokens i then some (s.setTokens i (s.tokens i - 1), .publish i) else none
  | .discard i =>
    if 0 < s.tokens i then some (s.setTokens i (s.tokens i - 1), .unpin i .caller) else none

def getFreeSlot : Option (Fin n × GraphSnapshotStore n G) :=
  s.freeList.getLast?.map fun i => (i, { s with freeList := s.freeList.dropLast })

def returnFreeSlot : GraphSnapshotStore n G :=
  { s with freeList := s.freeList ++ [i] }

end GraphSnapshotStore

open GraphSnapshotStore

def storeStep (s : GraphSnapshotStore n G) (pc : StorePc n G) (choice : StoreChoice n G) :
    Option (GraphSnapshotStore n G × StorePc n G) :=
  match pc with
  | .idle => s.start choice.request
  | .failed _ => some (s, .idle)
  | .crashed => none
  | .pinLoad => some (s, .pinRead s.curSlotIndex)
  | .pinRead i => some (s, .pinSwap i (s.slots i).readerCount)
  | .pinSwap i observed =>
    if observed ≤ 0 then some (s, .pinLoad)
    else if (s.slots i).readerCount = observed ∧ ¬choice.spurious then
      some (s.setCount i (observed + 1), .pinVerify i)
    else some (s, .pinSwap i (s.slots i).readerCount)
  | .pinVerify i =>
    if s.curSlotIndex = i then some (s, .pinReturned i) else some (s, .unpin i .repin)
  | .pinReturned i => some (s.setGuards i (s.guards i + 1), .idle)
  | .unpin i goal =>
    let prev := (s.slots i).readerCount
    some (s.setCount i (prev - 1), if prev = 1 then .unpinLast i goal else goal.next)
  | .unpinLast i goal =>
    some (s, if i ≠ s.curSlotIndex ∧ (s.slots i).data.isSome then .unpinSwap i goal
      else goal.next)
  | .unpinSwap i goal =>
    if (s.slots i).readerCount = 0 then
      some (s.setCount i kCleanupSentinel, .cleanupReset i goal)
    else some (s, goal.next)
  | .cleanupReset i goal => some (s.setData i none, .cleanupRelease i goal)
  | .cleanupRelease i goal =>
    some (s.setCount i ((s.slots i).readerCount + -kCleanupSentinel), .cleanupReturn i goal)
  | .cleanupReturn i goal => some (s.returnFreeSlot i, goal.next)
  | .prepare none _ => some (s, .failed .nullGraph)
  | .prepare (some graph) planning =>
    match s.getFreeSlot with
    | none => some (s, .failed .slotsExhausted)
    | some (i, s') => some (s', .prepareReserve i graph planning)
  | .prepareReserve i graph planning =>
    if s.lastReservedGeneration = kMaxGeneration then
      some (s, .rollbackReset i .generationsExhausted)
    else
      some ({ s with lastReservedGeneration := s.lastReservedGeneration + 1 },
        .prepareGuard i ⟨graph, s.lastReservedGeneration + 1, planning⟩)
  | .prepareGuard i data => some (s.setCount i kCleanupSentinel, .prepareFill i data)
  | .prepareFill i data =>
    if choice.viewFails then some (s, .rollbackReset i .viewFailed)
    else some (s.setData i (some data), .prepareRelease i)
  | .prepareRelease i =>
    some (s.setCount i ((s.slots i).readerCount + (-kCleanupSentinel + 1)), .prepareReturned i)
  | .prepareReturned i => some (s.setTokens i (s.tokens i + 1), .idle)
  | .rollbackReset i error => some (s.setData i none, .rollbackCount i error)
  | .rollbackCount i error => some (s.setCount i 0, .rollbackReturn i error)
  | .rollbackReturn i error => some (s.returnFreeSlot i, .failed error)
  | .publish i =>
    some (s, if 1 ≤ (s.slots i).readerCount then
      .publishSwap i (s.slots i).snapshotGeneration else .crashed)
  | .publishSwap i generation =>
    some (s.setCurrent i, .unpin s.curSlotIndex (.publish generation))
  | .published _ => some (s, .idle)

structure StoreState (Tid : Type*) (n : Nat) (G : Type*) where
  store : GraphSnapshotStore n G
  threads : Tid → StorePc n G

variable {Tid : Type*}

def GraphSnapshotStore.init [NeZero n] (graph : G) (generation : Nat) :
    GraphSnapshotStore n G where
  slots i := if i = 0 then ⟨some ⟨graph, generation, 0⟩, 1⟩ else ⟨none, 0⟩
  curSlotIndex := 0
  lastReservedGeneration := generation
  freeList := (List.finRange n).tail
  guards := fun _ => 0
  tokens := fun _ => 0

def StoreState.Initial [NeZero n] (st : StoreState Tid n G) : Prop :=
  ∃ graph generation, st = ⟨.init graph generation, fun _ => .idle⟩

variable [DecidableEq Tid]

def StoreState.next (st : StoreState Tid n G) (t : Tid) (choice : StoreChoice n G) :
    Option (StoreState Tid n G) :=
  (storeStep st.store (st.threads t) choice).map fun (store', pc') =>
    ⟨store', update st.threads t pc'⟩

def StoreState.Step (st st' : StoreState Tid n G) : Prop :=
  ∃ t choice, st.next t choice = some st'

end Steps

end Neug.Storage
