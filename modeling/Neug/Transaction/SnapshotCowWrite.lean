import Neug.Storage.GraphSnapshotStore
import Neug.Transaction.OperationGateWord
import Neug.Wal.LocalWal

/-! # Snapshot COW write transactions

A snapshot write transaction owns an update timestamp, a private graph and, between
`PrepareCommit` and `CommitPrepared`, a prepared snapshot.  Its methods call the
version manager, the snapshot store and the log.  The model records these calls in
order.  Their outcomes are inputs, so that every failure can happen at every place.
The results are about every sequence of method calls that ends with the destruction
of the transaction.
-/

namespace Neug.Transaction

open List

open Storage (SnapshotError)
open Wal (AppendOutcome)

structure PreparedSnapshot where
  slot : Nat
  generation : Nat
  deriving DecidableEq, Repr

/-- How `PrepareSnapshot` ends: with a token, with an error status, or with an
exception, after its handler has returned the slot. -/
inductive PrepareOutcome where
  | prepared (token : PreparedSnapshot)
  | refused (error : SnapshotError)
  | threw (error : SnapshotError)
  deriving DecidableEq, Repr

/-- What a transaction does to the services it shares with other transactions. -/
inductive ServiceCall where
  | prepareSnapshot (slot : Nat)
  | discardSnapshot (slot : Nat)
  | appendWal (ts : Nat)
  | beginUpdateCommit (ts : Nat)
  | publishSnapshot (slot : Nat)
  | finishUpdateTimestamp (ts : Nat) (installedGeneration : Option Nat)
  deriving DecidableEq, Repr

/-- How a method ends: it returns `Status::OK` or true, it returns another status or
false, with the text it returns or logs if there is one, or it throws.  A failed
`CHECK` and `LOG(FATAL)` stop the process. -/
inductive CowResult where
  | ok
  | failed (message : String)
  | threw (message : String)
  | stopped (message : String)
  deriving DecidableEq, Repr

def CowResult.isStopped : CowResult → Bool
  | stopped _ => true
  | _ => false

/-- `SnapshotCowWriteTransaction` with its timestamp lease and with what its workspace
contributes to a commit; `gate` is the admission phase, which the holder of the update
timestamp alone changes.  A lease without timestamp is inactive. -/
structure SnapshotCowWrite where
  timestamp : Option Nat
  commitStarted : Bool
  preparedSnapshot : Option PreparedSnapshot
  opNum : Nat
  contentSize : Nat
  planningChanged : Bool
  basePlanningGeneration : Nat
  gate : AdmissionState
  log : List ServiceCall
  deriving DecidableEq, Repr

namespace SnapshotCowWrite

/-- A new transaction, whose lease has closed admission for inserts. -/
def create (ts planningGeneration : Nat) : SnapshotCowWrite :=
  ⟨some ts, false, none, 0, 0, false, planningGeneration, .kInsertsBlocked, []⟩

variable (s : SnapshotCowWrite)

def call (c : ServiceCall) : SnapshotCowWrite :=
  { s with log := s.log ++ [c] }

def active : Bool := s.timestamp.isSome

/-- `prepared_snapshot_.reset()`: the token's destructor gives the slot back. -/
def resetPrepared : SnapshotCowWrite :=
  match s.preparedSnapshot with
  | none => s
  | some token => { s.call (.discardSnapshot token.slot) with preparedSnapshot := none }

/-- `release`: `workspace_.Reset` and `UpdateTimestampLease::Finish`, with the store of
`finish_update_timestamp` that reopens the gate. -/
def release (generation : Option Nat) : SnapshotCowWrite × CowResult :=
  match s.timestamp with
  | none => (s, .stopped "Check failed: timestamp_ != kInactiveTimestamp")
  | some ts =>
    if generation.isSome ∧ !s.commitStarted then
      (s, .stopped "Check failed: !installed_snapshot_generation || commit_started_")
    else
      ({ s.call (.finishUpdateTimestamp ts generation) with
          timestamp := none
          commitStarted := false
          opNum := 0
          contentSize := 0
          planningChanged := false
          gate := .kOpen }, .ok)

def abort : SnapshotCowWrite × CowResult :=
  if s.resetPrepared.active then s.resetPrepared.release none else (s.resetPrepared, .ok)

/-- `Abort` in a method that then returns a failure. -/
def abortWith (message : String) : SnapshotCowWrite × CowResult :=
  match s.abort with
  | (s', .ok) => (s', .failed message)
  | other => other

variable (token : PreparedSnapshot)

/-- `prepared_snapshot_.emplace`: an older token is destroyed. -/
def emplacePrepared : SnapshotCowWrite :=
  { (s.call (.prepareSnapshot token.slot)).resetPrepared with preparedSnapshot := some token }

def prepareCommit (outcome : PrepareOutcome) : SnapshotCowWrite × CowResult :=
  if !s.active then (s, .ok)
  else if s.opNum = 0 ∧ s.contentSize = 0 then s.release none
  else if s.planningChanged ∧ s.basePlanningGeneration = 2 ^ 64 - 1 then
    s.abortWith "Planning generation space exhausted."
  else match outcome with
  | .refused error => s.abortWith error.message
  | .threw error => (s, .threw error.message)
  | .prepared token => (s.emplacePrepared token, .ok)

/-- `UpdateTimestampLease::BeginCommit` with the gate transition of
`begin_update_commit`. -/
def beginCommit : SnapshotCowWrite × CowResult :=
  match s.timestamp with
  | none => (s, .stopped "Check failed: timestamp_ != kInactiveTimestamp")
  | some ts =>
    if s.commitStarted then (s, .stopped "Check failed: !commit_started_")
    else if s.gate ≠ .kInsertsBlocked then
      (s, .threw "Invalid transaction admission transition")
    else
      ({ s.call (.beginUpdateCommit ts) with commitStarted := true, gate := .kAllBlocked }, .ok)

/-- `std::move(*prepared_snapshot_).Publish()`, after which the token owns nothing and
its destruction returns no slot. -/
def publish : SnapshotCowWrite :=
  { s.call (.publishSnapshot token.slot) with preparedSnapshot := none }

/-- `CommitPrepared` after a successful append. -/
def publishPrepared : SnapshotCowWrite × CowResult :=
  match s.beginCommit with
  | (s', .ok) => (s'.publish token).release (some token.generation)
  | other => other

/-- `CommitPrepared`.  The writer refuses only before it has written; an append that
throws may have written and stops the process. -/
def commitPrepared (outcome : AppendOutcome) : SnapshotCowWrite × CowResult :=
  match s.timestamp, s.preparedSnapshot with
  | none, _ => (s, .ok)
  | some _, none => s.abortWith "Snapshot write commit was not prepared"
  | some ts, some token =>
    match outcome with
    | .refused => s.abortWith ""
    | .threw message =>
      (s, .stopped ("TP WAL append failed after commit append began: " ++ message ++
        "; terminating before snapshot publication"))
    | .appended => (s.call (.appendWal ts)).publishPrepared token

def commit (prepare : PrepareOutcome) (append : AppendOutcome) : SnapshotCowWrite × CowResult :=
  match s.prepareCommit prepare with
  | (s', .ok) => s'.commitPrepared append
  | other => other

/-- Operations that the storage of the transaction has executed and logged. -/
def execute (ops bytes : Nat) (planning : Bool) : SnapshotCowWrite :=
  { s with
    opNum := s.opNum + ops
    contentSize := s.contentSize + bytes
    planningChanged := s.planningChanged || planning }

end SnapshotCowWrite

/-- The calls a transaction accepts, with the outcomes of the services they use. -/
inductive CowCall where
  | execute (ops bytes : Nat) (planning : Bool)
  | prepareCommit (prepare : PrepareOutcome)
  | commitPrepared (append : AppendOutcome)
  | commit (prepare : PrepareOutcome) (append : AppendOutcome)
  | abort
  deriving DecidableEq, Repr

namespace SnapshotCowWrite

def perform (s : SnapshotCowWrite) : CowCall → SnapshotCowWrite × CowResult
  | .execute ops bytes planning => (s.execute ops bytes planning, .ok)
  | .prepareCommit prepare => s.prepareCommit prepare
  | .commitPrepared append => s.commitPrepared append
  | .commit prepare append => s.commit prepare append
  | .abort => s.abort

/-- The calls in order and then the destructor, unless the process stops. -/
def lifetime (s : SnapshotCowWrite) : List CowCall → SnapshotCowWrite × CowResult
  | [] => s.abort
  | c :: rest =>
    if (s.perform c).2.isStopped then s.perform c else (s.perform c).1.lifetime rest

end SnapshotCowWrite

/-! ### What the calls of a transaction amount to -/

@[simp] def ServiceCall.completes : ServiceCall → Option Nat
  | finishUpdateTimestamp ts _ => some ts
  | _ => none

def completedTimestamps (log : List ServiceCall) : List Nat :=
  log.filterMap ServiceCall.completes

def SnapshotPublished (log : List ServiceCall) : Prop := ∃ slot, .publishSnapshot slot ∈ log

def WalAppended (log : List ServiceCall) : Prop := ∃ ts, .appendWal ts ∈ log

variable (log rest : List ServiceCall)

@[simp] theorem completedTimestamps_append :
    completedTimestamps (log ++ rest) = completedTimestamps log ++ completedTimestamps rest :=
  filterMap_append

@[simp] theorem completedTimestamps_singleton (c : ServiceCall) :
    completedTimestamps [c] = c.completes.toList := by
  cases c <;> rfl

@[simp] theorem snapshotPublished_append :
    SnapshotPublished (log ++ rest) ↔ SnapshotPublished log ∨ SnapshotPublished rest := by
  simp [SnapshotPublished, exists_or]

@[simp] theorem walAppended_append :
    WalAppended (log ++ rest) ↔ WalAppended log ∨ WalAppended rest := by
  simp [WalAppended, exists_or]

@[simp] theorem snapshotPublished_singleton (c : ServiceCall) :
    SnapshotPublished [c] ↔ ∃ slot, .publishSnapshot slot = c := by
  simp [SnapshotPublished]

@[simp] theorem walAppended_singleton (c : ServiceCall) :
    WalAppended [c] ↔ ∃ ts, .appendWal ts = c := by
  simp [WalAppended]

def CowCall.AppendThrows : CowCall → Prop
  | .commitPrepared (.threw _) => True
  | .commit _ (.threw _) => True
  | _ => False

/-- The calls that give the transaction nothing to log. -/
def CowCall.LogsNothing : CowCall → Prop
  | .execute ops bytes _ => ops = 0 ∧ bytes = 0
  | _ => True

namespace SnapshotCowWrite

/-- The reserved slots that a transaction still has to publish or to return. -/
def pending (s : SnapshotCowWrite) (slot : Nat) : Nat :=
  match s.preparedSnapshot with
  | none => 0
  | some token => if token.slot = slot then 1 else 0

/-- Every slot that was reserved has been published or returned, or is pending. -/
def Balanced (s : SnapshotCowWrite) : Prop :=
  ∀ slot, s.log.count (.prepareSnapshot slot) =
    s.log.count (.publishSnapshot slot) + s.log.count (.discardSnapshot slot) + s.pending slot

/-- The transaction holds its timestamp and has neither logged nor published. -/
structure Holding (ts : Nat) (s : SnapshotCowWrite) : Prop where
  timestamp : s.timestamp = some ts
  commitStarted : s.commitStarted = false
  gate : s.gate = .kInsertsBlocked
  completed : completedTimestamps s.log = []
  published : ¬ SnapshotPublished s.log
  appended : ¬ WalAppended s.log

structure Done (ts : Nat) (s : SnapshotCowWrite) : Prop where
  timestamp : s.timestamp = none
  gate : s.gate = .kOpen
  completed : completedTimestamps s.log = [ts]
  published : SnapshotPublished s.log ↔ WalAppended s.log

/-- What is left of a transaction that has been destroyed. -/
structure Settled (ts : Nat) (s : SnapshotCowWrite) : Prop where
  completed : completedTimestamps s.log = [ts]
  slots : ∀ slot, s.log.count (.prepareSnapshot slot) =
    s.log.count (.publishSnapshot slot) + s.log.count (.discardSnapshot slot)
  published : SnapshotPublished s.log ↔ WalAppended s.log
  gate : s.gate = .kOpen

structure Inv (ts : Nat) (s : SnapshotCowWrite) : Prop where
  balanced : s.Balanced
  phase : s.Holding ts ∨ s.Done ts

/-! ### What each method keeps -/

variable {ts : Nat} {s : SnapshotCowWrite}

theorem inv_create (ts planningGeneration : Nat) : (create ts planningGeneration).Inv ts where
  balanced := fun slot => by simp [create, pending]
  phase := .inl ⟨rfl, rfl, rfl, rfl, by simp [create, SnapshotPublished],
    by simp [create, WalAppended]⟩

@[simp] theorem resetPrepared_preparedSnapshot (s : SnapshotCowWrite) :
    s.resetPrepared.preparedSnapshot = none := by
  unfold resetPrepared
  split
  · assumption
  · rfl

/-- Giving a slot back changes nothing else. -/
theorem resetPrepared_frame (s : SnapshotCowWrite) : s.resetPrepared.timestamp = s.timestamp ∧
      s.resetPrepared.commitStarted = s.commitStarted ∧ s.resetPrepared.gate = s.gate ∧
      completedTimestamps s.resetPrepared.log = completedTimestamps s.log ∧
      (SnapshotPublished s.resetPrepared.log ↔ SnapshotPublished s.log) ∧
      (WalAppended s.resetPrepared.log ↔ WalAppended s.log) := by
  unfold resetPrepared
  split
  · simp
  · simp [call]

theorem Balanced.resetPrepared (h : s.Balanced) : s.resetPrepared.Balanced := by
  intro slot
  have hslot := h slot
  unfold SnapshotCowWrite.resetPrepared
  split
  next => exact hslot
  next token htoken =>
    simp only [pending, htoken] at hslot
    simp only [call, pending, count_append, count_singleton]
    by_cases heq : token.slot = slot
    · simp [heq, hslot, Nat.add_assoc]
    · simp [heq, hslot]

theorem Holding.resetPrepared (h : s.Holding ts) : s.resetPrepared.Holding ts := by
  obtain ⟨hts, hstarted, hgate, hcompleted, hpublished, happended⟩ := s.resetPrepared_frame
  exact ⟨hts.trans h.timestamp, hstarted.trans h.commitStarted, hgate.trans h.gate,
    hcompleted.trans h.completed, mt hpublished.mp h.published, mt happended.mp h.appended⟩

theorem Done.resetPrepared (h : s.Done ts) : s.resetPrepared.Done ts := by
  obtain ⟨hts, -, hgate, hcompleted, hpublished, happended⟩ := s.resetPrepared_frame
  exact ⟨hts.trans h.timestamp, hgate.trans h.gate, hcompleted.trans h.completed,
    hpublished.trans (h.published.trans happended.symm)⟩

section

/-- The state after a timestamp has been given up or installed. -/
theorem release_eq {generation : Option Nat} (hts : s.timestamp = some ts)
    (hstarted : generation.isSome → s.commitStarted = true) :
    ∃ s', s.release generation = (s', .ok) ∧ s'.timestamp = none ∧ s'.gate = .kOpen ∧
      s'.preparedSnapshot = s.preparedSnapshot ∧
      s'.log = s.log ++ [.finishUpdateTimestamp ts generation] := by
  have hcheck : ¬ (generation.isSome ∧ !s.commitStarted) := by
    rintro ⟨hsome, hnot⟩
    simp [hstarted hsome] at hnot
  unfold release
  rw [hts]
  simp only [hcheck, if_false]
  exact ⟨_, rfl, rfl, rfl, rfl, rfl⟩

theorem Holding.call_prepareSnapshot (h : s.Holding ts) (slot : Nat) :
    (s.call (.prepareSnapshot slot)).Holding ts where
  timestamp := h.timestamp
  commitStarted := h.commitStarted
  gate := h.gate
  completed := by simp [call, h.completed]
  published := by simp [call, h.published]
  appended := by simp [call, h.appended]

variable (h : s.Inv ts)
include h

theorem Inv.resetPrepared : s.resetPrepared.Inv ts where
  balanced := h.balanced.resetPrepared
  phase := h.phase.imp Holding.resetPrepared Done.resetPrepared

/-- A transaction that gives up its timestamp has neither logged nor published. -/
theorem Inv.release_none (hheld : s.Holding ts) :
    ∃ s', s.release none = (s', .ok) ∧ s'.Inv ts ∧ s'.Done ts ∧
      s'.preparedSnapshot = s.preparedSnapshot := by
  obtain ⟨s', heq, hts, hgate, hprepared, hlog⟩ :=
    @release_eq ts s none hheld.timestamp (by simp)
  have hdone : s'.Done ts := by
    refine ⟨hts, hgate, ?_, ?_⟩
    · simp [hlog, hheld.completed]
    · simp [hlog, hheld.published, hheld.appended]
  refine ⟨s', heq, ⟨fun slot => ?_, .inr hdone⟩, hdone, hprepared⟩
  simpa [hlog, pending, hprepared] using h.balanced slot

/-- After `Abort` the timestamp is completed and no slot is pending. -/
theorem Inv.abort :
    ∃ s', s.abort = (s', .ok) ∧ s'.Inv ts ∧ s'.Done ts ∧ s'.preparedSnapshot = none := by
  have hreset := h.resetPrepared
  unfold SnapshotCowWrite.abort
  obtain hheld | hdone := hreset.phase
  · obtain ⟨s', heq, hinv, hdone, hprepared⟩ := hreset.release_none hheld
    have hactive : s.resetPrepared.active = true := by simp [active, hheld.timestamp]
    rw [if_pos hactive]
    exact ⟨s', heq, hinv, hdone, by simp [hprepared]⟩
  · have hactive : ¬ s.resetPrepared.active = true := by simp [active, hdone.timestamp]
    rw [if_neg hactive]
    exact ⟨_, rfl, hreset, hdone, by simp⟩

/-- A second prepare returns the slot of the first. -/
theorem Inv.emplacePrepared (hheld : s.Holding ts) (token : PreparedSnapshot) :
    (s.emplacePrepared token).Inv ts := by
  have hheld' := (hheld.call_prepareSnapshot token.slot).resetPrepared
  refine ⟨fun slot => ?_, .inl ⟨hheld'.1, hheld'.2, hheld'.3, hheld'.4, hheld'.5, hheld'.6⟩⟩
  have hslot := h.balanced slot
  simp only [SnapshotCowWrite.emplacePrepared, SnapshotCowWrite.resetPrepared, pending] at hslot ⊢
  cases hprepared : s.preparedSnapshot with
  | none =>
    simp only [hprepared] at hslot
    simp only [call, hprepared, count_append, count_singleton]
    by_cases heq : token.slot = slot <;> simp [heq, hslot]
  | some older =>
    simp only [hprepared] at hslot
    simp only [call, hprepared, count_append, count_singleton]
    by_cases heq : token.slot = slot <;> by_cases holder : older.slot = slot <;>
      simp [heq, holder] at hslot ⊢ <;> omega

/-- What a method leaves: the invariant, and a stopped process only where an append
threw, with nothing published. -/
structure Kept (ts : Nat) (threw : Prop) (r : SnapshotCowWrite × CowResult) : Prop where
  inv : r.1.Inv ts
  stopped : r.2.isStopped = true → threw ∧ r.1.Holding ts

variable {threw : Prop}

omit h in
theorem Kept.of_not_stopped {r : SnapshotCowWrite × CowResult} (hinv : r.1.Inv ts)
    (hresult : r.2.isStopped = false) : Kept ts threw r :=
  ⟨hinv, fun h => absurd h (by simp [hresult])⟩

theorem Inv.kept_abort : Kept ts threw s.abort := by
  obtain ⟨s', heq, hinv, -, -⟩ := h.abort
  rw [heq]
  exact .of_not_stopped hinv rfl

theorem Inv.kept_abortWith (message : String) : Kept ts threw (s.abortWith message) := by
  obtain ⟨s', heq, hinv, -, -⟩ := h.abort
  rw [SnapshotCowWrite.abortWith, heq]
  exact .of_not_stopped hinv rfl

/-- A method of an inactive transaction is called after the timestamp was completed. -/
theorem Inv.holding_of_active (hactive : s.timestamp ≠ none) : s.Holding ts :=
  h.phase.resolve_right fun hdone => hactive hdone.timestamp

theorem Inv.prepareCommit (outcome : PrepareOutcome) : Kept ts threw (s.prepareCommit outcome) := by
  unfold SnapshotCowWrite.prepareCommit
  split
  next => exact .of_not_stopped h rfl
  next hactive =>
    have hheld : s.Holding ts := by
      apply h.holding_of_active
      intro hnone
      simp [active, hnone] at hactive
    split
    next =>
      obtain ⟨s', heq, hinv, -, -⟩ := h.release_none hheld
      rw [heq]
      exact .of_not_stopped hinv rfl
    next =>
      split
      next => exact h.kept_abortWith _
      next =>
        cases outcome with
        | refused error => exact h.kept_abortWith _
        | threw error => exact .of_not_stopped h rfl
        | prepared token => exact .of_not_stopped (h.emplacePrepared hheld token) rfl

end

/-- `begin_update_commit` does not throw in the phase the lease has set. -/
theorem beginCommit_eq (hts : s.timestamp = some ts) (hstarted : s.commitStarted = false)
    (hgate : s.gate = .kInsertsBlocked) :
    ∃ s', s.beginCommit = (s', .ok) ∧ s'.timestamp = some ts ∧ s'.commitStarted = true ∧
      s'.log = s.log ++ [.beginUpdateCommit ts] := by
  unfold beginCommit
  rw [hts]
  simp only [hstarted, hgate, Bool.false_eq_true, if_false, ne_eq, not_true]
  exact ⟨_, rfl, hts, rfl, rfl⟩

section

variable (h : s.Inv ts) {threw : Prop}
include h

/-- `CommitPrepared` cannot fail once the record has been appended. -/
theorem Inv.publishPrepared (hheld : s.Holding ts) {token : PreparedSnapshot}
    (htoken : s.preparedSnapshot = some token) :
    ∃ s', (s.call (.appendWal ts)).publishPrepared token = (s', .ok) ∧ s'.Inv ts := by
  obtain ⟨s₁, hbegin, hts₁, hstarted₁, hlog₁⟩ :=
    @beginCommit_eq ts (s.call (.appendWal ts)) hheld.timestamp hheld.commitStarted hheld.gate
  obtain ⟨s', hrelease, hts, hgate, hprepared, hlog⟩ :=
    @release_eq ts (s₁.publish token) (some token.generation) hts₁ (fun _ => hstarted₁)
  have hall : s'.log = s.log ++ [.appendWal ts] ++ [.beginUpdateCommit ts] ++
      [.publishSnapshot token.slot] ++ [.finishUpdateTimestamp ts (some token.generation)] := by
    rw [hlog, publish, call, hlog₁]
    rfl
  refine ⟨s', by simp only [SnapshotCowWrite.publishPrepared, hbegin, hrelease], ?_⟩
  refine ⟨fun slot => ?_, .inr ⟨hts, hgate, ?_, ?_⟩⟩
  · have hslot := h.balanced slot
    have hnone : s'.preparedSnapshot = none := hprepared
    simp only [pending, htoken] at hslot
    simp only [hall, hnone, pending, count_append, count_singleton]
    by_cases heq : token.slot = slot <;> simp [heq] at hslot ⊢ <;> omega
  · rw [hall]
    simp only [completedTimestamps_append, completedTimestamps_singleton, hheld.completed]
    rfl
  · rw [hall]
    simp only [snapshotPublished_append, walAppended_append, snapshotPublished_singleton,
      walAppended_singleton]
    simp

theorem Inv.commitPrepared {outcome : AppendOutcome}
    (hthrew : ∀ message, outcome = .threw message → threw) :
    Kept ts threw (s.commitPrepared outcome) := by
  cases hts : s.timestamp with
  | none =>
    simp only [SnapshotCowWrite.commitPrepared, hts]
    exact .of_not_stopped h rfl
  | some t =>
    have hheld : s.Holding ts := h.holding_of_active (by simp [hts])
    obtain rfl : t = ts := Option.some.inj (hts.symm.trans hheld.timestamp)
    cases htoken : s.preparedSnapshot with
    | none =>
      simp only [SnapshotCowWrite.commitPrepared, hts, htoken]
      exact h.kept_abortWith _
    | some token =>
      simp only [SnapshotCowWrite.commitPrepared, hts, htoken]
      cases outcome with
      | refused => exact h.kept_abortWith _
      | threw message => exact ⟨h, fun _ => ⟨hthrew message rfl, hheld⟩⟩
      | appended =>
        obtain ⟨s', heq, hinv⟩ := h.publishPrepared hheld htoken
        simp only [heq]
        exact .of_not_stopped hinv rfl

theorem Inv.commit (prepare : PrepareOutcome) {append : AppendOutcome}
    (hthrew : ∀ message, append = .threw message → threw) :
    Kept ts threw (s.commit prepare append) := by
  have hprepare : Kept ts threw _ := h.prepareCommit prepare
  unfold SnapshotCowWrite.commit
  split
  next s' heq =>
    rw [heq] at hprepare
    exact hprepare.inv.commitPrepared hthrew
  next => exact hprepare

theorem Inv.execute (ops bytes : Nat) (planning : Bool) :
    (s.execute ops bytes planning).Inv ts where
  balanced := h.balanced
  phase := h.phase.imp (fun hheld => ⟨hheld.1, hheld.2, hheld.3, hheld.4, hheld.5, hheld.6⟩)
    (fun hdone => ⟨hdone.1, hdone.2, hdone.3, hdone.4⟩)

theorem Inv.perform (c : CowCall) : Kept ts c.AppendThrows (s.perform c) := by
  cases c with
  | execute ops bytes planning => exact .of_not_stopped (h.execute ops bytes planning) rfl
  | prepareCommit prepare => exact h.prepareCommit prepare
  | commitPrepared append => exact h.commitPrepared (by rintro _ rfl; trivial)
  | commit prepare append => exact h.commit prepare (by rintro _ rfl; trivial)
  | abort => exact h.kept_abort

/-- The calls in order keep the invariant up to the destructor, which settles what is
left; only an append that throws ends a transaction earlier. -/
theorem Inv.lifetime (calls : List CowCall) : ((s.lifetime calls).2.isStopped = true →
      (∃ c ∈ calls, c.AppendThrows) ∧ (s.lifetime calls).1.Holding ts) ∧
    ((s.lifetime calls).2.isStopped = false → (s.lifetime calls).1.Settled ts) := by
  induction calls generalizing s with
  | nil =>
    obtain ⟨s', heq, hinv, hdone, hprepared⟩ := h.abort
    simp only [lifetime, heq]
    refine ⟨fun hstopped => absurd hstopped (by simp [CowResult.isStopped]), fun _ => ?_⟩
    refine ⟨hdone.completed, fun slot => ?_, hdone.published, hdone.gate⟩
    simpa [pending, hprepared] using hinv.balanced slot
  | cons c rest ih =>
    obtain ⟨hinv, hstopped⟩ := h.perform c
    cases hres : (s.perform c).2.isStopped with
    | true =>
      simp only [lifetime, hres, if_true]
      obtain ⟨hthrows, hheld⟩ := hstopped hres
      exact ⟨fun _ => ⟨⟨c, by simp, hthrows⟩, hheld⟩, fun hno => absurd hno (by simp)⟩
    | false =>
      simp only [lifetime, hres, Bool.false_eq_true, if_false]
      refine ⟨fun hlater => ?_, (ih hinv).2⟩
      obtain ⟨⟨d, hd, hthrows⟩, hheld⟩ := (ih hinv).1 hlater
      exact ⟨⟨d, by simp [hd], hthrows⟩, hheld⟩

end

/-- Every lifetime of a transaction completes its timestamp once, publishes or returns
every slot it has reserved, publishes a snapshot exactly when the record was appended,
and leaves admission open.  The exception is an append that throws: it stops the
process, with the timestamp held and nothing published. -/
theorem lifetime_settles (ts planningGeneration : Nat) (calls : List CowCall) :
    (((create ts planningGeneration).lifetime calls).2.isStopped = false →
      ((create ts planningGeneration).lifetime calls).1.Settled ts) ∧
    (((create ts planningGeneration).lifetime calls).2.isStopped = true →
      (∃ c ∈ calls, c.AppendThrows) ∧
      ((create ts planningGeneration).lifetime calls).1.Holding ts) := by
  obtain ⟨hstopped, hsettled⟩ := (inv_create ts planningGeneration).lifetime calls
  exact ⟨hsettled, hstopped⟩

/-- A prepare that is repeated, a commit and a late abort: the first slot is returned,
the second published, the timestamp completed once. -/
theorem lifetime_settles_repeated_prepare :
    ((create 5 0).lifetime [.execute 1 12 false, .prepareCommit (.prepared ⟨1, 7⟩),
      .commit (.prepared ⟨2, 8⟩) .appended, .abort]).1.Settled 5 ∧
    ((create 5 0).lifetime [.execute 1 12 false, .prepareCommit (.prepared ⟨1, 7⟩),
      .commit (.prepared ⟨2, 8⟩) .appended, .abort]).1.log =
      [.prepareSnapshot 1, .prepareSnapshot 2, .discardSnapshot 1, .appendWal 5,
        .beginUpdateCommit 5, .publishSnapshot 2, .finishUpdateTimestamp 5 (some 8)] :=
  ⟨(lifetime_settles 5 0 _).1 (by decide), by decide⟩

/-- A commit with nothing to log ends without a new snapshot. -/
theorem empty_commit_not_published : ¬ ∀ (ts planningGeneration : Nat) (calls : List CowCall),
      ((create ts planningGeneration).lifetime calls).2.isStopped = false →
      (SnapshotPublished ((create ts planningGeneration).lifetime calls).1.log ↔
        WalAppended ((create ts planningGeneration).lifetime calls).1.log ∨
          ∀ c ∈ calls, c.LogsNothing) := by
  intro h
  have hlog : ((create 5 0).lifetime [.commit (.prepared ⟨1, 7⟩) .appended]).1.log =
      [.finishUpdateTimestamp 5 none] := by decide
  have hiff := h 5 0 [.commit (.prepared ⟨1, 7⟩) .appended] (by decide)
  rw [hlog] at hiff
  have hpublished := hiff.mpr (.inr (by simp [CowCall.LogsNothing]))
  simp at hpublished

end SnapshotCowWrite

end Neug.Transaction
