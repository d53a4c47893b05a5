import Mathlib.Tactic.Common

/-! # Reserving and completing write timestamps

The version manager hands out write timestamps from one counter and publishes
them in order: `read_ts` is the largest timestamp below which everything is
completed.  Completions arrive in any order and are remembered in a ring of
65536 slots.  This file models the two programs that touch these variables,
`ReserveWriteTimestamp` and `complete_write_timestamp`, and the timeline reset,
one atomic access per step.  Timestamps are 32-bit values, written as naturals
with the wrap-around of each addition made explicit.
-/

namespace Neug.Transaction

open Function

def kMaxTimestamp : Nat := 4294967295

def nextTs (ts : Nat) : Nat := (ts + 1) % 4294967296

theorem nextTs_of_lt {ts : Nat} (h : ts < kMaxTimestamp) : nextTs ts = ts + 1 := by
  simp only [nextTs, kMaxTimestamp] at *
  omega

/-! ### The completion window -/

/-- The ring of slots; a slot contains the exact completed timestamp, or zero
when it is empty. -/
abbrev TimestampWindow := Nat → Nat

namespace TimestampWindow

def kWindowSize : Nat := 65536

def tsIndex (ts : Nat) : Nat := ts % kWindowSize

def init : TimestampWindow := fun _ => 0

variable (w : TimestampWindow)

def initSlot (i : Nat) : TimestampWindow :=
  update w i 0

def markCompleted (ts : Nat) : TimestampWindow :=
  update w (tsIndex ts) ts

def isCompleted (ts : Nat) : Bool :=
  w (tsIndex ts) == ts

def clear (ts : Nat) : TimestampWindow :=
  if w (tsIndex ts) = ts then update w (tsIndex ts) 0 else w

/-- Timestamps less than a window apart occupy different slots. -/
theorem tsIndex_ne {r a b : Nat} (hne : a ≠ b) (ha : r < a ∧ a ≤ r + kWindowSize)
    (hb : r < b ∧ b ≤ r + kWindowSize) : tsIndex a ≠ tsIndex b := by
  simp only [tsIndex, kWindowSize] at *
  omega

theorem markCompleted_self (ts : Nat) : markCompleted w ts (tsIndex ts) = ts := by
  rw [markCompleted, update_self]

variable {ts : Nat}

theorem markCompleted_of_ne (w : TimestampWindow) {i : Nat} (h : i ≠ tsIndex ts) :
    markCompleted w ts i = w i := by
  rw [markCompleted, update_of_ne h]

theorem clear_self (w : TimestampWindow) (h : w (tsIndex ts) = ts) :
    clear w ts (tsIndex ts) = 0 := by
  rw [clear, if_pos h, update_self]

theorem clear_of_ne (w : TimestampWindow) {i : Nat} (h : i ≠ tsIndex ts) : clear w ts i = w i := by
  unfold clear
  split
  · rw [update_of_ne h]
  · rfl

end TimestampWindow

open TimestampWindow

/-! ### Shared state -/

/-- What readers take from the version manager in one load: a visibility
timestamp and the generation of the snapshot installed with it. -/
structure PublishedReadView where
  visibilityTs : Nat
  snapshotGeneration : Nat
  deriving DecidableEq, Repr

/-- History of the timeline in progress.  It is not part of the program: it
records which timestamps were reserved and completed since the timeline began
at `base`, so that properties can speak about them. -/
structure Timeline where
  epoch : Nat
  base : Nat
  reserved : List Nat
  completed : List Nat
  deriving DecidableEq, Repr

/-- The first timestamp of the timeline that has not been reserved. -/
def Timeline.next (tl : Timeline) : Nat := tl.base + 1 + tl.reserved.length

def Timeline.fresh (epoch base : Nat) : Timeline := ⟨epoch, base, [], []⟩

structure WriteClock (Tid : Type*) where
  writeTs : Nat
  readTs : Nat
  window : TimestampWindow
  lock : Option Tid
  installedGeneration : Nat
  publishedView : PublishedReadView
  timeline : Timeline

/-- `init_ts`, for an initial view whose timestamp is not the maximum. -/
def WriteClock.initTs {Tid : Type*} (view : PublishedReadView) : WriteClock Tid where
  writeTs := nextTs view.visibilityTs
  readTs := view.visibilityTs
  window := TimestampWindow.init
  lock := none
  installedGeneration := view.snapshotGeneration
  publishedView := view
  timeline := .fresh 0 view.visibilityTs

/-! ### Reservation -/

inductive ReservePc where
  | load
  | readFrontier (candidate : Nat)
  | refresh (currentReadTs : Nat)
  | cas (candidate : Nat)
  deriving DecidableEq, Repr

/-- Why no timestamp was reserved: the two refusals the function returns, and
the exception it throws when a refreshed candidate does not exceed `read_ts`. -/
inductive Refusal where
  | windowFull
  | exhausted
  | invariantBroken (writeTs readTs : Nat)
  deriving DecidableEq, Repr

inductive ReserveProgress where
  | running (pc : ReservePc)
  | reserved (timestamp : Nat)
  | refused (reason : Refusal)
  deriving DecidableEq, Repr

def reserveTest (candidate : Nat) : ReserveProgress :=
  if candidate = kMaxTimestamp then .refused .exhausted else .running (.readFrontier candidate)

/-- `candidate - current_read_ts` on 64-bit values. -/
def outstanding (candidate readTs : Nat) : Nat :=
  (candidate + 18446744073709551616 - readTs) % 18446744073709551616

/-- One atomic access of `ReserveWriteTimestamp`; the first component is the
value of `write_ts` afterwards. -/
def reserveStep (writeTs readTs : Nat) (pc : ReservePc) (spurious : Bool) :
    Nat × ReserveProgress :=
  match pc with
  | .load => (writeTs, reserveTest writeTs)
  | .readFrontier candidate =>
    if kWindowSize < outstanding candidate readTs then
      if candidate ≤ readTs then (writeTs, .running (.refresh readTs))
      else (writeTs, .refused .windowFull)
    else (writeTs, .running (.cas candidate))
  | .refresh currentReadTs =>
    if writeTs ≤ currentReadTs then
      (writeTs, .refused (.invariantBroken writeTs currentReadTs))
    else (writeTs, reserveTest writeTs)
  | .cas candidate =>
    if writeTs = candidate ∧ ¬spurious then (nextTs candidate, .reserved candidate)
    else (writeTs, reserveTest writeTs)

/-! ### Completion -/

inductive CompletePc where
  | mark
  | lock
  | check
  | advanceLoad
  | probe (current : Nat)
  | clear (current : Nat)
  | store (current : Nat)
  | publishLoad (current : Nat)
  | publishStore (current generation : Nat)
  | unlock
  deriving DecidableEq, Repr

section Shared

variable {Tid : Type*}

def reserveOn (clock : WriteClock Tid) (pc : ReservePc) (spurious : Bool) :
    WriteClock Tid × ReserveProgress :=
  match reserveStep clock.writeTs clock.readTs pc spurious with
  | (w, .reserved ts) =>
    ({ clock with
        writeTs := w
        timeline := { clock.timeline with reserved := ts :: clock.timeline.reserved } },
      .reserved ts)
  | (w, progress) => ({ clock with writeTs := w }, progress)

theorem reserveOn_of_not_reserved {clock : WriteClock Tid} {pc : ReservePc} {spurious : Bool}
    {progress : ReserveProgress}
    (h : reserveStep clock.writeTs clock.readTs pc spurious = (clock.writeTs, progress))
    (hnot : ∀ ts, progress ≠ .reserved ts) : reserveOn clock pc spurious = (clock, progress) := by
  unfold reserveOn
  rw [h]
  cases progress with
  | running pc => rfl
  | reserved ts => exact absurd rfl (hnot ts)
  | refused reason => rfl

theorem reserveTest_ne_reserved (candidate ts : Nat) : reserveTest candidate ≠ .reserved ts := by
  unfold reserveTest
  split <;> simp

/-- One atomic access of `complete_write_timestamp(ts)` by thread `t`; the second
component is `none` when the function returns. -/
def completeStep (clock : WriteClock Tid) (t : Tid) (ts : Nat) (pc : CompletePc) :
    WriteClock Tid × Option CompletePc :=
  match pc with
  | .mark =>
    ({ clock with
        window := markCompleted clock.window ts
        timeline := { clock.timeline with completed := ts :: clock.timeline.completed } },
      some .lock)
  | .lock =>
    match clock.lock with
    | none => ({ clock with lock := some t }, some .check)
    | some _ => (clock, some .lock)
  | .check =>
    if ts = nextTs clock.readTs then (clock, some .advanceLoad) else (clock, some .unlock)
  | .advanceLoad => (clock, some (.probe clock.readTs))
  | .probe current =>
    if isCompleted clock.window (nextTs current) then (clock, some (.clear current))
    else (clock, some (.publishLoad current))
  | .clear current =>
    ({ clock with window := TimestampWindow.clear clock.window (nextTs current) },
      some (.store current))
  | .store current =>
    ({ clock with readTs := nextTs current }, some (.probe (nextTs current)))
  | .publishLoad current => (clock, some (.publishStore current clock.installedGeneration))
  | .publishStore current generation =>
    ({ clock with publishedView := ⟨current, generation⟩ }, some .unlock)
  | .unlock => ({ clock with lock := none }, none)

/-! ### Timeline reset -/

/-- Stores of `finish_update_and_reset_timeline`, after its checks. -/
inductive ResetPc where
  | storeWrite
  | storeRead
  | initWindow (i : Nat)
  | publishLoad
  | publishStore (generation : Nat)
  deriving DecidableEq, Repr

def resetStep (clock : WriteClock Tid) (pc : ResetPc) : WriteClock Tid × Option ResetPc :=
  match pc with
  | .storeWrite => ({ clock with writeTs := 1 }, some .storeRead)
  | .storeRead =>
    ({ clock with readTs := 0, timeline := .fresh (clock.timeline.epoch + 1) 0 },
      some (.initWindow 0))
  | .initWindow i =>
    ({ clock with window := initSlot clock.window i },
      some (if i + 1 < kWindowSize then .initWindow (i + 1) else .publishLoad))
  | .publishLoad => (clock, some (.publishStore clock.installedGeneration))
  | .publishStore generation => ({ clock with publishedView := ⟨0, generation⟩ }, none)

end Shared

end Neug.Transaction
