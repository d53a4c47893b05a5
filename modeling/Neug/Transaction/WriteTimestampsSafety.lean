import Neug.Library.Reachability
import Neug.Library.Threads
import Neug.Transaction.WriteTimestamps

/-! # The read frontier under ideal admission

Threads reserve and complete timestamps in any interleaving.  Admission is taken
here as a condition on when a reservation may begin: an exclusive one, as made by
updates and compactions, only while nobody else is busy with a timestamp, an
ordinary one only while no exclusive thread is.  The version manager enforces
this through the operation gate; what follows from it for the read frontier is
independent of how it is enforced.
-/

namespace Neug.Transaction

open Function
open TimestampWindow Library

inductive TsPc where
  | idle
  | reserving (exclusive : Bool) (pc : ReservePc)
  | refused (exclusive : Bool) (reason : Refusal)
  | holding (exclusive : Bool) (ts : Nat)
  | completing (exclusive : Bool) (ts : Nat) (pc : CompletePc)
  | resetting (ts : Nat) (pc : ResetPc)
  | sealing
  deriving DecidableEq, Repr

namespace TsPc

/-- The thread is between beginning a reservation and having completed the
timestamp. -/
def Active : TsPc → Prop
  | reserving _ _ => True
  | holding _ _ => True
  | completing _ _ _ => True
  | resetting _ _ => True
  | _ => False

def Exclusive : TsPc → Prop
  | reserving e _ => e = true
  | holding e _ => e = true
  | completing e _ _ => e = true
  | resetting _ _ => True
  | _ => False

/-- The timestamp the thread has reserved and not yet marked completed. -/
def pending : TsPc → Option Nat
  | holding _ ts => some ts
  | completing _ ts .mark => some ts
  | resetting ts .storeWrite => some ts
  | resetting ts .storeRead => some ts
  | _ => none

/-- The thread is between marking its timestamp and leaving the locked section. -/
def Publishing : TsPc → Prop
  | completing _ _ pc => pc ≠ .mark
  | _ => False

/-- The thread will look at `readTs + 1` before it leaves the locked section. -/
def Responsible (readTs : Nat) : TsPc → Prop
  | completing _ ts .lock => ts = readTs + 1
  | completing _ ts .check => ts = readTs + 1
  | completing _ _ .advanceLoad => True
  | completing _ _ (.probe _) => True
  | completing _ _ (.clear _) => True
  | completing _ _ (.store _) => True
  | _ => False

/-- The slot of `readTs + 1` has been cleared and `readTs` not yet moved. -/
def Storing : TsPc → Prop
  | completing _ _ (.store _) => True
  | _ => False

variable {p : TsPc}

theorem Exclusive.active (h : p.Exclusive) : p.Active := by
  cases p <;> trivial

theorem Responsible.publishing {readTs : Nat} (h : p.Responsible readTs) : p.Publishing := by
  cases p with
  | completing e ts pc => cases pc <;> first | exact h.elim | simp [Publishing]
  | idle | reserving | refused | holding | resetting | sealing => exact h.elim

theorem Publishing.active (h : p.Publishing) : p.Active := by
  cases p <;> trivial

theorem active_of_pending {ts : Nat} (h : p.pending = some ts) : p.Active := by
  cases p <;> trivial

theorem Storing.publishing (h : p.Storing) : p.Publishing := by
  cases p with
  | completing e ts pc => cases pc <;> first | exact h.elim | simp [Publishing]
  | idle | reserving | refused | holding | resetting | sealing => exact h.elim

end TsPc

structure TsState (Tid : Type*) where
  clock : WriteClock Tid
  threads : Tid → TsPc

/-- Where a thread stands after a step of the reservation loop. -/
def TsPc.ofReserve (exclusive : Bool) : ReserveProgress → TsPc
  | .running pc => .reserving exclusive pc
  | .reserved ts => .holding exclusive ts
  | .refused reason => .refused exclusive reason

def TsPc.ofComplete (exclusive : Bool) (ts : Nat) : Option CompletePc → TsPc
  | some pc => .completing exclusive ts pc
  | none => .idle

def TsPc.ofReset (ts : Nat) : Option ResetPc → TsPc
  | some pc => .resetting ts pc
  | none => .idle

section System

variable {Tid : Type*} [DecidableEq Tid]

inductive TsState.Step (s : TsState Tid) : TsState Tid → Prop
  | begin (t : Tid) (exclusive : Bool) (hidle : ¬(s.threads t).Active)
      (hsealing : s.threads t ≠ .sealing)
      (hnone : ∀ u, ¬(s.threads u).Exclusive)
      (halone : exclusive = true → ∀ u, ¬(s.threads u).Active) :
      s.Step ⟨s.clock, update s.threads t (.reserving exclusive .load)⟩
  | reserve (t : Tid) (exclusive : Bool) (pc : ReservePc) (spurious : Bool)
      (ht : s.threads t = .reserving exclusive pc) :
      s.Step ⟨(reserveOn s.clock pc spurious).1,
        update s.threads t (.ofReserve exclusive (reserveOn s.clock pc spurious).2)⟩
  | dismiss (t : Tid) (exclusive : Bool) (reason : Refusal)
      (ht : s.threads t = .refused exclusive reason) :
      s.Step ⟨s.clock, update s.threads t .idle⟩
  | install (t : Tid) (ts generation : Nat) (ht : s.threads t = .holding true ts) :
      s.Step ⟨{ s.clock with installedGeneration := generation },
        update s.threads t (.completing true ts .mark)⟩
  | finish (t : Tid) (exclusive : Bool) (ts : Nat) (ht : s.threads t = .holding exclusive ts) :
      s.Step ⟨s.clock, update s.threads t (.completing exclusive ts .mark)⟩
  | complete (t : Tid) (exclusive : Bool) (ts : Nat) (pc : CompletePc)
      (ht : s.threads t = .completing exclusive ts pc) :
      s.Step ⟨(completeStep s.clock t ts pc).1,
        update s.threads t (.ofComplete exclusive ts (completeStep s.clock t ts pc).2)⟩
  | beginReset (t : Tid) (ts : Nat) (ht : s.threads t = .holding true ts)
      (hwrite : s.clock.writeTs = nextTs ts) :
      s.Step ⟨s.clock, update s.threads t (.resetting ts .storeWrite)⟩
  | reset (t : Tid) (ts : Nat) (pc : ResetPc) (ht : s.threads t = .resetting ts pc) :
      s.Step ⟨(resetStep s.clock pc).1,
        update s.threads t (.ofReset ts (resetStep s.clock pc).2)⟩
  | sealLock (t : Tid) (ht : s.threads t = .idle) (hfree : s.clock.lock = none) :
      s.Step ⟨{ s.clock with lock := some t }, update s.threads t .sealing⟩
  | sealUnlock (t : Tid) (ht : s.threads t = .sealing) :
      s.Step ⟨{ s.clock with lock := none }, update s.threads t .idle⟩

def TsState.Initial (s : TsState Tid) : Prop :=
  (∃ view : PublishedReadView, view.visibilityTs < kMaxTimestamp ∧ s.clock = .initTs view) ∧
    ∀ t, s.threads t = .idle

end System

/-! ### The invariant -/

section Invariant

variable {Tid : Type*}

structure ClockOk (clock : WriteClock Tid) : Prop where
  base_le : clock.timeline.base ≤ clock.readTs
  read_lt : clock.readTs < clock.timeline.next
  next_le : clock.timeline.next ≤ kMaxTimestamp
  mem_reserved : ∀ ts, ts ∈ clock.timeline.reserved ↔
    clock.timeline.base < ts ∧ ts < clock.timeline.next
  nodup_reserved : clock.timeline.reserved.Nodup
  completed_reserved : ∀ ts ∈ clock.timeline.completed,
    clock.timeline.base < ts ∧ ts < clock.timeline.next
  published : ∀ ts, clock.timeline.base < ts → ts ≤ clock.readTs → ts ∈ clock.timeline.completed
  window_sound : ∀ i, clock.window i ≠ 0 → clock.window i ∈ clock.timeline.completed ∧
    clock.readTs < clock.window i ∧ tsIndex (clock.window i) = i
  bounded : clock.timeline.next ≤ clock.readTs + kWindowSize + 1

def Outstanding (clock : WriteClock Tid) (ts : Nat) : Prop :=
  clock.timeline.base < ts ∧ ts < clock.timeline.next ∧ ts ∉ clock.timeline.completed

/-- Facts about a thread inside the completion function. -/
def CompleteOk (clock : WriteClock Tid) (t : Tid) (ts : Nat) : CompletePc → Prop
  | .mark => Outstanding clock ts
  | .lock => True
  | .check => clock.lock = some t
  | .advanceLoad => clock.lock = some t
  | .probe current => clock.lock = some t ∧ current = clock.readTs
  | .clear current => clock.lock = some t ∧ current = clock.readTs ∧
      clock.window (tsIndex (clock.readTs + 1)) = clock.readTs + 1
  | .store current => clock.lock = some t ∧ current = clock.readTs ∧
      clock.readTs + 1 ∈ clock.timeline.completed ∧
      clock.window (tsIndex (clock.readTs + 1)) ≠ clock.readTs + 1
  | .publishLoad _ => clock.lock = some t
  | .publishStore _ _ => clock.lock = some t
  | .unlock => clock.lock = some t

def LocalOk (clock : WriteClock Tid) (t : Tid) : TsPc → Prop
  | .idle => True
  | .reserving _ .load => True
  | .reserving e (.readFrontier c) => c < kMaxTimestamp ∧ (e = true → c = clock.writeTs)
  | .reserving e (.refresh r) => e = false ∧ r ≤ clock.readTs
  | .reserving _ (.cas c) => c < kMaxTimestamp ∧ c ≤ clock.readTs + kWindowSize
  | .refused e reason => (∀ w r, reason ≠ .invariantBroken w r) ∧
      (e = true → reason ≠ .windowFull)
  | .holding e ts => Outstanding clock ts ∧ (e = true → ts + 1 = clock.timeline.next)
  | .completing _ ts pc => CompleteOk clock t ts pc
  | .resetting ts .storeWrite => Outstanding clock ts ∧ ts + 1 = clock.timeline.next
  | .resetting ts .storeRead => Outstanding clock ts ∧ ts + 1 = clock.timeline.next ∧
      clock.writeTs = 1
  | .resetting _ (.initWindow _) => clock.timeline.completed = []
  | .resetting _ _ => True
  | .sealing => clock.lock = some t

structure TsState.Inv (s : TsState Tid) : Prop where
  clockOk : ClockOk s.clock
  localOk : ∀ t, LocalOk s.clock t (s.threads t)
  write_eq : (∀ t ts, s.threads t ≠ .resetting ts .storeRead) →
    s.clock.writeTs = s.clock.timeline.next
  pending_unique : ∀ t u ts, (s.threads t).pending = some ts → (s.threads u).pending = some ts →
    t = u
  pending_of_outstanding : ∀ ts, Outstanding s.clock ts → ∃ t, (s.threads t).pending = some ts
  window_complete : ∀ ts ∈ s.clock.timeline.completed, s.clock.readTs < ts →
    s.clock.window (tsIndex ts) = ts ∨
      ts = s.clock.readTs + 1 ∧ ∃ t, (s.threads t).Storing
  responsible : s.clock.readTs + 1 ∈ s.clock.timeline.completed →
    ∃ t, (s.threads t).Responsible s.clock.readTs
  exclusive : ∀ t, (s.threads t).Exclusive → ∀ u, u ≠ t → ¬(s.threads u).Active

/-! ### Consequences -/

variable {clock' clock : WriteClock Tid}

theorem ClockOk.congr (h : ClockOk clock) (hread : clock'.readTs = clock.readTs)
    (htimeline : clock'.timeline = clock.timeline) (hwindow : clock'.window = clock.window) :
    ClockOk clock' := by
  obtain ⟨w, r, window, lock, generation, view, timeline⟩ := clock'
  subst hread htimeline hwindow
  exact ⟨h.base_le, h.read_lt, h.next_le, h.mem_reserved, h.nodup_reserved,
    h.completed_reserved, h.published, h.window_sound, h.bounded⟩

theorem ClockOk.nextTs_readTs (h : ClockOk clock) : nextTs clock.readTs = clock.readTs + 1 :=
  nextTs_of_lt (Nat.lt_of_lt_of_le h.read_lt h.next_le)

/-- What a thread knows stays true when another thread moves: the lock holder's
view of the frontier is protected by the lock, an exclusive thread's view by
being alone, and outstanding timestamps stay outstanding. -/
theorem LocalOk.stable {u : Tid} {p : TsPc} (hclock : ClockOk clock) (h : LocalOk clock u p)
    (hread : clock.readTs ≤ clock'.readTs)
    (hlock : clock.lock = some u → clock'.lock = some u ∧ clock'.readTs = clock.readTs ∧
      (clock.readTs + 1 ∈ clock.timeline.completed → clock.readTs + 1 ∈ clock'.timeline.completed ∧
        clock'.window (tsIndex (clock.readTs + 1)) = clock.window (tsIndex (clock.readTs + 1))))
    (houtstanding : ∀ ts, p.pending = some ts → Outstanding clock ts → Outstanding clock' ts)
    (hexclusive : p.Exclusive → clock'.writeTs = clock.writeTs ∧ clock'.timeline = clock.timeline) :
    LocalOk clock' u p := by
  cases p with
  | idle => trivial
  | reserving e pc =>
    cases pc with
    | load => trivial
    | readFrontier c =>
      refine ⟨h.1, fun he => ?_⟩
      rw [(hexclusive he).1]
      exact h.2 he
    | refresh r => exact ⟨h.1, Nat.le_trans h.2 hread⟩
    | cas c => exact ⟨h.1, Nat.le_trans h.2 (Nat.add_le_add_right hread _)⟩
  | refused e reason => exact h
  | holding e ts =>
    refine ⟨houtstanding ts rfl h.1, fun he => ?_⟩
    rw [(hexclusive he).2]
    exact h.2 he
  | completing e ts pc =>
    cases pc with
    | mark => exact houtstanding ts rfl h
    | lock => trivial
    | check | advanceLoad | publishLoad | publishStore | unlock => exact (hlock h).1
    | probe c =>
      obtain ⟨hheld, rfl⟩ := h
      obtain ⟨hl, hr, -⟩ := hlock hheld
      exact ⟨hl, hr.symm⟩
    | clear c =>
      obtain ⟨hheld, rfl, hslot⟩ := h
      obtain ⟨hl, hr, hkeep⟩ := hlock hheld
      have hsound := hclock.window_sound (tsIndex (clock.readTs + 1)) (by omega)
      rw [hslot] at hsound
      refine ⟨hl, hr.symm, ?_⟩
      rw [hr, (hkeep hsound.1).2]
      exact hslot
    | store c =>
      obtain ⟨hheld, rfl, hcompleted, hslot⟩ := h
      obtain ⟨hl, hr, hkeep⟩ := hlock hheld
      obtain ⟨hcompleted', hwindow⟩ := hkeep hcompleted
      refine ⟨hl, hr.symm, ?_, ?_⟩
      · rw [hr]
        exact hcompleted'
      · rw [hr, hwindow]
        exact hslot
  | resetting ts pc =>
    obtain ⟨hw, htl⟩ := hexclusive trivial
    cases pc with
    | storeWrite => exact ⟨houtstanding ts rfl h.1, htl ▸ h.2⟩
    | storeRead => exact ⟨houtstanding ts rfl h.1, htl ▸ h.2.1, hw ▸ h.2.2⟩
    | initWindow i =>
      change clock'.timeline.completed = []
      rw [htl]
      exact h
    | publishLoad => trivial
    | publishStore g => trivial
  | sealing => exact (hlock h).1

/-- A thread that is not busy with a timestamp depends on nothing but the lock. -/
theorem LocalOk.of_inactive {u : Tid} {p : TsPc} (h : LocalOk clock u p) (hinactive : ¬p.Active)
    (hlock : clock'.lock = clock.lock) : LocalOk clock' u p := by
  cases p with
  | idle => trivial
  | refused e reason => exact h
  | sealing => exact hlock.trans h
  | reserving | holding | completing | resetting => exact absurd trivial hinactive

namespace TsState.Inv

variable {s : TsState Tid}

variable {t : Tid} {p' : TsPc} {ts : Nat}

theorem localAt (hinv : s.Inv) {p : TsPc} (ht : s.threads t = p) : LocalOk s.clock t p :=
  ht ▸ hinv.localOk t

/-- What some thread does and `t` does not, another thread does. -/
theorem elsewhere {P : TsPc → Prop} (ht : ¬P (s.threads t)) (h : ∃ u, P (s.threads u)) :
    ∃ u, u ≠ t ∧ P (s.threads u) := by
  obtain ⟨u, hu⟩ := h
  exact ⟨u, fun hut => ht (hut ▸ hu), hu⟩

section

variable (hinv : s.Inv)
include hinv

theorem pending_elsewhere (ht : (s.threads t).pending ≠ some ts)
    (hts : Outstanding s.clock ts) : ∃ u, u ≠ t ∧ (s.threads u).pending = some ts :=
  elsewhere (P := fun p => p.pending = some ts) ht (hinv.pending_of_outstanding ts hts)

theorem not_exclusive_of_active {u : Tid} (hactive : (s.threads t).Active)
    (hut : u ≠ t) : ¬(s.threads u).Exclusive := by
  intro hexcl
  exact hinv.exclusive u hexcl t (Ne.symm hut) hactive

/-- The counter is the first unreserved timestamp while somebody reserves. -/
theorem writeTs_eq_of_active (hactive : (s.threads t).Active)
    (hself : ∀ ts, s.threads t ≠ .resetting ts .storeRead) :
    s.clock.writeTs = s.clock.timeline.next := by
  apply hinv.write_eq
  refine (and_forall_ne t).mp ⟨hself, fun u hut ts hu => ?_⟩
  apply hinv.not_exclusive_of_active hactive hut
  rw [hu]
  trivial

theorem outstanding_of_pending (hpending : (s.threads t).pending = some ts) :
    Outstanding s.clock ts := by
  have hlocal := hinv.localOk t
  cases hp : s.threads t with
  | holding e ts' =>
    rw [hp] at hpending hlocal
    simp only [TsPc.pending, Option.some.injEq] at hpending
    exact hpending ▸ hlocal.1
  | completing e ts' pc =>
    rw [hp] at hpending hlocal
    cases pc <;> simp only [TsPc.pending, Option.some.injEq, reduceCtorEq] at hpending
    exact hpending ▸ hlocal
  | resetting ts' pc =>
    rw [hp] at hpending hlocal
    cases pc <;> simp only [TsPc.pending, Option.some.injEq, reduceCtorEq] at hpending
    · exact hpending ▸ hlocal.1
    · exact hpending ▸ hlocal.1
  | idle | reserving | refused | sealing =>
    rw [hp] at hpending
    cases hpending

/-- An outstanding timestamp lies above the frontier, within one window. -/
theorem outstanding_bounds (h : Outstanding s.clock ts) :
    s.clock.readTs < ts ∧ ts ≤ s.clock.readTs + kWindowSize := by
  obtain ⟨hbase, hnext, hnot⟩ := h
  have hbound := hinv.clockOk.bounded
  constructor
  · by_contra hle
    exact hnot (hinv.clockOk.published ts hbase (by omega))
  · omega

/-- A completed timestamp above the frontier lies within one window of it. -/
theorem completed_bounds (h : ts ∈ s.clock.timeline.completed)
    (hlt : s.clock.readTs < ts) : s.clock.readTs < ts ∧ ts ≤ s.clock.readTs + kWindowSize := by
  have hrange := hinv.clockOk.completed_reserved ts h
  have hbound := hinv.clockOk.bounded
  exact ⟨hlt, by omega⟩

/-- A completed timestamp right above the frontier is in its slot whenever the
lock holder is not about to store. -/
theorem frontier_slot (hheld : s.clock.lock = some t) (hself : ¬(s.threads t).Storing)
    (hcompleted : s.clock.readTs + 1 ∈ s.clock.timeline.completed) :
    s.clock.window (tsIndex (s.clock.readTs + 1)) = s.clock.readTs + 1 := by
  rcases hinv.window_complete _ hcompleted (Nat.lt_succ_self _) with hslot | ⟨-, u, hu⟩
  · exact hslot
  · have hut : u = t := by
      have hlocal := hinv.localOk u
      cases hp : s.threads u with
      | completing e ts pc =>
        rw [hp] at hu hlocal
        cases pc <;> first | exact hu.elim | skip
        rw [hlocal.1, Option.some.injEq] at hheld
        exact hheld
      | idle | reserving | refused | holding | resetting | sealing =>
        rw [hp] at hu
        exact hu.elim
    subst hut
    exact absurd hu hself

/-- Nothing is lost: with no completer on its way through the locked section the
timestamp after the frontier is not completed. -/
theorem frontier_not_completed (hquiet : ∀ t, ¬(s.threads t).Publishing) :
    s.clock.readTs + 1 ∉ s.clock.timeline.completed := by
  intro hcompleted
  obtain ⟨t, ht⟩ := hinv.responsible hcompleted
  exact hquiet t ht.publishing

/-- An exclusive thread that is not on its way through the locked section finds the frontier
caught up, or holds the timestamp right after it. -/
theorem exclusive_cases (hexcl : (s.threads t).Exclusive)
    (hown : ¬(s.threads t).Responsible s.clock.readTs) :
    s.clock.readTs + 1 = s.clock.timeline.next ∨
      (s.threads t).pending = some (s.clock.readTs + 1) := by
  have hlt := hinv.clockOk.read_lt
  have hbase := hinv.clockOk.base_le
  by_contra hnot
  obtain ⟨hne, hpending⟩ := not_or.mp hnot
  by_cases hcompleted : s.clock.readTs + 1 ∈ s.clock.timeline.completed
  · obtain ⟨u, hu⟩ := hinv.responsible hcompleted
    by_cases hut : u = t
    · exact hown (hut ▸ hu)
    · exact hinv.exclusive t hexcl u hut hu.publishing.active
  · obtain ⟨u, hu⟩ := hinv.pending_of_outstanding (s.clock.readTs + 1)
      ⟨by omega, by omega, hcompleted⟩
    by_cases hut : u = t
    · exact hpending (hut ▸ hu)
    · exact hinv.exclusive t hexcl u hut (TsPc.active_of_pending hu)

end

/-! ### Preservation -/

variable [DecidableEq Tid]

/-- A step after which the clock is `clock'` and the moving thread is at `p'`.
The premises are what the moving thread has to show about itself and about the
clock; the rest follows for all threads together. -/
theorem move (hinv : s.Inv) {clock' : WriteClock Tid} (hclock : ClockOk clock')
    (hself : LocalOk clock' t p') (hothers : ∀ u, u ≠ t → LocalOk clock' u (s.threads u))
    (hwrite : (∀ ts, p' ≠ .resetting ts .storeRead) →
      (∀ u, u ≠ t → ∀ ts, s.threads u ≠ .resetting ts .storeRead) →
      clock'.writeTs = clock'.timeline.next)
    (hfresh : ∀ u ts, u ≠ t → p'.pending = some ts → (s.threads u).pending ≠ some ts)
    (hpending : ∀ ts, Outstanding clock' ts →
      p'.pending = some ts ∨ ∃ u, u ≠ t ∧ (s.threads u).pending = some ts)
    (hwindow : ∀ ts ∈ clock'.timeline.completed, clock'.readTs < ts →
      clock'.window (tsIndex ts) = ts ∨
        ts = clock'.readTs + 1 ∧ (p'.Storing ∨ ∃ u, u ≠ t ∧ (s.threads u).Storing))
    (hresponsible : clock'.readTs + 1 ∈ clock'.timeline.completed →
      p'.Responsible clock'.readTs ∨ ∃ u, u ≠ t ∧ (s.threads u).Responsible clock'.readTs)
    (hactive : p'.Active → (s.threads t).Active ∨ ∀ u, ¬(s.threads u).Exclusive)
    (hexclusive : p'.Exclusive → (s.threads t).Exclusive ∨ ∀ u, ¬(s.threads u).Active) :
    TsState.Inv ⟨clock', update s.threads t p'⟩ := by
  have hsome : ∀ P : TsPc → Prop, (P p' ∨ ∃ u, u ≠ t ∧ P (s.threads u)) →
      ∃ u, P (update s.threads t p' u) := by
    rintro P (hp | ⟨u, hut, hu⟩)
    · exact ⟨t, by rwa [update_self]⟩
    · exact ⟨u, by rwa [update_of_ne hut]⟩
  refine ⟨hclock, ?_, ?_, ?_, ?_, ?_, ?_, ?_⟩
  · exact (forall_update_iff s.threads fun u p => LocalOk clock' u p).mpr
      ⟨hself, hothers⟩
  · intro hnone
    obtain ⟨hself', hothers'⟩ := (forall_update_iff s.threads
      fun _ p => ∀ ts, p ≠ TsPc.resetting ts .storeRead).mp hnone
    exact hwrite hself' hothers'
  · intro u v ts hu hv
    simp only at hu hv
    by_cases hut : u = t <;> by_cases hvt : v = t
    · rw [hut, hvt]
    · subst hut
      rw [update_self] at hu
      rw [update_of_ne hvt] at hv
      exact absurd hv (hfresh v ts hvt hu)
    · subst hvt
      rw [update_self] at hv
      rw [update_of_ne hut] at hu
      exact absurd hu (hfresh u ts hut hv)
    · rw [update_of_ne hut] at hu
      rw [update_of_ne hvt] at hv
      exact hinv.pending_unique u v ts hu hv
  · intro ts hts
    exact hsome (fun p => p.pending = some ts) (hpending ts hts)
  · intro ts hts hlt
    rcases hwindow ts hts hlt with hslot | ⟨hnext, hstoring⟩
    · exact .inl hslot
    · exact .inr ⟨hnext, hsome TsPc.Storing hstoring⟩
  · intro hcompleted
    exact hsome (TsPc.Responsible clock'.readTs) (hresponsible hcompleted)
  · intro u hu v hvu
    simp only at hu ⊢
    by_cases hut : u = t
    · subst hut
      rw [update_self] at hu
      rw [update_of_ne hvu]
      rcases hexclusive hu with hself | hnone
      · exact hinv.exclusive u hself v hvu
      · exact hnone v
    · rw [update_of_ne hut] at hu
      by_cases hvt : v = t
      · subst hvt
        rw [update_self]
        intro hv
        rcases hactive hv with hself | hnone
        · exact hinv.exclusive u hu v hvu hself
        · exact hnone u hu
      · rw [update_of_ne hvt]
        exact hinv.exclusive u hu v hvu

/-- A step that leaves counter, frontier, window and history alone; it may take
or release the lock and publish a view. -/
theorem relocate (hinv : s.Inv) {p : TsPc} (ht : s.threads t = p) {clock' : WriteClock Tid}
    (hlock : ∀ u, u ≠ t → s.clock.lock = some u → clock'.lock = some u)
    (hself : LocalOk clock' t p') (hpending : p'.pending = p.pending)
    (hreset : ∀ ts, p ≠ .resetting ts .storeRead) (hstoring : ¬p.Storing)
    (hresponsible : p.Responsible s.clock.readTs →
      p'.Responsible s.clock.readTs ∨ s.clock.readTs + 1 ∉ s.clock.timeline.completed)
    (hactive : p'.Active → p.Active ∨ ∀ u, ¬(s.threads u).Exclusive)
    (hexclusive : p'.Exclusive → p.Exclusive ∨ ∀ u, ¬(s.threads u).Active)
    (hw : clock'.writeTs = s.clock.writeTs := by rfl)
    (hr : clock'.readTs = s.clock.readTs := by rfl)
    (hwin : clock'.window = s.clock.window := by rfl)
    (htl : clock'.timeline = s.clock.timeline := by rfl) :
    TsState.Inv ⟨clock', update s.threads t p'⟩ := by
  subst ht
  have houtstanding : ∀ ts, Outstanding clock' ts ↔ Outstanding s.clock ts := by
    intro ts
    simp only [Outstanding, htl]
  apply hinv.move (hinv.clockOk.congr hr htl hwin) hself
  · intro u hut
    refine (hinv.localOk u).stable hinv.clockOk (by rw [hr]) ?_ ?_ (fun _ => ⟨hw, htl⟩)
    · intro hu
      exact ⟨hlock u hut hu, hr, fun hc => ⟨by rwa [htl], by rw [hwin]⟩⟩
    · intro ts _ hts
      exact (houtstanding ts).mpr hts
  · intro _ hnone
    rw [hw, htl]
    exact hinv.write_eq ((and_forall_ne t).mp ⟨hreset, hnone⟩)
  · intro u ts hut hts hu
    rw [hpending] at hts
    exact hut (hinv.pending_unique u t ts hu hts)
  · intro ts hts
    obtain ⟨u, hu⟩ := hinv.pending_of_outstanding ts ((houtstanding ts).mp hts)
    by_cases hut : u = t
    · subst hut
      exact .inl (hpending.trans hu)
    · exact .inr ⟨u, hut, hu⟩
  · intro ts hts hlt
    rw [htl] at hts
    rw [hr] at hlt ⊢
    rw [hwin]
    rcases hinv.window_complete ts hts hlt with hslot | ⟨hnext, hsome⟩
    · exact .inl hslot
    · exact .inr ⟨hnext, .inr (elsewhere hstoring hsome)⟩
  · intro hcompleted
    rw [htl, hr] at hcompleted
    rw [hr]
    obtain ⟨u, hu⟩ := hinv.responsible hcompleted
    by_cases hut : u = t
    · subst hut
      exact .inl ((hresponsible hu).resolve_right (not_not_intro hcompleted))
    · exact .inr ⟨u, hut, hu⟩
  · exact hactive
  · exact hexclusive

end TsState.Inv

end Invariant

end Neug.Transaction
