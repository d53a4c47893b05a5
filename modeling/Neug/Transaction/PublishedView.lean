import Neug.Transaction.WriteTimestampsSteps

/-! # The published read view

`advance_read_ts_locked` ends by publishing the frontier together with the installed
generation.  Two things make the pair meaningful: the holder of the lock sees the
frontier it has advanced itself, and the holder of an exclusive timestamp is the only
one that installs a generation.  An exclusive timestamp is the next one after the
frontier, so its completion always moves the frontier past it.  All this is within one
timeline, that is, as long as no reset takes place.
-/

namespace Neug.Transaction

open Function
open TimestampWindow Library

variable {Tid : Type*}

/-- What a completing thread knows of the frontier, of its own timestamp if it is
exclusive, and of the view it is about to publish. -/
def ViewOk (clock : WriteClock Tid) : TsPc → Prop
  | .completing e ts .lock | .completing e ts .check | .completing e ts .advanceLoad =>
    e = true → ts = clock.readTs + 1 ∧ ts ∈ clock.timeline.completed
  | .completing e ts (.probe _) | .completing e ts (.clear _) | .completing e ts (.store _) =>
    e = true → ts ≤ clock.readTs + 1 ∧ ts ∈ clock.timeline.completed
  | .completing e ts (.publishLoad current) =>
    current = clock.readTs ∧ (e = true → ts ≤ clock.readTs)
  | .completing e ts (.publishStore current generation) =>
    current = clock.readTs ∧ generation = clock.installedGeneration ∧
      (e = true → ts ≤ clock.readTs)
  | .completing e ts .unlock => e = true → ts ≤ clock.readTs
  | _ => True

/-- The thread has read the frontier for the view it publishes. -/
def TsPc.Viewing : TsPc → Prop
  | completing _ _ (.publishLoad _) => True
  | completing _ _ (.publishStore _ _) => True
  | _ => False

def TsPc.exclusiveTs : TsPc → Option Nat
  | holding true ts => some ts
  | completing true ts _ => some ts
  | _ => none

variable {p : TsPc}

theorem TsPc.exclusive_of_exclusiveTs {ts : Nat} (h : p.exclusiveTs = some ts) : p.Exclusive := by
  cases p with
  | holding e | completing e =>
    cases e
    · cases h
    · rfl
  | idle | reserving | refused | resetting | sealing => cases h

theorem TsPc.Viewing.active (h : p.Viewing) : p.Active := by
  cases p <;> first | exact h.elim | trivial

/-- What a thread knows is protected by the lock or by being alone. -/
theorem ViewOk.stable {clock clock' : WriteClock Tid} (h : ViewOk clock p)
    (hread : p.Exclusive ∨ p.Viewing → clock'.readTs = clock.readTs)
    (hinstalled : p.Viewing → clock'.installedGeneration = clock.installedGeneration)
    (hcompleted : ∀ ts ∈ clock.timeline.completed, p.Exclusive → ts ∈ clock'.timeline.completed) :
    ViewOk clock' p := by
  cases p with
  | completing e ts pc =>
    cases pc with
    | mark => trivial
    | lock | check | advanceLoad | probe c | clear c | store c =>
      intro he
      rw [hread (.inl he)]
      exact ⟨(h he).1, hcompleted ts (h he).2 he⟩
    | publishLoad c =>
      have heq := hread (.inr trivial)
      exact ⟨h.1.trans heq.symm, fun he => heq ▸ h.2 he⟩
    | publishStore c g =>
      have heq := hread (.inr trivial)
      exact ⟨h.1.trans heq.symm, h.2.1.trans (hinstalled trivial).symm,
        fun he => heq ▸ h.2.2 he⟩
    | unlock =>
      intro he
      rw [hread (.inl he)]
      exact h he
  | idle | reserving | refused | holding | resetting | sealing => trivial

/-- A reservation changes nothing that a view depends on. -/
theorem reserveOn_frame (clock : WriteClock Tid) (pc : ReservePc) (spurious : Bool) :
    (reserveOn clock pc spurious).1.readTs = clock.readTs ∧
      (reserveOn clock pc spurious).1.installedGeneration = clock.installedGeneration ∧
      (reserveOn clock pc spurious).1.publishedView = clock.publishedView ∧
      (reserveOn clock pc spurious).1.timeline.completed = clock.timeline.completed := by
  unfold reserveOn
  split <;> exact ⟨rfl, rfl, rfl, rfl⟩

namespace TsState

variable {s : TsState Tid}

/-- A view that is being published belongs to the holder of the lock. -/
theorem Inv.lock_of_viewing (hinv : s.Inv) {t : Tid} (h : (s.threads t).Viewing) :
    s.clock.lock = some t := by
  have hlocal := hinv.localOk t
  cases hp : s.threads t with
  | completing e ts pc =>
    rw [hp] at h hlocal
    cases pc <;> first | exact h.elim | exact hlocal
  | idle | reserving | refused | holding | resetting | sealing =>
    rw [hp] at h
    exact h.elim

structure ViewInv (s : TsState Tid) : Prop where
  view_le : s.clock.publishedView.visibilityTs ≤ s.clock.readTs
  thread : ∀ t, ViewOk s.clock (s.threads t)

namespace ViewInv

variable [DecidableEq Tid] {t : Tid} {clock' : WriteClock Tid} {p' : TsPc}

theorem move (hview : s.ViewInv)
    (hread : ∀ u, u ≠ t → (s.threads u).Exclusive ∨ (s.threads u).Viewing →
      clock'.readTs = s.clock.readTs) (hinstalled : ∀ u, u ≠ t → (s.threads u).Viewing →
      clock'.installedGeneration = s.clock.installedGeneration)
    (hcompleted : ∀ ts ∈ s.clock.timeline.completed, ts ∈ clock'.timeline.completed)
    (hle : clock'.publishedView.visibilityTs ≤ clock'.readTs) (hself : ViewOk clock' p') :
    ViewInv ⟨clock', update s.threads t p'⟩ := by
  refine ⟨hle, ?_⟩
  refine (forall_update_iff s.threads fun _ p => ViewOk clock' p).mpr ⟨hself, ?_⟩
  intro u hut
  exact (hview.thread u).stable (hread u hut) (hinstalled u hut) fun ts hts _ => hcompleted ts hts

theorem keep (hview : s.ViewInv) (hself : ViewOk clock' p')
    (hcompleted : ∀ ts ∈ s.clock.timeline.completed, ts ∈ clock'.timeline.completed := by
      exact fun _ h => h)
    (hread : clock'.readTs = s.clock.readTs := by rfl)
    (hinstalled : clock'.installedGeneration = s.clock.installedGeneration := by rfl)
    (hpublished : clock'.publishedView = s.clock.publishedView := by rfl) :
    ViewInv ⟨clock', update s.threads t p'⟩ := by
  apply hview.move (fun _ _ _ => hread) (fun _ _ _ => hinstalled) hcompleted _ hself
  rw [hpublished, hread]
  exact hview.view_le

theorem complete (hview : s.ViewInv) (hinv : s.Inv) {e : Bool} {ts : Nat} {pc : CompletePc}
    (ht : s.threads t = .completing e ts pc) : ViewInv ⟨(completeStep s.clock t ts pc).1,
      update s.threads t (.ofComplete e ts (completeStep s.clock t ts pc).2)⟩ := by
  have hlocal := hinv.localOk t
  have hok := hview.thread t
  rw [ht] at hlocal hok
  have hnext := hinv.clockOk.nextTs_readTs
  cases pc with
  | mark =>
    refine hview.keep (fun he => ?_) fun _ h => List.mem_cons_of_mem _ h
    refine ⟨?_, List.mem_cons_self⟩
    rcases hinv.exclusive_cases (t := t) (by rw [ht]; exact he) (by rw [ht]; exact id) with
      heq | hpending
    · have hbounds := hinv.outstanding_bounds hlocal
      have hreserved := hlocal.2.1
      omega
    · rw [ht] at hpending
      exact Option.some.inj hpending
  | lock =>
    unfold completeStep
    cases hlock : s.clock.lock with
    | none | some => exact hview.keep hok
  | check =>
    unfold completeStep
    by_cases hts : ts = nextTs s.clock.readTs
    · simp only [hts, if_true]
      exact hview.keep (hts ▸ hok)
    · simp only [hts, if_false]
      refine hview.keep fun he => ?_
      exact absurd ((hok he).1.trans hnext.symm) hts
  | advanceLoad =>
    refine hview.keep fun he => ?_
    exact ⟨Nat.le_of_eq (hok he).1, (hok he).2⟩
  | probe c =>
    obtain ⟨hlock, rfl⟩ := hlocal
    unfold completeStep
    by_cases hcompleted : isCompleted s.clock.window (nextTs s.clock.readTs)
    · simp only [hcompleted, if_true]
      exact hview.keep hok
    · simp only [hcompleted, Bool.false_eq_true, if_false]
      refine hview.keep ⟨rfl, fun he => ?_⟩
      obtain ⟨hle, hmem⟩ := hok he
      -- a timestamp right after the frontier would have been found in its slot
      by_contra hgt
      have heq : ts = s.clock.readTs + 1 := by omega
      have hslot := hinv.frontier_slot hlock (by rw [ht]; exact id) (heq ▸ hmem)
      simp [isCompleted, hnext, hslot] at hcompleted
  | clear c => exact hview.keep hok
  | store c =>
    obtain ⟨hlock, rfl, -, -⟩ := hlocal
    have hactive : (s.threads t).Active := by rw [ht]; trivial
    apply hview.move
    · rintro u hut (hexcl | hviewing)
      · exact absurd hexcl (hinv.not_exclusive_of_active hactive hut)
      · have hu := hinv.lock_of_viewing hviewing
        rw [hlock, Option.some.injEq] at hu
        exact absurd hu.symm hut
    · exact fun _ _ _ => rfl
    · exact fun _ h => h
    · have hle := hview.view_le
      change s.clock.publishedView.visibilityTs ≤ nextTs s.clock.readTs
      omega
    · intro he
      obtain ⟨hle, hmem⟩ := hok he
      refine ⟨?_, hmem⟩
      change ts ≤ nextTs s.clock.readTs + 1
      omega
  | publishLoad c => exact hview.keep ⟨hok.1, rfl, hok.2⟩
  | publishStore c g =>
    exact hview.move (fun _ _ _ => rfl) (fun _ _ _ => rfl) (fun _ h => h)
      (Nat.le_of_eq hok.1) hok.2.2
  | unlock => exact hview.keep trivial

theorem step {s' : TsState Tid} (hview : s.ViewInv) (hinv : s.Inv) (hstep : s.Step s')
    (hreset : ∀ t ts pc, s.threads t ≠ .resetting ts pc) : s'.ViewInv := by
  cases hstep with
  | begin | dismiss | finish | beginReset | sealLock | sealUnlock =>
    exact hview.keep trivial
  | reserve t e pc spurious ht =>
    obtain ⟨hread, hinstalled, hpublished, hcompleted⟩ := reserveOn_frame s.clock pc spurious
    refine hview.keep ?_ (fun ts hts => hcompleted ▸ hts) hread hinstalled hpublished
    cases (reserveOn s.clock pc spurious).2 <;> trivial
  | install t ts generation ht =>
    have hexcl : (s.threads t).Exclusive := by rw [ht]; rfl
    refine hview.move (fun _ _ _ => rfl) ?_ (fun _ h => h) hview.view_le trivial
    intro u hut hviewing
    exact absurd hviewing.active (hinv.exclusive t hexcl u hut)
  | complete t e ts pc ht => exact hview.complete hinv ht
  | reset t ts pc ht => exact absurd ht (hreset t ts pc)

end ViewInv

/-- What a step within a timeline does to the frontier, to the exclusive timestamp, to
the published view and to the installed generation. -/
structure ViewEffect (s s' : TsState Tid) : Prop where
  read_le : s.clock.readTs ≤ s'.clock.readTs
  exclusive : ∀ t ts, (s.threads t).exclusiveTs = some ts →
    (s'.threads t).exclusiveTs = some ts ∨ ts ≤ s'.clock.readTs
  published : s'.clock.publishedView = s.clock.publishedView ∨
    s'.clock.publishedView = ⟨s'.clock.readTs, s'.clock.installedGeneration⟩ ∧
      s'.clock.installedGeneration = s.clock.installedGeneration ∧
      ∃ t, (s.threads t).Viewing ∧
        ∀ ts, (s.threads t).exclusiveTs = some ts → ts ≤ s'.clock.readTs
  installed : s'.clock.installedGeneration = s.clock.installedGeneration ∨
    ∃ t ts, s.threads t = .holding true ts ∧ s'.threads t = .completing true ts .mark

namespace ViewEffect

theorem refl (s : TsState Tid) : ViewEffect s s :=
  ⟨Nat.le_refl _, fun _ _ h => .inl h, .inl rfl, .inl rfl⟩

variable [DecidableEq Tid] {t : Tid} {clock' : WriteClock Tid} {p' : TsPc}

section

variable (ht : s.threads t = p)
  (hkept : ∀ ts, p.exclusiveTs = some ts → p'.exclusiveTs = some ts ∨ ts ≤ clock'.readTs)
include ht hkept

theorem exclusive_moved : ∀ (u : Tid) (ts : Nat), (s.threads u).exclusiveTs = some ts →
    (update s.threads t p' u).exclusiveTs = some ts ∨ ts ≤ clock'.readTs :=
  (forall_update_iff s.threads fun u p => ∀ ts, (s.threads u).exclusiveTs = some ts →
    p.exclusiveTs = some ts ∨ ts ≤ clock'.readTs).mpr ⟨ht ▸ hkept, fun _ _ _ hu => .inl hu⟩

/-- A step that touches neither frontier nor view nor generation. -/
theorem keep (hread : clock'.readTs = s.clock.readTs := by rfl)
    (hinstalled : clock'.installedGeneration = s.clock.installedGeneration := by rfl)
    (hpublished : clock'.publishedView = s.clock.publishedView := by rfl) :
    ViewEffect s ⟨clock', update s.threads t p'⟩ :=
  ⟨Nat.le_of_eq hread.symm, exclusive_moved ht hkept, .inl hpublished, .inl hinstalled⟩

end

theorem complete (hview : s.ViewInv) (hinv : s.Inv) {e : Bool} {ts : Nat} {pc : CompletePc}
    (ht : s.threads t = .completing e ts pc) : ViewEffect s ⟨(completeStep s.clock t ts pc).1,
      update s.threads t (.ofComplete e ts (completeStep s.clock t ts pc).2)⟩ := by
  have hlocal := hinv.localOk t
  have hok := hview.thread t
  rw [ht] at hlocal hok
  have hstay : ∀ {pc' : CompletePc} {x : Nat}, (TsPc.completing e ts pc).exclusiveTs = some x →
      (TsPc.completing e ts pc').exclusiveTs = some x := by
    intro pc' x hx
    cases e
    · cases hx
    · exact hx
  cases pc with
  | lock =>
    unfold completeStep
    cases hlock : s.clock.lock <;> exact keep ht fun _ h => .inl (hstay h)
  | check | probe c =>
    simp only [completeStep]
    split <;> exact keep ht fun _ h => .inl (hstay h)
  | mark | advanceLoad | clear c | publishLoad c => exact keep ht fun _ h => .inl (hstay h)
  | store c =>
    obtain ⟨-, rfl, -, -⟩ := hlocal
    refine ⟨?_, exclusive_moved ht fun _ h => .inl (hstay h), .inl rfl, .inl rfl⟩
    change s.clock.readTs ≤ nextTs s.clock.readTs
    rw [hinv.clockOk.nextTs_readTs]
    exact Nat.le_succ _
  | publishStore c g =>
    obtain ⟨hc, hg, hle⟩ := hok
    refine ⟨Nat.le_refl _, exclusive_moved ht fun _ h => .inl (hstay h), .inr ?_, .inl rfl⟩
    refine ⟨by rw [hc, hg]; rfl, rfl, t, by rw [ht]; trivial, fun x hx => ?_⟩
    rw [ht] at hx
    cases e
    · cases hx
    · rw [← Option.some.inj hx]
      exact hle rfl
  | unlock =>
    refine keep ht fun x hx => .inr ?_
    cases e
    · cases hx
    · rw [← Option.some.inj hx]
      exact hok rfl

end ViewEffect

/-- Steps that neither begin nor continue a reset. -/
theorem Step.viewEffect [DecidableEq Tid] {s' : TsState Tid} (hstep : s.Step s')
    (hview : s.ViewInv) (hinv : s.Inv) (hreset : ∀ t ts pc, s.threads t ≠ .resetting ts pc)
    (hreset' : ∀ t ts pc, s'.threads t ≠ .resetting ts pc) : ViewEffect s s' := by
  cases hstep with
  | begin t e hidle hsealing hnone halone =>
    refine .keep rfl fun x hx => ?_
    exact absurd (TsPc.exclusive_of_exclusiveTs hx) (hnone t)
  | reserve t e pc spurious ht =>
    obtain ⟨hread, hinstalled, hpublished, -⟩ := reserveOn_frame s.clock pc spurious
    exact .keep ht nofun hread hinstalled hpublished
  | dismiss t _ _ ht | sealLock t ht | sealUnlock t ht => exact .keep ht nofun
  | install t ts generation ht =>
    exact ⟨Nat.le_refl _, ViewEffect.exclusive_moved ht fun _ => .inl, .inl rfl,
      .inr ⟨t, ts, ht, update_self ..⟩⟩
  | finish t e ts ht =>
    refine .keep ht fun x hx => ?_
    cases e
    · cases hx
    · exact .inl hx
  | complete t e ts pc ht => exact .complete hview hinv ht
  | beginReset t ts ht hwrite => exact absurd (update_self ..) (hreset' t ts .storeWrite)
  | reset t ts pc ht => exact absurd ht (hreset t ts pc)

/-- An exclusive timestamp comes from a reservation of the thread. -/
theorem Step.exclusiveTs_cases [DecidableEq Tid] {s' : TsState Tid} (hstep : s.Step s') {t : Tid}
    {ts : Nat} (h : (s'.threads t).exclusiveTs = some ts) : (s.threads t).exclusiveTs = some ts ∨
      (s.threads t).Exclusive ∧ (s.threads t).exclusiveTs = none ∧
        (s'.threads t).pending = some ts ∧ s'.clock.readTs = s.clock.readTs := by
  have hmoved : ∀ {u : Tid} {p' : TsPc}, (update s.threads u p' t).exclusiveTs = some ts →
      (s.threads t).exclusiveTs = some ts ∨ t = u ∧ p'.exclusiveTs = some ts := by
    intro u p' hp
    by_cases hut : t = u
    · subst hut
      rw [update_self] at hp
      exact .inr ⟨rfl, hp⟩
    · rw [update_of_ne hut] at hp
      exact .inl hp
  cases hstep with
  | reserve u e pc spurious hu =>
    rcases hmoved h with hold | ⟨rfl, hp⟩
    · exact .inl hold
    · refine .inr ?_
      simp only [hu, update_self]
      generalize (reserveOn s.clock pc spurious).2 = progress at hp
      cases e
      · cases progress <;> cases hp
      · refine ⟨rfl, rfl, ?_, (reserveOn_frame s.clock pc spurious).1⟩
        cases progress <;> cases hp
        rfl
  | install u ts' generation hu =>
    refine .inl ((hmoved h).elim id ?_)
    rintro ⟨rfl, hp⟩
    rw [hu]
    exact hp
  | finish u e ts' hu =>
    refine .inl ((hmoved h).elim id ?_)
    rintro ⟨rfl, hp⟩
    rw [hu]
    cases e
    · cases hp
    · exact hp
  | complete u e ts' pc hu =>
    refine .inl ((hmoved h).elim id ?_)
    rintro ⟨rfl, hp⟩
    rw [hu]
    cases hnext : (completeStep s.clock t ts' pc).2 with
    | none =>
      rw [hnext] at hp
      cases hp
    | some pc' =>
      rw [hnext] at hp
      cases e
      · cases hp
      · exact hp
  | reset u ts' pc hu =>
    refine .inl ((hmoved h).elim id ?_)
    rintro ⟨-, hp⟩
    cases hnext : (resetStep s.clock pc).2 <;> rw [hnext] at hp <;> cases hp
  | begin u e hidle hsealing hnone halone | dismiss u e reason hu | beginReset u ts' hu hwrite
  | sealLock u hu hfree | sealUnlock u hu =>
    refine .inl ((hmoved h).elim id ?_)
    rintro ⟨-, hp⟩
    cases hp

end TsState

end Neug.Transaction
