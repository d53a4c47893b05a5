import Neug.Transaction.WriteTimestampsSafety

/-! # The read frontier in every interleaving

Each atomic step of reservation, completion and timeline reset preserves the
invariant of the write-timestamp system, so the invariant holds in every
reachable state.  The results read off at the end are the safety of the frontier,
the absence of lost completions and the bounds on outstanding timestamps.
-/

namespace Neug.Transaction

open Function List
open TimestampWindow Library Timeline

variable {Tid : Type*}

namespace TsState.Inv

variable {s : TsState Tid}

/-! ### Reservation -/

variable {t : Tid} {e : Bool} {ts c : Nat}

/-- The head of the reservation loop, entered with the current counter. -/
theorem reserveTest_ok (hinv : s.Inv) (hactive : (s.threads t).Active)
    (hself : ∀ ts, s.threads t ≠ .resetting ts .storeRead) :
    LocalOk s.clock t (.ofReserve e (reserveTest s.clock.writeTs)) := by
  have hwrite := hinv.writeTs_eq_of_active hactive hself
  have hle := hinv.clockOk.next_le
  unfold reserveTest
  split
  next hmax => exact ⟨by simp, by simp⟩
  next hmax => exact ⟨by omega, fun _ => rfl⟩

theorem pending_ofReserve_test (e : Bool) (c : Nat) :
    (TsPc.ofReserve e (reserveTest c)).pending = none := by
  unfold reserveTest
  split <;> rfl

theorem exclusive_ofReserve {progress : ReserveProgress}
    (h : (TsPc.ofReserve e progress).Exclusive) : e = true := by
  cases progress <;> first | exact h | exact h.elim

variable [DecidableEq Tid]

theorem reserve_local (hinv : s.Inv) {pc : ReservePc} {progress : ReserveProgress}
    (ht : s.threads t = .reserving e pc) (hself : LocalOk s.clock t (.ofReserve e progress))
    (hpending : (TsPc.ofReserve e progress).pending = none) :
    TsState.Inv ⟨s.clock, update s.threads t (.ofReserve e progress)⟩ := by
  refine hinv.relocate ht (fun _ _ h => h) hself hpending nofun id nofun ?_ ?_
  · exact fun _ => .inl trivial
  · exact fun h => .inl (exclusive_ofReserve h)

/-- Winning the exchange extends the timeline by one timestamp. -/
theorem reserve_success (hinv : s.Inv) (ht : s.threads t = .reserving e (.cas s.clock.writeTs)) :
    TsState.Inv ⟨{ s.clock with
        writeTs := nextTs s.clock.writeTs
        timeline := { s.clock.timeline with
          reserved := s.clock.writeTs :: s.clock.timeline.reserved } },
      update s.threads t (.holding e s.clock.writeTs)⟩ := by
  have hactive : (s.threads t).Active := by rw [ht]; trivial
  obtain ⟨hmax, hwindow⟩ := hinv.localAt ht
  have hwrite := hinv.writeTs_eq_of_active hactive (by simp [ht])
  obtain ⟨hbase, hlt, hle, hmem, hnodup, hcompleted, hpublished, hsound, hbound⟩ := hinv.clockOk
  have hnext : s.clock.timeline.next = s.clock.timeline.base + 1 +
      s.clock.timeline.reserved.length := rfl
  have hnot : ∀ ts, ts ∈ s.clock.timeline.completed → ts ≠ s.clock.writeTs := by
    intro ts hts heq
    have := (hcompleted ts hts).2
    omega
  apply hinv.move
  · refine ⟨hbase, ?_, ?_, ?_, ?_, ?_, hpublished, hsound, ?_⟩
    all_goals simp only [Timeline.next, length_cons]
    · omega
    · omega
    · intro ts
      rw [mem_cons, hmem]
      omega
    · refine nodup_cons.mpr ⟨?_, hnodup⟩
      rw [hmem]
      omega
    · intro ts hts
      have := hcompleted ts hts
      omega
    · omega
  · refine ⟨⟨?_, ?_, fun hts => hnot _ hts rfl⟩, fun _ => ?_⟩
    all_goals simp only [Timeline.next, length_cons]
    all_goals omega
  · intro u hut
    apply (hinv.localOk u).stable hinv.clockOk
    · exact Nat.le_refl _
    · intro hu
      exact ⟨hu, rfl, fun hc => ⟨hc, rfl⟩⟩
    · rintro ts - ⟨h₁, h₂, h₃⟩
      refine ⟨h₁, ?_, h₃⟩
      simp only [Timeline.next, length_cons]
      omega
    · intro hu
      exact absurd hu (hinv.not_exclusive_of_active hactive hut)
  · intro _ _
    simp only [Timeline.next, length_cons]
    rw [nextTs_of_lt hmax]
    omega
  · intro u ts hut hts hu
    simp only [TsPc.pending, Option.some.injEq] at hts
    have hout := hinv.outstanding_of_pending hu
    have := hout.2.1
    omega
  · rintro ts ⟨h₁, h₂, h₃⟩
    simp only [Timeline.next, length_cons] at h₁ h₂ h₃
    by_cases hts : ts = s.clock.writeTs
    · exact .inl (by rw [hts]; rfl)
    · exact .inr (hinv.pending_elsewhere (by simp [ht, TsPc.pending]) ⟨h₁, by omega, h₃⟩)
  · intro ts hts hread
    rcases hinv.window_complete ts hts hread with hslot | ⟨hn, hsome⟩
    · exact .inl hslot
    · exact .inr ⟨hn, .inr (elsewhere (by simp [ht, TsPc.Storing]) hsome)⟩
  · intro hc
    exact .inr (elsewhere (by simp [ht, TsPc.Responsible]) (hinv.responsible hc))
  · exact fun _ => .inl hactive
  · rw [ht]
    exact .inl

theorem reserve (hinv : s.Inv) {pc : ReservePc} (ht : s.threads t = .reserving e pc)
    (spurious : Bool) : TsState.Inv ⟨(reserveOn s.clock pc spurious).1,
      update s.threads t (.ofReserve e (reserveOn s.clock pc spurious).2)⟩ := by
  have hactive : (s.threads t).Active := by rw [ht]; trivial
  have hnotReset : ∀ ts, s.threads t ≠ .resetting ts .storeRead := by simp [ht]
  have hwrite := hinv.writeTs_eq_of_active hactive hnotReset
  have hlt := hinv.clockOk.read_lt
  have hok := hinv.localAt ht
  have htest : ∀ pc', reserveStep s.clock.writeTs s.clock.readTs pc' spurious =
      (s.clock.writeTs, reserveTest s.clock.writeTs) →
      s.threads t = .reserving e pc' →
      TsState.Inv ⟨(reserveOn s.clock pc' spurious).1,
        update s.threads t (.ofReserve e (reserveOn s.clock pc' spurious).2)⟩ := by
    intro pc' hstep ht'
    rw [reserveOn_of_not_reserved hstep (reserveTest_ne_reserved _)]
    exact hinv.reserve_local ht' (hinv.reserveTest_ok hactive hnotReset)
      (pending_ofReserve_test e _)
  cases pc with
  | load => exact htest _ rfl ht
  | readFrontier c =>
    obtain ⟨hc, hexclusive⟩ := hok
    -- An exclusive reservation meets a frontier that has caught up.
    have hexact : e = true → outstanding c s.clock.readTs = 1 := by
      rintro rfl
      have hfrontier := (hinv.exclusive_cases (t := t) (by rw [ht]; rfl)
        (by rw [ht]; exact id)).resolve_right (by rw [ht]; nofun)
      have hcw := hexclusive rfl
      simp only [outstanding, kMaxTimestamp] at *
      omega
    by_cases hfull : kWindowSize < outstanding c s.clock.readTs
    · have hshared : e = false := by
        cases e with
        | false => rfl
        | true =>
          rw [hexact rfl, kWindowSize] at hfull
          omega
      by_cases hstale : c ≤ s.clock.readTs
      · have hstep : reserveStep s.clock.writeTs s.clock.readTs (.readFrontier c) spurious =
            (s.clock.writeTs, .running (.refresh s.clock.readTs)) := by
          simp [reserveStep, hfull, hstale]
        rw [reserveOn_of_not_reserved hstep (by simp)]
        exact hinv.reserve_local ht ⟨hshared, Nat.le_refl _⟩ rfl
      · have hstep : reserveStep s.clock.writeTs s.clock.readTs (.readFrontier c) spurious =
            (s.clock.writeTs, .refused .windowFull) := by
          simp [reserveStep, hfull, hstale]
        rw [reserveOn_of_not_reserved hstep (by simp)]
        exact hinv.reserve_local ht ⟨by simp, by simp [hshared]⟩ rfl
    · have hstep : reserveStep s.clock.writeTs s.clock.readTs (.readFrontier c) spurious =
          (s.clock.writeTs, .running (.cas c)) := by
        simp [reserveStep, hfull]
      rw [reserveOn_of_not_reserved hstep (by simp)]
      refine hinv.reserve_local ht ⟨hc, ?_⟩ rfl
      simp only [outstanding, kMaxTimestamp, kWindowSize] at *
      omega
  | refresh r =>
    apply htest _ ?_ ht
    have hgt : ¬s.clock.writeTs ≤ r := by
      have := hok.2
      omega
    simp only [reserveStep, hgt, if_false]
  | cas c =>
    by_cases hwin : s.clock.writeTs = c ∧ ¬spurious
    · obtain ⟨rfl, hspurious⟩ := hwin
      have hstep : reserveOn s.clock (.cas s.clock.writeTs) spurious =
          ({ s.clock with
              writeTs := nextTs s.clock.writeTs
              timeline := { s.clock.timeline with
                reserved := s.clock.writeTs :: s.clock.timeline.reserved } },
            .reserved s.clock.writeTs) := by
        simp [reserveOn, reserveStep, hspurious]
      rw [hstep]
      exact hinv.reserve_success ht
    · apply htest _ ?_ ht
      simp only [reserveStep, hwin, if_false]

/-! ### Completion -/

theorem mark (hinv : s.Inv) (ht : s.threads t = .completing e ts .mark) :
    TsState.Inv ⟨(completeStep s.clock t ts .mark).1,
      update s.threads t (.completing e ts .lock)⟩ := by
  have hactive : (s.threads t).Active := by rw [ht]; trivial
  have hout : Outstanding s.clock ts := hinv.outstanding_of_pending (by rw [ht]; rfl)
  have hbounds := hinv.outstanding_bounds hout
  have hslot : ∀ ts' ∈ s.clock.timeline.completed, s.clock.readTs < ts' →
      tsIndex ts' ≠ tsIndex ts := by
    intro ts' hts' hlt
    refine tsIndex_ne ?_ (hinv.completed_bounds hts' hlt) hbounds
    rintro rfl
    exact hout.2.2 hts'
  have hclock := hinv.clockOk
  apply hinv.move
  · refine ⟨hclock.base_le, hclock.read_lt, hclock.next_le, hclock.mem_reserved,
      hclock.nodup_reserved, ?_, ?_, ?_, hclock.bounded⟩
    · exact forall_mem_cons.mpr ⟨⟨hout.1, hout.2.1⟩, hclock.completed_reserved⟩
    · intro ts' h₁ h₂
      exact mem_cons_of_mem _ (hclock.published ts' h₁ h₂)
    · intro i hi
      simp only [completeStep] at hi ⊢
      by_cases hit : i = tsIndex ts
      · subst hit
        rw [markCompleted_self]
        exact ⟨mem_cons_self, hbounds.1, rfl⟩
      · rw [markCompleted_of_ne _ hit] at hi ⊢
        obtain ⟨h₁, h₂, h₃⟩ := hclock.window_sound i hi
        exact ⟨mem_cons_of_mem _ h₁, h₂, h₃⟩
  · trivial
  · intro u hut
    apply (hinv.localOk u).stable hclock
    · exact Nat.le_refl _
    · intro hu
      refine ⟨hu, rfl, fun hc => ⟨mem_cons_of_mem _ hc, ?_⟩⟩
      exact markCompleted_of_ne _ (hslot _ hc (Nat.lt_succ_self _))
    · rintro ts' hpending ⟨h₁, h₂, h₃⟩
      refine ⟨h₁, h₂, ?_⟩
      intro hmem
      rcases mem_cons.mp hmem with rfl | hold
      · exact hut (hinv.pending_unique u t ts' hpending (by rw [ht]; rfl))
      · exact h₃ hold
    · intro hu
      exact absurd hu (hinv.not_exclusive_of_active hactive hut)
  · intro _ _
    exact hinv.writeTs_eq_of_active hactive (by simp [ht])
  · intro u ts' _ hts'
    cases hts'
  · rintro ts' ⟨h₁, h₂, h₃⟩
    simp only [completeStep, mem_cons, not_or] at h₃
    refine .inr (hinv.pending_elsewhere ?_ ⟨h₁, h₂, h₃.2⟩)
    rw [ht]
    exact fun hts => h₃.1 (Option.some.inj hts).symm
  · intro ts' hts' hlt
    simp only [completeStep] at hlt ⊢
    rcases mem_cons.mp hts' with rfl | hold
    · exact .inl (markCompleted_self _ _)
    · rw [markCompleted_of_ne _ (hslot ts' hold hlt)]
      rcases hinv.window_complete ts' hold hlt with hkeep | ⟨hnext, hsome⟩
      · exact .inl hkeep
      · exact .inr ⟨hnext, .inr (elsewhere (by simp [ht, TsPc.Storing]) hsome)⟩
  · intro hc
    rcases mem_cons.mp hc with hself | hold
    · exact .inl hself.symm
    · exact .inr (elsewhere (by simp [ht, TsPc.Responsible]) (hinv.responsible hold))
  · exact fun _ => .inl hactive
  · rw [ht]
    exact .inl

section

variable (hinv : s.Inv)
include hinv

theorem lock (ht : s.threads t = .completing e ts .lock) :
    TsState.Inv ⟨(completeStep s.clock t ts .lock).1,
      update s.threads t (.ofComplete e ts (completeStep s.clock t ts .lock).2)⟩ := by
  cases hlock : s.clock.lock with
  | none =>
    simp only [completeStep, hlock]
    refine hinv.relocate ht ?_ rfl rfl nofun id .inl (fun _ => .inl trivial) .inl
    intro u _ hu
    rw [hlock] at hu
    cases hu
  | some u =>
    simp only [completeStep, hlock]
    exact hinv.relocate ht (fun _ _ h => h) trivial rfl nofun id .inl (fun _ => .inl trivial) .inl

/-- The loop of `advance_read_ts_locked` looks at the next timestamp. -/
theorem probe (ht : s.threads t = .completing e ts (.probe c)) :
    TsState.Inv ⟨(completeStep s.clock t ts (.probe c)).1, update s.threads t
        (.ofComplete e ts (completeStep s.clock t ts (.probe c)).2)⟩ := by
  obtain ⟨hheld, rfl⟩ := hinv.localAt ht
  have hnext := hinv.clockOk.nextTs_readTs
  by_cases hslot : s.clock.window (tsIndex (s.clock.readTs + 1)) = s.clock.readTs + 1
  · simp only [completeStep, hnext, isCompleted, hslot, beq_self_eq_true, if_true]
    exact hinv.relocate ht (fun _ _ h => h) ⟨hheld, rfl, hslot⟩ rfl nofun id .inl
      (fun _ => .inl trivial) .inl
  · simp only [completeStep, hnext, isCompleted, beq_iff_eq, hslot, if_false]
    refine hinv.relocate ht (fun _ _ h => h) hheld rfl nofun id (fun _ => ?_)
      (fun _ => .inl trivial) .inl
    refine .inr fun hcompleted => hslot (hinv.frontier_slot hheld ?_ hcompleted)
    rw [ht]
    exact id

/-- The slot of the timestamp after the frontier is emptied. -/
theorem clear (ht : s.threads t = .completing e ts (.clear c)) :
    TsState.Inv ⟨(completeStep s.clock t ts (.clear c)).1,
      update s.threads t (.completing e ts (.store c))⟩ := by
  have hactive : (s.threads t).Active := by rw [ht]; trivial
  obtain ⟨hheld, rfl, hslot⟩ := hinv.localAt ht
  have hclock := hinv.clockOk
  have hcompleted : s.clock.readTs + 1 ∈ s.clock.timeline.completed := by
    have hsound := hclock.window_sound (tsIndex (s.clock.readTs + 1)) (by omega)
    rw [hslot] at hsound
    exact hsound.1
  have hnext := hclock.nextTs_readTs
  have hother : ∀ ts' ∈ s.clock.timeline.completed, s.clock.readTs < ts' →
      ts' ≠ s.clock.readTs + 1 → tsIndex ts' ≠ tsIndex (s.clock.readTs + 1) := by
    intro ts' hts' hlt hne
    exact tsIndex_ne hne (hinv.completed_bounds hts' hlt)
      (hinv.completed_bounds hcompleted (Nat.lt_succ_self _))
  simp only [completeStep, hnext]
  apply hinv.move
  · refine { hclock with window_sound := fun i hi => ?_ }
    simp only at hi ⊢
    by_cases his : i = tsIndex (s.clock.readTs + 1)
    · subst his
      rw [clear_self _ hslot] at hi
      exact absurd rfl hi
    · rw [clear_of_ne _ his] at hi ⊢
      exact hclock.window_sound i hi
  · refine ⟨hheld, rfl, hcompleted, ?_⟩
    simp only
    rw [clear_self _ hslot]
    omega
  · intro u hut
    apply (hinv.localOk u).stable hclock
    · exact Nat.le_refl _
    · intro hu
      rw [hheld, Option.some.injEq] at hu
      exact absurd hu.symm hut
    · exact fun _ _ h => h
    · intro hu
      exact absurd hu (hinv.not_exclusive_of_active hactive hut)
  · intro _ _
    exact hinv.writeTs_eq_of_active hactive (by simp [ht])
  · intro u ts' _ hts'
    cases hts'
  · intro ts' hts'
    exact .inr (hinv.pending_elsewhere (by simp [ht, TsPc.pending]) hts')
  · intro ts' hts' hlt
    simp only at hlt ⊢
    by_cases hself : ts' = s.clock.readTs + 1
    · exact .inr ⟨hself, .inl trivial⟩
    · rw [clear_of_ne _ (hother ts' hts' hlt hself)]
      rcases hinv.window_complete ts' hts' hlt with hkeep | ⟨heq, -⟩
      · exact .inl hkeep
      · exact absurd heq hself
  · exact fun _ => .inl trivial
  · exact fun _ => .inl hactive
  · rw [ht]
    exact .inl

/-- The frontier moves up by one. -/
theorem store (ht : s.threads t = .completing e ts (.store c)) :
    TsState.Inv ⟨(completeStep s.clock t ts (.store c)).1,
      update s.threads t (.completing e ts (.probe (nextTs c)))⟩ := by
  have hactive : (s.threads t).Active := by rw [ht]; trivial
  obtain ⟨hheld, rfl, hcompleted, hslot⟩ := hinv.localAt ht
  have hclock := hinv.clockOk
  have hrange := hclock.completed_reserved _ hcompleted
  have hnext := hclock.nextTs_readTs
  simp only [completeStep, hnext]
  apply hinv.move
  · refine ⟨?_, hrange.2, hclock.next_le, hclock.mem_reserved, hclock.nodup_reserved,
      hclock.completed_reserved, ?_, ?_, ?_⟩
    · simp only
      omega
    · intro ts' h₁ h₂
      simp only at h₂
      by_cases hself : ts' = s.clock.readTs + 1
      · exact hself ▸ hcompleted
      · exact hclock.published ts' h₁ (by omega)
    · intro i hi
      obtain ⟨h₁, h₂, h₃⟩ := hclock.window_sound i hi
      refine ⟨h₁, ?_, h₃⟩
      -- The slot of the new frontier was emptied before, so no slot still holds it.
      have hne : s.clock.window i ≠ s.clock.readTs + 1 := by
        intro heq
        apply hslot
        rw [heq] at h₃
        rw [h₃]
        exact heq
      simp only
      omega
    · have hbound := hclock.bounded
      simp only
      omega
  · exact ⟨hheld, rfl⟩
  · intro u hut
    apply (hinv.localOk u).stable hclock
    · exact Nat.le_succ _
    · intro hu
      rw [hheld, Option.some.injEq] at hu
      exact absurd hu.symm hut
    · exact fun _ _ h => h
    · intro hu
      exact absurd hu (hinv.not_exclusive_of_active hactive hut)
  · intro _ _
    exact hinv.writeTs_eq_of_active hactive (by simp [ht])
  · intro u ts' _ hts'
    cases hts'
  · intro ts' hts'
    exact .inr (hinv.pending_elsewhere (by simp [ht, TsPc.pending]) hts')
  · intro ts' hts' hlt
    simp only at hlt ⊢
    rcases hinv.window_complete ts' hts' (by omega) with hkeep | ⟨heq, -⟩
    · exact .inl hkeep
    · omega
  · exact fun _ => .inl trivial
  · exact fun _ => .inl hactive
  · rw [ht]
    exact .inl

theorem complete {pc : CompletePc} (ht : s.threads t = .completing e ts pc) :
    TsState.Inv ⟨(completeStep s.clock t ts pc).1,
      update s.threads t (.ofComplete e ts (completeStep s.clock t ts pc).2)⟩ := by
  have hok := hinv.localAt ht
  cases pc with
  | mark => exact hinv.mark ht
  | lock => exact hinv.lock ht
  | check =>
    have hnext := hinv.clockOk.nextTs_readTs
    by_cases hmine : ts = s.clock.readTs + 1
    · subst hmine
      simp only [completeStep, hnext, if_true]
      exact hinv.relocate ht (fun _ _ h => h) hok rfl nofun id
        (fun _ => .inl trivial) (fun _ => .inl trivial) .inl
    · simp only [completeStep, hnext, hmine, if_false]
      exact hinv.relocate ht (fun _ _ h => h) hok rfl nofun id
        (fun h => absurd h hmine) (fun _ => .inl trivial) .inl
  | advanceLoad =>
    exact hinv.relocate ht (fun _ _ h => h) ⟨hok, rfl⟩ rfl nofun id .inl
      (fun _ => .inl trivial) .inl
  | probe c => exact hinv.probe ht
  | clear c => exact hinv.clear ht
  | store c => exact hinv.store ht
  | publishLoad c | publishStore c g =>
    exact hinv.relocate ht (fun _ _ h => h) hok rfl nofun id nofun (fun _ => .inl trivial) .inl
  | unlock =>
    refine hinv.relocate ht (fun u hut hu => ?_) trivial rfl nofun id nofun nofun nofun
    have hheld : s.clock.lock = some t := hok
    rw [hheld, Option.some.injEq] at hu
    exact absurd hu.symm hut

/-! ### Timeline reset -/

omit [DecidableEq Tid] in
/-- While the last timestamp is being abandoned for a new timeline, the frontier
has reached its predecessor and no slot is in use. -/
theorem reset_window_empty {pc : ResetPc} (ht : s.threads t = .resetting ts pc)
    (hpending : (s.threads t).pending = some ts) (hlast : ts + 1 = s.clock.timeline.next)
    (i : Nat) : s.clock.window i = 0 := by
  have hexcl : (s.threads t).Exclusive := by rw [ht]; trivial
  have hout := hinv.outstanding_of_pending hpending
  have hfrontier : ts ≤ s.clock.readTs + 1 := by
    rcases hinv.exclusive_cases hexcl (by rw [ht]; exact id) with heq | hnext
    · omega
    · rw [hpending, Option.some.injEq] at hnext
      omega
  by_contra hne
  obtain ⟨hmem, hlt, -⟩ := hinv.clockOk.window_sound i hne
  have hrange := hinv.clockOk.completed_reserved _ hmem
  have heq : s.clock.window i = ts := by omega
  exact hout.2.2 (heq ▸ hmem)

/-- The counter is set back while the old timeline is still in force. -/
theorem resetStoreWrite (ht : s.threads t = .resetting ts .storeWrite) :
    TsState.Inv ⟨(resetStep s.clock .storeWrite).1,
      update s.threads t (.ofReset ts (resetStep s.clock .storeWrite).2)⟩ := by
  have hexcl : (s.threads t).Exclusive := by rw [ht]; trivial
  have halone := hinv.exclusive t hexcl
  have hclock := hinv.clockOk
  have hok := hinv.localAt ht
  have hpending : (s.threads t).pending = some ts := by rw [ht]; rfl
  apply hinv.move
  · exact hclock.congr rfl rfl rfl
  · exact ⟨hok.1, hok.2, rfl⟩
  · intro u hut
    exact (hinv.localOk u).of_inactive (halone u hut) rfl
  · exact fun h _ => absurd rfl (h ts)
  · intro u ts' hut hts' hu
    exact hut (hinv.pending_unique u t ts' hu (by rw [hpending]; exact hts'))
  · intro ts' hts'
    obtain ⟨u, hu⟩ := hinv.pending_of_outstanding ts' hts'
    by_cases hut : u = t
    · subst hut
      rw [hpending] at hu
      exact .inl hu
    · exact .inr ⟨u, hut, hu⟩
  · intro ts' hts' hlt
    rcases hinv.window_complete ts' hts' hlt with hslot | ⟨hnext, hsome⟩
    · exact .inl hslot
    · exact .inr ⟨hnext, .inr (elsewhere (by simp [ht, TsPc.Storing]) hsome)⟩
  · intro hcompleted
    exact .inr (elsewhere (by simp [ht, TsPc.Responsible]) (hinv.responsible hcompleted))
  · exact fun _ => .inl hexcl.active
  · exact fun _ => .inl hexcl

/-- The frontier is set back and a new timeline begins. -/
theorem resetStoreRead (ht : s.threads t = .resetting ts .storeRead) :
    TsState.Inv ⟨(resetStep s.clock .storeRead).1,
      update s.threads t (.ofReset ts (resetStep s.clock .storeRead).2)⟩ := by
  have hexcl : (s.threads t).Exclusive := by rw [ht]; trivial
  have halone := hinv.exclusive t hexcl
  obtain ⟨hout, hlast, hwrite⟩ := hinv.localAt ht
  have hempty := hinv.reset_window_empty ht (by rw [ht]; rfl) hlast
  apply hinv.move
  · refine ⟨Nat.le_refl _, Nat.one_pos, ?_, ?_, nodup_nil, ?_, ?_, ?_, ?_⟩
    · simp [resetStep, fresh, Timeline.next, kMaxTimestamp]
    · intro ts'
      simp only [resetStep, fresh, Timeline.next, length_nil, not_mem_nil, false_iff]
      omega
    · intro ts' hts'
      cases hts'
    · intro ts' h₁ h₂
      simp only [resetStep, fresh] at h₁ h₂
      omega
    · intro i hi
      exact absurd (hempty i) hi
    · exact Nat.le_add_left _ _
  · rfl
  · intro u hut
    exact (hinv.localOk u).of_inactive (halone u hut) rfl
  · exact fun _ _ => hwrite
  · intro u ts' _ hts'
    cases hts'
  · rintro ts' ⟨h₁, h₂, -⟩
    simp only [resetStep, fresh, Timeline.next, length_nil] at h₁ h₂
    omega
  · intro ts' hts'
    cases hts'
  · intro hcompleted
    cases hcompleted
  · exact fun _ => .inl hexcl.active
  · exact fun _ => .inl hexcl

/-- The slots are emptied; in the new timeline they are in use by nobody. -/
theorem resetInitWindow {i : Nat} (ht : s.threads t = .resetting ts (.initWindow i)) :
    TsState.Inv ⟨(resetStep s.clock (.initWindow i)).1,
      update s.threads t (.ofReset ts (resetStep s.clock (.initWindow i)).2)⟩ := by
  have hexcl : (s.threads t).Exclusive := by rw [ht]; trivial
  have halone := hinv.exclusive t hexcl
  have hclock := hinv.clockOk
  have hok := hinv.localAt ht
  have hnone : s.clock.timeline.completed = [] := hok
  apply hinv.move
  · refine { hclock with window_sound := fun j hj => ?_ }
    simp only [resetStep, initSlot] at hj ⊢
    by_cases hji : j = i
    · subst hji
      rw [update_self] at hj
      exact absurd rfl hj
    · rw [update_of_ne hji] at hj ⊢
      exact hclock.window_sound j hj
  · simp only [resetStep]
    split
    · exact hnone
    · trivial
  · intro u hut
    exact (hinv.localOk u).of_inactive (halone u hut) rfl
  · intro _ _
    exact hinv.writeTs_eq_of_active hexcl.active (by simp [ht])
  · intro u ts' hut hts' hu
    exact halone u hut (TsPc.active_of_pending hu)
  · intro ts' hts'
    exact .inr (hinv.pending_elsewhere (by simp [ht, TsPc.pending]) hts')
  · intro ts' hts'
    simp only [resetStep] at hts'
    rw [hnone] at hts'
    cases hts'
  · intro hcompleted
    simp only [resetStep] at hcompleted
    rw [hnone] at hcompleted
    cases hcompleted
  · exact fun _ => .inl hexcl.active
  · exact fun _ => .inl hexcl

theorem reset {pc : ResetPc} (ht : s.threads t = .resetting ts pc) :
    TsState.Inv ⟨(resetStep s.clock pc).1,
      update s.threads t (.ofReset ts (resetStep s.clock pc).2)⟩ := by
  cases pc with
  | storeWrite => exact hinv.resetStoreWrite ht
  | storeRead => exact hinv.resetStoreRead ht
  | initWindow i => exact hinv.resetInitWindow ht
  | publishLoad | publishStore g =>
    exact hinv.relocate ht (fun _ _ h => h) trivial rfl nofun id nofun
      (fun _ => .inl trivial) fun _ => .inl trivial

end

/-! ### Whole runs -/

theorem step {s' : TsState Tid} (hinv : s.Inv) (hstep : s.Step s') : s'.Inv := by
  cases hstep with
  | begin t e hidle hsealing hnone halone =>
    refine hinv.relocate rfl (fun _ _ h => h) trivial ?_ ?_ ?_ ?_
      (fun _ => .inr hnone) ?_
    · cases hp : (s.threads t).pending with
      | none => rfl
      | some ts => exact absurd (TsPc.active_of_pending hp) hidle
    · intro ts hts
      exact hidle (by rw [hts]; trivial)
    · exact fun h => hidle h.publishing.active
    · exact fun h => absurd h.publishing.active hidle
    · intro h
      exact .inr (halone h)
  | reserve t e pc spurious ht => exact hinv.reserve ht spurious
  | dismiss t e reason ht =>
    exact hinv.relocate ht (fun _ _ h => h) trivial rfl nofun id nofun nofun nofun
  | install t ts generation ht | finish t e ts ht =>
    exact hinv.relocate ht (fun _ _ h => h) (hinv.localAt ht).1 rfl nofun id nofun
      (fun _ => .inl trivial) .inl
  | complete t e ts pc ht => exact hinv.complete ht
  | beginReset t ts ht hwrite =>
    have hok := hinv.localAt ht
    exact hinv.relocate ht (fun _ _ h => h) ⟨hok.1, hok.2 rfl⟩ rfl nofun id nofun
      (fun _ => .inl trivial) fun _ => .inl rfl
  | reset t ts pc ht => exact hinv.reset ht
  | sealLock t ht hfree =>
    refine hinv.relocate ht (fun u _ hu => ?_) rfl rfl nofun id nofun nofun nofun
    rw [hfree] at hu
    cases hu
  | sealUnlock t ht =>
    have hheld := hinv.localAt ht
    refine hinv.relocate ht (fun u hut hu => ?_) trivial rfl nofun id nofun nofun nofun
    rw [show s.clock.lock = some t from hheld, Option.some.injEq] at hu
    exact absurd hu.symm hut

omit [DecidableEq Tid] in
theorem of_initial (h : s.Initial) : s.Inv := by
  obtain ⟨⟨view, hview, hclock⟩, hidle⟩ := h
  have hnext : nextTs view.visibilityTs = view.visibilityTs + 1 := nextTs_of_lt hview
  refine ⟨?_, ?_, ?_, ?_, ?_, ?_, ?_, ?_⟩
  · rw [hclock]
    refine ⟨Nat.le_refl _, Nat.lt_succ_self _, ?_, ?_, nodup_nil, ?_, ?_, ?_, ?_⟩
    · exact Nat.succ_le_of_lt hview
    · intro ts
      simp only [WriteClock.initTs, fresh, Timeline.next, length_nil, not_mem_nil, false_iff]
      omega
    · intro ts hts
      cases hts
    · intro ts h₁ h₂
      simp only [WriteClock.initTs, fresh] at h₁ h₂
      omega
    · intro i hi
      exact absurd rfl hi
    · simp only [WriteClock.initTs, fresh, Timeline.next, length_nil]
      omega
  · intro t
    rw [hidle t]
    trivial
  · intro _
    rw [hclock]
    exact hnext
  · intro t u ts ht
    rw [hidle t] at ht
    cases ht
  · rintro ts ⟨h₁, h₂, -⟩
    rw [hclock] at h₁ h₂
    simp only [WriteClock.initTs, fresh, Timeline.next, length_nil] at h₁ h₂
    omega
  · intro ts hts
    rw [hclock] at hts
    cases hts
  · intro hts
    rw [hclock] at hts
    cases hts
  · intro t ht
    rw [hidle t] at ht
    exact ht.elim

end TsState.Inv

/-- The frontier of `clock'` is in a later timeline, or in the same one and not
behind that of `clock`. -/
def WriteClock.FrontierLe (clock clock' : WriteClock Tid) : Prop :=
  clock.timeline.epoch < clock'.timeline.epoch ∨
    clock.timeline.epoch = clock'.timeline.epoch ∧ clock.readTs ≤ clock'.readTs

theorem WriteClock.FrontierLe.of_eq {clock clock' : WriteClock Tid}
    (hepoch : clock'.timeline.epoch = clock.timeline.epoch)
    (hread : clock'.readTs = clock.readTs) : clock.FrontierLe clock' :=
  .inr ⟨hepoch.symm, hread.ge⟩

theorem WriteClock.FrontierLe.trans {c₁ c₂ c₃ : WriteClock Tid} (h₁ : c₁.FrontierLe c₂)
    (h₂ : c₂.FrontierLe c₃) : c₁.FrontierLe c₃ := by
  rcases h₁ with h₁ | ⟨he₁, hr₁⟩ <;> rcases h₂ with h₂ | ⟨he₂, hr₂⟩
  · exact .inl (h₁.trans h₂)
  · exact .inl (he₂ ▸ h₁)
  · exact .inl (he₁ ▸ h₂)
  · exact .inr ⟨he₁.trans he₂, hr₁.trans hr₂⟩

/-- No step moves the frontier back. -/
theorem TsState.Step.frontierLe [DecidableEq Tid] {s s' : TsState Tid} (hinv : s.Inv)
    (hstep : s.Step s') : s.clock.FrontierLe s'.clock := by
  cases hstep with
  | complete t e ts pc ht =>
    cases pc with
    | lock | check | probe c =>
      simp only [completeStep]
      split <;> exact .of_eq rfl rfl
    | store c =>
      obtain ⟨-, rfl, -, -⟩ := hinv.localAt ht
      have hlt := hinv.clockOk.read_lt
      have hmax := hinv.clockOk.next_le
      refine .inr ⟨rfl, ?_⟩
      simp only [completeStep]
      rw [nextTs_of_lt (by omega)]
      exact Nat.le_succ _
    | mark | advanceLoad | clear c | publishLoad c | publishStore c g | unlock =>
      exact .of_eq rfl rfl
  | reset t ts pc ht =>
    cases pc with
    | storeRead => exact .inl (Nat.lt_succ_self _)
    | storeWrite | initWindow i | publishLoad | publishStore g => exact .of_eq rfl rfl
  | reserve t e pc spurious ht =>
    simp only [reserveOn]
    split <;> exact .of_eq rfl rfl
  | begin | dismiss | install | finish | beginReset | sealLock | sealUnlock =>
    exact .of_eq rfl rfl

end Neug.Transaction
