import Neug.Transaction.OperationGateSafety

/-! # The reader counter at its maximum

A reader adds its unit before it looks at the counter.  When the counter is full
the unit carries into the inserter field, and until it is taken back every thread
decodes a word with one inserter too many and no reader at all.  As long as no
reader finds the counter full, the decoded fields are the true ones.
-/

namespace Neug.Transaction

open Function Relation
open OperationGateWord AdmissionState Library

theorem readers_le (word : GateWord) : readers word ≤ kMaxReaderCount := by
  rw [readers_eq, kMaxReaderCount]
  omega

namespace GateState

section

variable {Tid : Type*} [Fintype Tid]

def sharedHolders (s : GateState Tid) : Nat :=
  tally (fun l => l.held.readerUnits) s.threads

/-- The decoded inserter count and phase are the true ones, and no reader beyond
the maximum is admitted. -/
structure Truthful (s : GateState Tid) : Prop where
  inserters_eq : inserters s.word = tally inserterUnits s.threads
  owned : ∀ t o, (s.threads t).held = .owner o → phase s.word = some o.phase
  unowned : (∀ t o, (s.threads t).held ≠ .owner o) → phase s.word = some kOpen
  admitted_le : s.sharedHolders ≤ kMaxReaderCount

variable {s s' : GateState Tid} {t : Tid} {word' : GateWord} {l' : GateLocal}

theorem Truthful.of_inv (hinv : s.Inv)
    (hopen : (∀ t o, (s.threads t).held ≠ .owner o) → phase s.word = some kOpen) : s.Truthful := by
  refine ⟨hinv.counted.inserters_eq, hinv.excluded.owner_phase, hopen, ?_⟩
  calc s.sharedHolders ≤ tally readerUnits s.threads :=
        Finset.sum_le_sum fun t _ => Nat.le_add_right _ _
    _ = readers s.word := hinv.counted.readers_eq.symm
    _ ≤ kMaxReaderCount := readers_le s.word

/-- A step of a thread that owns nothing leaves the phase alone unless it enters
one; a step of an owner keeps it an owner or reopens the gate. -/
theorem phase_effect (hcount : Counted s.word s.threads)
    (hroom : (s.threads t).pc.Counting → readers s.word < kMaxReaderCount)
    (heffect : GateEffect s.word (s.threads t) word' l') :
    phase word' = some kOpen ∨ (∃ o, l'.held = .owner o) ∨
      phase word' = phase s.word ∧ ∀ o, (s.threads t).held ≠ .owner o := by
  have hread := hcount.readers_eq ▸ units_le_tally readerUnits s.threads t
  have hins := hcount.inserters_eq ▸ units_le_tally inserterUnits s.threads t
  cases heffect with
  | quiet hheld =>
    by_cases howner : ∃ o, (s.threads t).held = .owner o
    · exact .inr (.inl (hheld ▸ howner))
    · exact .inr (.inr ⟨rfl, not_exists.mp howner⟩)
  | count hcounting _ hheld | speculate _ _ hcounting hheld =>
    exact .inr (.inr ⟨(add_reader_fields (hroom hcounting)).1, by simp [hheld]⟩)
  | uncount hunits hheld =>
    exact .inr (.inr ⟨(sub_reader_fields (by omega)).1, hheld⟩)
  | admitInserter _ hroom' hheld =>
    exact .inr (.inr ⟨(incrementInserter_fields hroom').1, by simp [hheld]⟩)
  | dropInserter hheld =>
    simp only [inserterUnits, hheld, Held.inserterUnits] at hins
    exact .inr (.inr ⟨(sub_inserter_fields hins).1, by simp [hheld]⟩)
  | enter o _ _ hheld' | advance _ o _ hheld' | drain _ o _ hheld' =>
    exact .inr (.inl ⟨o, hheld'⟩)
  | leave => exact .inl (phase_withPhase _ _)

variable [DecidableEq Tid]

theorem Truthful.step (hinv : s.Inv) (htrue : s.Truthful) (hstep : s.Step s') : s'.Truthful := by
  refine .of_inv (hinv.step hstep) fun hnone => ?_
  cases hstep with
  | leave u _ | call u _ _ _ =>
    refine htrue.unowned fun v o hv => ?_
    by_cases hvu : v = u
    · subst hvu
      exact hnone v o (by simpa using hv)
    · exact hnone v o (by simpa [update_of_ne hvu] using hv)
  | access u chance h hroom =>
    rcases hinv.coherent u with hout | ⟨c, held, hperm, hcall⟩
    · rw [gateStep, hout] at h
      cases h
    · rcases phase_effect hinv.counted hroom (gateStep_effect hperm hcall h) with
        hopen | ⟨o, howner⟩ | ⟨hphase, hfree⟩
      · exact hopen
      · exact absurd howner (by simpa using hnone u o)
      · refine hphase.trans (htrue.unowned fun v o hv => ?_)
        by_cases hvu : v = u
        · exact hfree o (hvu ▸ hv)
        · exact hnone v o (by simpa [update_of_ne hvu] using hv)

theorem inv_and_truthful (hreach : Reachable Initial Step s) : s.Inv ∧ s.Truthful := by
  refine Reachable.invariant (fun s => s.Inv ∧ s.Truthful) ?_ ?_ hreach
  · intro s hinit
    exact ⟨.of_initial hinit, .of_inv (.of_initial hinit) fun _ => by simp [hinit.1]⟩
  · rintro s s' - ⟨hinv, htrue⟩ hstep
    exact ⟨hinv.step hstep, htrue.step hinv hstep⟩

/-- The decoded word is true in every state of a run in which each reader finds the
counter below its maximum when it adds its unit. -/
theorem truthful_of_reachable (hreach : Reachable Initial Step s) : s.Truthful :=
  (inv_and_truthful hreach).2

omit [Fintype Tid] in
/-- A thread outside the gate can come to the point where it adds its unit. -/
theorem reaches_sharedAdd (hreach : Reachable Initial Step s)
    (hout : s.threads t = ⟨.nothing, .outside⟩) (hopen : phase s.word ≠ some kAllBlocked) :
    Reachable Initial Step ⟨s.word, update s.threads t ⟨.nothing, .sharedAdd false⟩⟩ := by
  have hcall := hreach.tail (.call t (.acquireShared false) (by simp [hout, GatePc.Idle])
    (by simp [hout, GateCall.Permitted]))
  have hload : gateStep s.word ⟨.nothing, .sharedLoad false⟩ ⟨false, false⟩ =
      some (s.word, ⟨.nothing, .sharedAdd false⟩) := by simp [gateStep, sharedTest, hopen]
  rw [hout] at hcall
  have hadd := hcall.tail (.access t ⟨false, false⟩ (by simpa [GateCall.start] using hload)
    (by simp [GateCall.start, GatePc.Counting]))
  simpa using hadd

end

/-- `n` of the threads are admitted readers, the others have not called. -/
def crowd (N n : Nat) : GateState (Fin N) :=
  ⟨.ofNat n, fun t => if t.val < n then ⟨.shared, .returned (.admitted true)⟩
    else ⟨.nothing, .outside⟩⟩

theorem fields_ofNat {n : Nat} (h : n ≤ kMaxReaderCount) :
    phase (.ofNat n) = some kOpen ∧ readers (.ofNat n) = n := by
  rw [kMaxReaderCount] at h
  have hval : (UInt64.ofNat n).toNat = n := by
    rw [UInt64.toNat_ofNat']
    omega
  rw [phase_eq, readers_eq, hval, Nat.div_eq_of_lt (by omega), Nat.mod_eq_of_lt (by omega)]
  exact ⟨rfl, rfl⟩

/-- The crowd when the next thread is about to add its unit. -/
def arriving (N n : Nat) (hN : n < N) : GateState (Fin N) :=
  ⟨.ofNat n, update (crowd N n).threads ⟨n, hN⟩ ⟨.nothing, .sharedAdd false⟩⟩

section

variable {N n : Nat}

theorem reachable_arriving (hcrowd : Reachable Initial Step (crowd N n))
    (hle : n ≤ kMaxReaderCount) (hN : n < N) : Reachable Initial Step (arriving N n hN) :=
  reaches_sharedAdd hcrowd (by simp [crowd]) (by simp [crowd, fields_ofNat hle])

/-- Readers are admitted one after the other until the counter is full. -/
theorem reachable_crowd (hle : n ≤ kMaxReaderCount) (hN : n ≤ N) :
    Reachable Initial Step (crowd N n) := by
  induction n with
  | zero => exact .of_init ⟨rfl, fun t => by simp [crowd]⟩
  | succ n ih =>
    obtain ⟨hphase, hreaders⟩ := fields_ofNat (Nat.le_of_lt hle)
    have hcrowd := ih (by omega) (by omega)
    have hstep : gateStep (.ofNat n) ⟨.nothing, .sharedAdd false⟩ ⟨false, false⟩ =
        some (.ofNat n + kReaderUnit, ⟨.shared, .returned (.admitted true)⟩) := by
      simp [gateStep, hphase, hreaders, Nat.not_le.mpr hle]
    have hnext := (reachable_arriving hcrowd (Nat.le_of_lt hle) hN).tail
      (.access ⟨n, hN⟩ ⟨false, false⟩ (by simpa [arriving] using hstep)
        fun _ => by simpa [arriving, hreaders] using Nat.lt_of_succ_le hle)
    convert hnext using 1
    rw [crowd, GateState.mk.injEq]
    refine ⟨UInt64.ofNat_add n 1, ?_⟩
    funext t
    by_cases ht : t = ⟨n, hN⟩
    · simp [ht]
    · have hne : t.val ≠ n := fun h => ht (Fin.ext h)
      simp [update_of_ne ht, arriving, crowd, show t.val < n + 1 ↔ t.val < n by omega]

end

/-- The reader that arrives when all units are taken makes an inserter appear. -/
theorem inserter_appears_at_maximum :
    ∃ (s : GateState (Fin (2 ^ 31))) (t : Fin (2 ^ 31)) (word' : GateWord) (l' : GateLocal),
      Reachable Initial Step s ∧ gateStep s.word (s.threads t) ⟨false, false⟩ = some (word', l') ∧
        inserters word' = 1 ∧ tally inserterUnits (update s.threads t l') = 0 := by
  have hlt : kMaxReaderCount < 2 ^ 31 := by decide
  have hreach := reachable_arriving (reachable_crowd le_rfl hlt.le) le_rfl hlt
  have hpc : (arriving _ _ hlt).threads ⟨_, hlt⟩ = ⟨.nothing, .sharedAdd false⟩ := by
    simp [arriving]
  refine ⟨_, ⟨_, hlt⟩, .ofNat kMaxReaderCount + kReaderUnit,
    ⟨.nothing, .sharedRollback false true⟩, hreach, ?_, by decide, ?_⟩
  · rw [hpc]
    change gateStep (.ofNat kMaxReaderCount) _ _ = _
    decide
  · have htally := tally_update inserterUnits (arriving _ _ hlt).threads ⟨_, hlt⟩
      ⟨.nothing, .sharedRollback false true⟩
    have hunits (pc : GatePc) : inserterUnits ⟨.nothing, pc⟩ = 0 := rfl
    have hfield : inserters (.ofNat kMaxReaderCount) = 0 := by decide
    rw [Nat.add_right_cancel htally, ← (inv_and_truthful hreach).2.inserters_eq]
    exact hfield

/-- Two readers are admitted, then an inserter registers. -/
theorem readers_and_inserter_truthful : ∃ s : GateState (Fin 3), s.sharedHolders = 2 ∧
    (s.threads 2).held = .inserter ∧ inserters s.word = 1 ∧ s.Truthful := by
  have hcrowd : Reachable Initial Step (crowd 3 2) := reachable_crowd (by decide) (by decide)
  have hcall := hcrowd.tail (.call 2 .acquireInserter trivial rfl)
  have hload := hcall.tail (.access 2 ⟨false, false⟩
    (show gateStep _ _ _ = some (.ofNat 2, ⟨.nothing, .inserterCas (.ofNat 2)⟩) by decide)
    fun _ => by decide)
  have hcas := hload.tail (.access 2 ⟨false, false⟩
    (show gateStep _ _ _ = some (incrementInserter (.ofNat 2), ⟨.inserter, .returned .done⟩) by
      decide) fun _ => by decide)
  exact ⟨_, by decide, rfl, by decide, truthful_of_reachable hcas⟩

end GateState

end Neug.Transaction
