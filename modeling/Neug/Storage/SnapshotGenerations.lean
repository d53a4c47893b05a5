import Neug.Storage.GraphSnapshotStoreGuarantees

/-! # Generations identify snapshots

A generation is reserved from a counter that only grows, travels with the thread that
fills a slot and then stands in the slot.  So at no time do two slots, or a slot and a
thread, have the same generation, and every generation in use has been reserved.
-/

namespace Neug.Storage

open Library Function

variable {Tid : Type*} {n : Nat} {G : Type*}

open GraphSnapshotStore

namespace StoreState

/-- The generation in a slot or in the hands of a thread. -/
def generationAt (st : StoreState Tid n G) : Fin n ⊕ Tid → Option Nat
  | .inl i => (st.store.slots i).data.map (·.snapshotGeneration)
  | .inr t => (st.threads t).carried.map (·.snapshotGeneration)

structure GenInv (st : StoreState Tid n G) : Prop where
  le : ∀ {x g}, st.generationAt x = some g → g ≤ st.store.lastReservedGeneration
  inj : ∀ {x y g}, st.generationAt x = some g → st.generationAt y = some g → x = y

variable {st st' : StoreState Tid n G}

/-- Generations that move along a bijection, or disappear, stay distinct. -/
theorem GenInv.rename (h : st.GenInv) (f : Fin n ⊕ Tid ≃ Fin n ⊕ Tid)
    (hat : ∀ x, st'.generationAt x = st.generationAt (f x) ∨ st'.generationAt x = none)
    (hlast : st'.store.lastReservedGeneration = st.store.lastReservedGeneration) : st'.GenInv := by
  have hold : ∀ {x g}, st'.generationAt x = some g → st.generationAt (f x) = some g := by
    intro x g hx
    rcases hat x with heq | hnone
    · rw [← heq, hx]
    · rw [hnone] at hx
      cases hx
  refine ⟨fun hx => hlast ▸ h.le (hold hx), fun hx hy => ?_⟩
  exact f.injective (h.inj (hold hx) (hold hy))

theorem GenInv.fresh (h : st.GenInv) (x : Fin n ⊕ Tid)
    (hself : st'.generationAt x = some (st.store.lastReservedGeneration + 1))
    (hother : ∀ y, y ≠ x → st'.generationAt y = st.generationAt y)
    (hlast : st'.store.lastReservedGeneration = st.store.lastReservedGeneration + 1) :
    st'.GenInv := by
  have hcases : ∀ {y g}, st'.generationAt y = some g →
      (y = x ∧ g = st.store.lastReservedGeneration + 1) ∨
        (st.generationAt y = some g ∧ g ≤ st.store.lastReservedGeneration) := by
    intro y g hy
    by_cases hyx : y = x
    · subst hyx
      rw [hself, Option.some.injEq] at hy
      exact .inl ⟨rfl, hy.symm⟩
    · rw [hother y hyx] at hy
      exact .inr ⟨hy, h.le hy⟩
  refine ⟨fun hy => ?_, fun hy hz => ?_⟩
  · rcases hcases hy with ⟨-, rfl⟩ | ⟨-, hle⟩ <;> omega
  · rcases hcases hy with ⟨rfl, hg⟩ | ⟨hy, hle⟩ <;> rcases hcases hz with ⟨rfl, hg'⟩ | ⟨hz, hle'⟩
    · rfl
    · omega
    · omega
    · exact h.inj hy hz

variable [DecidableEq Tid]

theorem generationAt_moved_other (st : StoreState Tid n G) {t u : Tid}
    (store' : GraphSnapshotStore n G) (pc' : StorePc n G) (hu : u ≠ t) :
    (StoreState.mk store' (update st.threads t pc')).generationAt (.inr u) =
      st.generationAt (.inr u) := by
  simp only [generationAt, update_of_ne hu]

theorem GenInv.step (h : st.GenInv) (hstep : st.Step st') : st'.GenInv := by
  obtain ⟨t, choice, hnext⟩ := hstep
  obtain ⟨⟨store', pc'⟩, hmove, rfl⟩ := Option.map_eq_some_iff.mp hnext
  cases (storeStep_frame hmove).effect with
  | remove hslots hcarried hlast =>
    refine h.rename (.refl _) ?_ hlast
    rintro (i | u)
    · rcases hslots i with heq | hnone
      · exact .inl (congrArg (Option.map _) heq)
      · exact .inr (congrArg (Option.map _) hnone)
    · by_cases hu : u = t
      · subst hu
        simp only [generationAt, update_self, Equiv.refl_apply]
        rcases hcarried with heq | hnone
        · exact .inl (congrArg (Option.map _) heq)
        · exact .inr (congrArg (Option.map _) hnone)
      · exact .inl (st.generationAt_moved_other _ _ hu)
  | reserve data hslots hcarried hlast hgeneration =>
    refine h.fresh (.inr t) ?_ ?_ hlast
    · simp only [generationAt, update_self, hcarried, Option.map_some, hgeneration]
    · rintro (i | u) hne
      · exact congrArg (Option.map _) (hslots i)
      · exact st.generationAt_moved_other _ _ fun heq => hne (congrArg Sum.inr heq)
  | fill i data hpc hpc' hself hslots hlast =>
    -- the generation moves from the thread to the slot
    refine h.rename (Equiv.swap (.inl i) (.inr t)) ?_ hlast
    rintro (j | u)
    · by_cases hj : j = i
      · subst hj
        left
        rw [Equiv.swap_apply_left]
        simp only [generationAt, hself, hpc, StorePc.carried]
      · left
        rw [Equiv.swap_apply_of_ne_of_ne (fun heq => hj (Sum.inl.inj heq)) Sum.inl_ne_inr]
        exact congrArg (Option.map _) (hslots j hj)
    · by_cases hu : u = t
      · subst hu
        right
        simp only [generationAt, update_self, hpc', StorePc.carried, Option.map_none]
      · left
        rw [Equiv.swap_apply_of_ne_of_ne Sum.inr_ne_inl fun heq => hu (Sum.inr.inj heq)]
        exact st.generationAt_moved_other _ _ hu

omit [DecidableEq Tid] in
theorem GenInv.of_initial [NeZero n] (h : st.Initial) : st.GenInv := by
  obtain ⟨graph, generation, rfl⟩ := h
  have hat : ∀ {x g}, (StoreState.mk (.init graph generation)
      (fun _ : Tid => (.idle : StorePc n G))).generationAt x = some g →
      x = .inl 0 ∧ g = generation := by
    rintro (i | u) g hx
    · simp only [generationAt, GraphSnapshotStore.init] at hx
      split at hx
      · next hi =>
          simp only [Option.map_some, Option.some.injEq] at hx
          exact ⟨congrArg _ hi, hx.symm⟩
      · cases hx
    · cases hx
  refine ⟨fun hx => Nat.le_of_eq (hat hx).2, fun hx hy => ?_⟩
  rw [(hat hx).1, (hat hy).1]

end StoreState

end Neug.Storage
