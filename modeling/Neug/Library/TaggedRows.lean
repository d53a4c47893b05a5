import Mathlib.Data.List.Nodup
import Mathlib.Data.List.Enum
import Mathlib.Data.List.Perm.Basic

/-! # Rows tagged with the input row they come from

An operator that answers for each input row separately returns rows that carry the position
of their input row.  It returns what it should exactly when its answer for each input row is
what it should be.
-/

namespace Library

open List

variable {α β : Type*}

/-- The list holds the elements that satisfy `P`, each once. -/
def ExactlyOnce (l : List α) (P : α → Prop) : Prop :=
  l.Nodup ∧ ∀ a, a ∈ l ↔ P a

/-- The answers for each input, tagged with its position. -/
def tagged (inputs : List α) (answer : α → List β) : List (Nat × β) :=
  inputs.zipIdx.flatMap fun input => (answer input.1).map (Prod.mk input.2)

variable {answer : α → List β} {inputs l : List α} {P : α → Prop}

section

variable (h : ExactlyOnce l P)
include h

theorem ExactlyOnce.perm {l' : List α} (hperm : l.Perm l') : ExactlyOnce l' P :=
  ⟨hperm.nodup_iff.mp h.1, fun a => hperm.mem_iff.symm.trans (h.2 a)⟩

theorem ExactlyOnce.map {f : α → β} (hf : Function.Injective f) :
    ExactlyOnce (l.map f) fun b => ∃ a, P a ∧ f a = b := by
  refine ⟨h.1.map hf, fun b => ?_⟩
  simp only [mem_map, h.2]

theorem ExactlyOnce.congr {Q : α → Prop} (hPQ : ∀ a, P a ↔ Q a) : ExactlyOnce l Q :=
  ⟨h.1, fun a => (h.2 a).trans (hPQ a)⟩

/-- Two lists of the same elements, each once, are rearrangements of each other. -/
theorem ExactlyOnce.perm_of {l' : List α} (h' : ExactlyOnce l' P) : l.Perm l' :=
  (perm_ext_iff_of_nodup h.1 h'.1).mpr fun a => (h.2 a).trans (h'.2 a).symm

end

theorem nodup_concat_iff {a : α} : (l ++ [a]).Nodup ↔ l.Nodup ∧ a ∉ l := by
  rw [nodup_append_comm, singleton_append, nodup_cons, and_comm]

theorem mem_tagged {i : Nat} {b : β} :
    (i, b) ∈ tagged inputs answer ↔ ∃ a, inputs[i]? = some a ∧ b ∈ answer a := by
  simp only [tagged, mem_flatMap, mem_map, Prod.exists, Prod.mk.injEq]
  constructor
  · rintro ⟨a, j, ha, c, hc, rfl, rfl⟩
    exact ⟨a, mem_zipIdx_iff_getElem?.mp ha, hc⟩
  · rintro ⟨a, ha, hb⟩
    exact ⟨a, i, mem_zipIdx_iff_getElem?.mpr ha, b, hb, rfl, rfl⟩

theorem tagged_map {γ : Type*} (f : γ → α) (inputs : List γ) (answer : α → List β) :
    tagged (inputs.map f) answer = tagged inputs fun c => answer (f c) := by
  simp [tagged, zipIdx_map, flatMap_map]

theorem map_tagged {γ : Type*} (f : β → γ) (inputs : List α) (answer : α → List β) :
    (tagged inputs answer).map (fun r => (r.1, f r.2)) =
      tagged inputs fun a => (answer a).map f := by
  simp [tagged, map_flatMap, Function.comp_def]

theorem perm_tagged {answer' : α → List β} (h : ∀ a ∈ inputs, (answer a).Perm (answer' a)) :
    (tagged inputs answer).Perm (tagged inputs answer') := by
  refine Perm.flatMap_left _ ?_
  rintro ⟨a, i⟩ hi
  exact (h a (mem_of_getElem? (mem_zipIdx_iff_getElem?.mp hi))).map _

theorem nodup_tagged_iff : (tagged inputs answer).Nodup ↔ ∀ a ∈ inputs, (answer a).Nodup := by
  rw [tagged, nodup_flatMap]
  constructor
  · rintro ⟨h, -⟩ a ha
    obtain ⟨i, hi⟩ := mem_iff_getElem?.mp ha
    exact Nodup.of_map _ (h (a, i) (mem_zipIdx_iff_getElem?.mpr hi))
  · intro h
    refine ⟨?_, ?_⟩
    · rintro ⟨a, i⟩ ha
      refine (h a ?_).map fun b c hbc => (Prod.mk.inj hbc).2
      exact mem_of_getElem? (mem_zipIdx_iff_getElem?.mp ha)
    · -- answers of different inputs carry different tags
      have htags : inputs.zipIdx.Pairwise fun x y => x.2 ≠ y.2 := by
        have hnodup : (inputs.zipIdx.map Prod.snd).Nodup := by
          rw [zipIdx_map_snd]
          exact nodup_range'
        exact pairwise_map.mp hnodup
      refine htags.imp ?_
      rintro ⟨a, i⟩ ⟨b, j⟩ hne ⟨k, c⟩ hc hc'
      simp only [mem_map, Prod.mk.injEq] at hc hc'
      obtain ⟨_, _, rfl, _⟩ := hc
      obtain ⟨_, _, rfl, _⟩ := hc'
      exact hne rfl

/-- The tagged rows are right exactly when the answer for each input is. -/
theorem exactlyOnce_tagged_iff {P : α → β → Prop} :
    ExactlyOnce (tagged inputs answer) (fun r => ∃ a, inputs[r.1]? = some a ∧ P a r.2) ↔
      ∀ a ∈ inputs, ExactlyOnce (answer a) (P a) := by
  unfold ExactlyOnce
  rw [nodup_tagged_iff]
  constructor
  · rintro ⟨hnodup, hmem⟩ a ha
    refine ⟨hnodup a ha, fun b => ?_⟩
    obtain ⟨i, hi⟩ := mem_iff_getElem?.mp ha
    have h := hmem (i, b)
    rw [mem_tagged] at h
    simpa [hi] using h
  · intro h
    refine ⟨fun a ha => (h a ha).1, ?_⟩
    rintro ⟨i, b⟩
    rw [mem_tagged]
    constructor
    · rintro ⟨a, hi, hb⟩
      exact ⟨a, hi, ((h a (mem_of_getElem? hi)).2 b).mp hb⟩
    · rintro ⟨a, hi, hb⟩
      exact ⟨a, hi, ((h a (mem_of_getElem? hi)).2 b).mpr hb⟩

end Library
