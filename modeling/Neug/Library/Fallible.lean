import Mathlib.Data.List.Forall2

/-! # Computations that may fail

Fallible code returns a value or an error.  The rules here take a successful run
apart: a sequence succeeded because both of its parts did, and a loop succeeded
because each of its rounds did, so what every round keeps holds at the end.
-/

namespace Library

open List

universe u

variable {ε : Type*} {α β σ : Type u}

theorem bind_eq_ok {x : Except ε α} {f : α → Except ε β} {b : β} :
    x >>= f = .ok b ↔ ∃ a, x = .ok a ∧ f a = .ok b := by
  cases x with
  | error e =>
    constructor
    · intro h
      cases h
    · rintro ⟨a, ha, -⟩
      cases ha
  | ok a =>
    constructor
    · exact fun h => ⟨a, rfl, h⟩
    · rintro ⟨a', ha, h⟩
      cases ha
      exact h

theorem mapError_eq_ok {ε' : Type*} {x : Except ε α} {f : ε → ε'} {a : α} :
    x.mapError f = .ok a ↔ x = .ok a := by
  cases x with
  | error e =>
    constructor
    · intro h
      cases h
    · intro h
      cases h
  | ok b =>
    constructor
    · intro h
      cases h
      rfl
    · intro h
      cases h
      rfl

/-- Each element of a list has its partner in a related one. -/
theorem exists_of_forall₂ {α β : Type*} {R : α → β → Prop} {l : List α} {l' : List β}
    (h : Forall₂ R l l') {a : α} (ha : a ∈ l) : ∃ b ∈ l', R a b := by
  induction h with
  | nil => cases ha
  | @cons _ b _ _ hhead _ ih =>
    rcases mem_cons.mp ha with rfl | hrest
    · exact ⟨b, mem_cons_self, hhead⟩
    · obtain ⟨b', hb', hab'⟩ := ih hrest
      exact ⟨b', mem_cons_of_mem b hb', hab'⟩

variable {l' : List β}

section

variable {f : α → Except ε β} {l : List α}

theorem mapM_eq_ok : l.mapM f = .ok l' ↔ Forall₂ (fun a b => f a = .ok b) l l' := by
  induction l generalizing l' with
  | nil =>
    rw [forall₂_nil_left_iff, mapM_nil]
    constructor
    · intro h
      cases h
      rfl
    · rintro rfl
      rfl
  | cons a rest ih =>
    rw [mapM_cons, bind_eq_ok, forall₂_cons_left_iff]
    constructor
    · rintro ⟨b, hb, h⟩
      obtain ⟨bs, hbs, h⟩ := bind_eq_ok.mp h
      cases h
      exact ⟨b, bs, hb, ih.mp hbs, rfl⟩
    · rintro ⟨b, bs, hb, hbs, rfl⟩
      exact ⟨b, hb, bind_eq_ok.mpr ⟨bs, ih.mpr hbs, rfl⟩⟩

theorem exists_ok_of_mapM (h : l.mapM f = .ok l') {a : α} (ha : a ∈ l) : ∃ b, f a = .ok b := by
  obtain ⟨b, -, hb⟩ := exists_of_forall₂ (mapM_eq_ok.mp h) ha
  exact ⟨b, hb⟩

theorem exists_mapM_ok (h : ∀ a ∈ l, ∃ b, f a = .ok b) : ∃ l', l.mapM f = .ok l' := by
  induction l with
  | nil => exact ⟨[], rfl⟩
  | cons a rest ih =>
    rw [forall_mem_cons] at h
    obtain ⟨b, hb⟩ := h.1
    obtain ⟨bs, hbs⟩ := ih h.2
    refine ⟨b :: bs, ?_⟩
    rw [mapM_cons, hb, hbs]
    rfl

theorem mem_iff_of_mapM (h : l.mapM f = .ok l') {b : β} : b ∈ l' ↔ ∃ a ∈ l, f a = .ok b := by
  have hrel := mapM_eq_ok.mp h
  constructor
  · exact exists_of_forall₂ hrel.flip
  · rintro ⟨a, ha, hb⟩
    obtain ⟨b', hb', hab'⟩ := exists_of_forall₂ hrel ha
    cases hb.symm.trans hab'
    exact hb'

end

section Loops

variable {f g : σ → α → Except ε σ} {l : List α} {s s' : σ}

/-- What every successful round of a loop keeps holds when the loop is over. -/
theorem foldlM_keeps (P : σ → Prop)
    (hround : ∀ s a s', a ∈ l → P s → f s a = .ok s' → P s') (hs : P s)
    (h : l.foldlM f s = .ok s') : P s' := by
  induction l generalizing s with
  | nil =>
    cases h
    exact hs
  | cons a rest ih =>
    rw [foldlM_cons, bind_eq_ok] at h
    obtain ⟨mid, hmid, hrest⟩ := h
    have hkept := hround s a mid mem_cons_self hs hmid
    exact ih (fun s b s' hb => hround s b s' (mem_cons_of_mem a hb)) hkept hrest

/-- Two loops whose rounds agree wherever the first one gets do the same. -/
theorem foldlM_congr (P : σ → Prop) (hagree : ∀ s a, a ∈ l → P s → f s a = g s a)
    (hround : ∀ s a s', a ∈ l → P s → f s a = .ok s' → P s') (hs : P s) :
    l.foldlM f s = l.foldlM g s := by
  induction l generalizing s with
  | nil => rfl
  | cons a rest ih =>
    rw [foldlM_cons, foldlM_cons, ← hagree s a mem_cons_self hs]
    cases hmid : f s a with
    | error e => rfl
    | ok mid =>
      have hkept := hround s a mid mem_cons_self hs hmid
      exact ih (fun s b hb => hagree s b (mem_cons_of_mem a hb))
        (fun s b s' hb => hround s b s' (mem_cons_of_mem a hb)) hkept

theorem exists_error_of_foldlM {e : ε} (h : l.foldlM f s = .error e) :
    ∃ s' a, f s' a = .error e := by
  induction l generalizing s with
  | nil => cases h
  | cons a rest ih =>
    rw [foldlM_cons] at h
    cases hround : f s a with
    | error e' =>
      rw [hround] at h
      cases h
      exact ⟨s, a, hround⟩
    | ok mid =>
      rw [hround] at h
      exact ih h

end Loops

section Options

variable {γ δ : Type*} {R S : γ → δ → Prop} {x : Option γ} {y : Option δ}

theorem rel_mono (hle : ∀ a b, R a b → S a b) (h : Option.Rel R x y) : Option.Rel S x y := by
  cases h with
  | some hR => exact .some (hle _ _ hR)
  | none => exact .none

theorem exists_of_rel_some {b : δ} (h : Option.Rel R x (some b)) : ∃ a, x = some a ∧ R a b := by
  cases h with
  | some hR => exact ⟨_, rfl, hR⟩

end Options

end Library
