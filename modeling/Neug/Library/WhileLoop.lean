import Neug.Library.Levels
import Mathlib.Data.Nat.Find
import Mathlib.Data.List.MinMax

/-! # Loops that may not end

A loop runs its body while a guard holds.  Running it takes fuel, and it returns a state
when the fuel is enough; more fuel changes nothing.
-/

namespace Library

open List

variable {σ α : Type*}

/-- Runs `body` while `guard` holds; `none` when the fuel is used up. -/
def whileLoop (guard : σ → Bool) (body : σ → σ) : Nat → σ → Option σ
  | 0, _ => none
  | n + 1, s => if guard s then whileLoop guard body n (body s) else some s

def Returns (f : Nat → Option α) (a : α) : Prop :=
  ∃ n, f n = some a

/-- A computation that keeps its result with more fuel has at most one result. -/
theorem Returns.unique {f : Nat → Option α} {a b : α}
    (hmono : ∀ n m c, n ≤ m → f n = some c → f m = some c) (ha : Returns f a) (hb : Returns f b) :
    a = b := by
  obtain ⟨n, hn⟩ := ha
  obtain ⟨m, hm⟩ := hb
  have hn' := hmono n (max n m) a (Nat.le_max_left n m) hn
  have hm' := hmono m (max n m) b (Nat.le_max_right n m) hm
  exact Option.some.inj (hn'.symm.trans hm')

section Rows

variable {β : Type*} (search : Nat → α → Option (List β)) {inputs : List α}
  {rows : List (Nat × β)}

section

variable (hmono : ∀ n m a l, n ≤ m → search n a = some l → search m a = some l)
include hmono

theorem collect_rows_mono {n m : Nat} (hle : n ≤ m)
    (h : collect (fun row => (search n row.1).map (List.map (Prod.mk row.2))) inputs.zipIdx =
      some rows) :
    collect (fun row => (search m row.1).map (List.map (Prod.mk row.2))) inputs.zipIdx =
      some rows := by
  refine collect_mono ?_ h
  rintro ⟨a, i⟩ - b hb
  obtain ⟨l, hl, rfl⟩ := Option.map_eq_some_iff.mp hb
  exact Option.map_eq_some_iff.mpr ⟨l, hmono n m a l hle hl, rfl⟩

/-- Searches from each input that end with the fuel `n` end with the tagged answers. -/
theorem returns_collect_iff
    {found : α → List β} {n : Nat} (hfound : ∀ a ∈ inputs, search n a = some (found a)) :
    Returns (fun fuel => collect (fun row => (search fuel row.1).map (List.map (Prod.mk row.2)))
        inputs.zipIdx) rows ↔ rows = tagged inputs found := by
  have hrows : collect (fun row => (search n row.1).map (List.map (Prod.mk row.2)))
      inputs.zipIdx = some (tagged inputs found) := by
    refine collect_eq_some ?_
    rintro ⟨a, i⟩ hi
    have ha := mem_of_getElem? (mem_zipIdx_iff_getElem?.mp hi)
    exact Option.map_eq_some_iff.mpr ⟨found a, hfound a ha, rfl⟩
  constructor
  · intro h
    exact Returns.unique (fun _ _ _ hle hl => collect_rows_mono search hmono hle hl) h ⟨n, hrows⟩
  · rintro rfl
    exact ⟨n, hrows⟩

end

end Rows

section WhileLoop

variable {guard : σ → Bool} {body : σ → σ} {s s' : σ}

variable {n : Nat}

theorem whileLoop_of_guard (h : guard s = true) :
    whileLoop guard body (n + 1) s = whileLoop guard body n (body s) := by
  rw [whileLoop, if_pos h]

theorem whileLoop_of_not_guard (h : guard s = false) : whileLoop guard body (n + 1) s = some s := by
  rw [whileLoop, if_neg (by simp [h])]

theorem whileLoop_mono {m : Nat} (h : whileLoop guard body n s = some s') (hle : n ≤ m) :
    whileLoop guard body m s = some s' := by
  induction n generalizing m s with
  | zero => cases h
  | succ n ih =>
    obtain ⟨m, rfl⟩ : ∃ k, m = k + 1 := ⟨m - 1, by omega⟩
    cases hguard : guard s with
    | true =>
      rw [whileLoop_of_guard hguard] at h ⊢
      exact ih h (by omega)
    | false =>
      rw [whileLoop_of_not_guard hguard] at h ⊢
      exact h

/-- What the body keeps under the guard holds of the state returned, where the guard fails. -/
theorem whileLoop_invariant {P : σ → Prop} (h : whileLoop guard body n s = some s') (hs : P s)
    (hbody : ∀ t, P t → guard t = true → P (body t)) : P s' ∧ guard s' = false := by
  induction n generalizing s with
  | zero => cases h
  | succ n ih =>
    cases hguard : guard s with
    | true =>
      rw [whileLoop_of_guard hguard] at h
      exact ih h (hbody s hs hguard)
    | false =>
      rw [whileLoop_of_not_guard hguard] at h
      cases h
      exact ⟨hs, hguard⟩

/-- A loop whose body lowers a measure under an invariant ends. -/
theorem exists_whileLoop_of_measure {P : σ → Prop} (measure : σ → Nat) (hs : P s)
    (hbody : ∀ t, P t → guard t = true → P (body t) ∧ measure (body t) < measure t) :
    ∃ s', whileLoop guard body (measure s + 1) s = some s' := by
  generalize hn : measure s = n
  induction n using Nat.strong_induction_on generalizing s with
  | _ n ih =>
    cases hguard : guard s with
    | true =>
      obtain ⟨hP, hlt⟩ := hbody s hs hguard
      obtain ⟨s', hs'⟩ := ih (measure (body s)) (hn ▸ hlt) hP rfl
      refine ⟨s', ?_⟩
      rw [whileLoop_of_guard hguard]
      exact whileLoop_mono hs' (by omega)
    | false => exact ⟨s, whileLoop_of_not_guard hguard⟩

end WhileLoop

/-- A count falls when a test gets stricter and fails for an element that passed before. -/
theorem countP_lt_countP {p q : α → Bool} {l : List α} {a : α}
    (h : ∀ x ∈ l, p x = true → q x = true) (ha : a ∈ l) (hq : q a = true) (hp : p a = false) :
    l.countP p < l.countP q := by
  obtain ⟨before, after, rfl⟩ := append_of_mem ha
  have hbefore := countP_mono_left fun x hx => h x (mem_append_left _ hx)
  have hafter := countP_mono_left fun x hx => h x (mem_append_right _ (mem_cons_of_mem a hx))
  rw [countP_append, countP_append, countP_cons_of_pos hq, countP_cons_of_neg (by simp [hp])]
  omega

end Library
