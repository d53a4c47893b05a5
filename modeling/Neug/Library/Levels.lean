import Neug.Library.TaggedRows
import Mathlib.Data.Multiset.Bind

/-! # Levels of an implicit forest

A forest is given by its roots and by the children of each node.  Searches visit it
level by level or in preorder; both visit every node of every level once, so what
they collect is compared here with the levels.
-/

namespace Library

open List

variable {α β γ : Type*}

def levels (children : α → List α) (roots : List α) : Nat → List α
  | 0 => roots
  | k + 1 => (levels children roots k).flatMap children

section Levels

variable {children : α → List α}

variable (roots : List α)

@[simp] theorem levels_zero : levels children roots 0 = roots := rfl

theorem levels_succ (k : Nat) :
    levels children roots (k + 1) = (levels children roots k).flatMap children := rfl

theorem levels_succ_eq_levels_children (k : Nat) :
    levels children roots (k + 1) = levels children (roots.flatMap children) k := by
  induction k with
  | zero => rfl
  | succ k ih => rw [levels_succ, ih, levels_succ]

theorem levels_eq_flatMap (k : Nat) :
    levels children roots k = roots.flatMap fun a => levels children [a] k := by
  induction k with
  | zero => simp
  | succ k ih => simp only [levels_succ, ih, flatMap_assoc]

/-- A forest with an empty level has only empty levels below. -/
theorem levels_eq_nil_of_le {roots : List α} {k n : Nat} (hk : levels children roots k = [])
    (hle : k ≤ n) : levels children roots n = [] := by
  induction n, hle using Nat.le_induction with
  | base => exact hk
  | succ n _ ih => rw [levels_succ, ih, flatMap_nil]

variable {children' : β → List β}

/-- A map that carries children to children, in some order, carries levels to levels. -/
theorem map_levels_perm (f : α → β) (hf : ∀ a, ((children a).map f).Perm (children' (f a)))
    (roots : List α) (k : Nat) :
    ((levels children roots k).map f).Perm (levels children' (roots.map f) k) := by
  induction k with
  | zero => exact Perm.refl _
  | succ k ih =>
    rw [levels_succ, levels_succ, map_flatMap]
    refine Perm.trans ?_ (ih.flatMap_right children')
    rw [flatMap_map]
    exact Perm.flatMap_left _ fun a _ => hf a

/-- If it keeps the order of children, it keeps the order of levels. -/
theorem map_levels (f : α → β) (hf : ∀ a, (children a).map f = children' (f a)) (roots : List α)
    (k : Nat) : (levels children roots k).map f = levels children' (roots.map f) k := by
  induction k with
  | zero => rfl
  | succ k ih =>
    rw [levels_succ, levels_succ, ← ih, map_flatMap, flatMap_map]
    simp only [hf]

/-- The nodes of the levels `lower ≤ k < upper`, level by level. -/
def levelsBetween (children : α → List α) (roots : List α) (lower upper : Nat) : List α :=
  (range' lower (upper - lower)).flatMap (levels children roots)

theorem levelsBetween_self (roots : List α) {lower upper : Nat} (h : upper ≤ lower) :
    levelsBetween children roots lower upper = [] := by
  simp [levelsBetween, Nat.sub_eq_zero_of_le h]

theorem levelsBetween_succ (roots : List α) (lower depth : Nat) :
    levelsBetween children roots lower (depth + 1) = levelsBetween children roots lower depth ++
      if lower ≤ depth then levels children roots depth else [] := by
  unfold levelsBetween
  split
  next h =>
    rw [Nat.succ_sub h, Nat.succ_eq_add_one, range'_concat, flatMap_append, flatMap_singleton]
    congr 2
    omega
  next h =>
    have hzero : depth + 1 - lower = 0 := by omega
    have hzero' : depth - lower = 0 := by omega
    simp [hzero, hzero']

theorem map_levelsBetween (f : α → β) (hf : ∀ a, (children a).map f = children' (f a))
    (roots : List α) (lower upper : Nat) : (levelsBetween children roots lower upper).map f =
      levelsBetween children' (roots.map f) lower upper := by
  simp only [levelsBetween, map_flatMap, map_levels f hf]

theorem map_levelsBetween_perm (f : α → β) (hf : ∀ a, ((children a).map f).Perm (children' (f a)))
    (roots : List α) (lower upper : Nat) : ((levelsBetween children roots lower upper).map f).Perm
      (levelsBetween children' (roots.map f) lower upper) := by
  rw [levelsBetween, levelsBetween, map_flatMap]
  exact Perm.flatMap_left _ fun k _ => map_levels_perm f hf roots k

/-- Below an empty level there is nothing to add. -/
theorem levelsBetween_of_nil {roots : List α} {lower depth upper : Nat}
    (hnil : levels children roots depth = []) (hle : depth ≤ upper) :
    levelsBetween children roots lower upper = levelsBetween children roots lower depth := by
  induction upper, hle using Nat.le_induction with
  | base => rfl
  | succ n hn ih =>
    rw [levelsBetween_succ, ih, levels_eq_nil_of_le hnil hn, ite_self, append_nil]

end Levels

/-- Concatenates the results for the elements of a list, if there is one for each. -/
def collect (f : α → Option (List β)) : List α → Option (List β)
  | [] => some []
  | a :: as => (f a).bind fun b => (collect f as).map (b ++ ·)

/-- Preorder traversal; `none` when the fuel does not reach the leaves. -/
def preorder (children : α → List α) (visit : α → List β) : Nat → α → Option (List β)
  | 0, _ => none
  | n + 1, a => (collect (preorder children visit n) (children a)).map (visit a ++ ·)

/-- Everything that visiting the first `n` levels collects. -/
def visitLevels (children : α → List α) (visit : α → List β) (roots : List α) (n : Nat) : List β :=
  (range n).flatMap fun k => (levels children roots k).flatMap visit

variable {f : α → Option (List β)} {as : List α} {l : List β}

theorem collect_eq_some {g : α → List β} (h : ∀ a ∈ as, f a = some (g a)) :
    collect f as = some (as.flatMap g) := by
  induction as with
  | nil => rfl
  | cons a as ih =>
    rw [collect, h a mem_cons_self, ih fun b hb => h b (mem_cons_of_mem a hb)]
    rfl

theorem collect_mono {f' : α → Option (List β)} (hf : ∀ a ∈ as, ∀ b, f a = some b → f' a = some b)
    (h : collect f as = some l) : collect f' as = some l := by
  induction as generalizing l with
  | nil => exact h
  | cons a as ih =>
    rw [collect, Option.bind_eq_some_iff] at h ⊢
    obtain ⟨b, hb, hrest⟩ := h
    obtain ⟨bs, hbs, rfl⟩ := Option.map_eq_some_iff.mp hrest
    refine ⟨b, hf a mem_cons_self b hb, ?_⟩
    rw [ih (fun c hc => hf c (mem_cons_of_mem a hc)) hbs, Option.map_some]

/-- What is collected comes from one of the elements. -/
theorem exists_of_mem_collect (h : collect f as = some l) {c : β} (hc : c ∈ l) :
    ∃ a ∈ as, ∃ bs, f a = some bs ∧ c ∈ bs := by
  induction as generalizing l with
  | nil =>
    cases h
    cases hc
  | cons a as ih =>
    rw [collect, Option.bind_eq_some_iff] at h
    obtain ⟨bs, hbs, hrest⟩ := h
    obtain ⟨rest, htail, rfl⟩ := Option.map_eq_some_iff.mp hrest
    rcases mem_append.mp hc with hc | hc
    · exact ⟨a, mem_cons_self, bs, hbs, hc⟩
    · obtain ⟨a', ha', hc'⟩ := ih htail hc
      exact ⟨a', mem_cons_of_mem a ha', hc'⟩

theorem preorder_mono {children : α → List α} {visit : α → List β} {n m : Nat} {a : α}
    (hle : n ≤ m) (h : preorder children visit n a = some l) :
    preorder children visit m a = some l := by
  induction n generalizing m a l with
  | zero => cases h
  | succ n ih =>
    obtain ⟨m, rfl⟩ : ∃ k, m = k + 1 := ⟨m - 1, by omega⟩
    rw [preorder, Option.map_eq_some_iff] at h ⊢
    obtain ⟨below, hbelow, rfl⟩ := h
    exact ⟨below, collect_mono (fun c _ b hb => ih (by omega) hb) hbelow, rfl⟩

theorem flatMap_comm_perm (as : List α) (bs : List β) (f : α → β → List γ) :
    (as.flatMap fun a => bs.flatMap (f a)).Perm (bs.flatMap fun b => as.flatMap (f · b)) := by
  have h := Multiset.bind_bind (as : Multiset α) (bs : Multiset β)
    (f := fun a b => (f a b : Multiset γ))
  simpa only [Multiset.coe_bind, Multiset.coe_eq_coe] using h

/-! ## Levels whose nodes carry a tag -/

variable (children : α → List α)

def carry (node : α × Nat) : List (α × Nat) :=
  (children node.1).map fun c => (c, node.2)

theorem levels_carry (roots : List (α × Nat)) (k : Nat) : levels (carry children) roots k =
      roots.flatMap fun root => (levels children [root.1] k).map fun a => (a, root.2) := by
  rw [levels_eq_flatMap]
  congr 1
  funext root
  exact (map_levels (fun a => (a, root.2)) (fun a => by simp [carry]) [root.1] k).symm

/-- Searching from all inputs at once, level by level, finds what searching from each finds. -/
theorem levelsBetween_carry_perm (inputs : List α) (lower upper : Nat) :
    ((levelsBetween (carry children) inputs.zipIdx lower upper).map Prod.swap).Perm
      (tagged inputs fun a => levelsBetween children [a] lower upper) := by
  simp only [levelsBetween, tagged, levels_carry, map_flatMap, map_map]
  exact flatMap_comm_perm _ _ fun (k : Nat) (root : α × Nat) =>
    (levels children [root.1] k).map (Prod.mk root.2)

theorem visitLevels_succ_perm (visit : α → List β) (a : α) (n : Nat) :
    (visitLevels children visit [a] (n + 1)).Perm
      (visit a ++ (children a).flatMap fun c => visitLevels children visit [c] n) := by
  unfold visitLevels
  rw [range_succ_eq_map, flatMap_cons, flatMap_map, levels_zero, flatMap_singleton]
  refine Perm.append_left _ ?_
  have hlevel : ∀ k, levels children [a] (k + 1) =
      (children a).flatMap fun c => levels children [c] k := by
    intro k
    rw [levels_succ_eq_levels_children, flatMap_singleton, levels_eq_flatMap]
  simp only [Nat.succ_eq_add_one, hlevel, flatMap_assoc]
  exact flatMap_comm_perm _ _ _

/-- A preorder traversal of a tree of height below `n` ends and collects what visiting its
levels collects. -/
theorem preorder_perm_visitLevels {children : α → List α} (visit : α → List β) {n : Nat} {a : α}
    (hleaf : levels children [a] n = []) :
    ∃ l, preorder children visit n a = some l ∧ l.Perm (visitLevels children visit [a] n) := by
  induction n generalizing a with
  | zero => cases hleaf
  | succ n ih =>
    -- every child roots a tree of smaller height
    have hchild : ∀ c ∈ children a, levels children [c] n = [] := by
      intro c hc
      rw [levels_succ_eq_levels_children, flatMap_singleton, levels_eq_flatMap,
        flatMap_eq_nil_iff] at hleaf
      exact hleaf c hc
    choose! g hg hperm using fun c hc => ih (hchild c hc)
    refine ⟨visit a ++ (children a).flatMap g, ?_, ?_⟩
    · rw [preorder, collect_eq_some hg, Option.map_some]
    · refine Perm.trans ?_ (visitLevels_succ_perm children visit a n).symm
      refine Perm.append_left _ ?_
      exact Perm.flatMap_left _ hperm

end Library
