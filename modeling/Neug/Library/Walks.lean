import Neug.Library.Levels
import Mathlib.Data.Nat.Find

/-! # Walks in a graph of steps

A step graph lists the steps that leave each vertex; a step has a target, and several
steps may lead to one vertex.  Walks are lists of steps.  The walks from a vertex form a
tree, also when a rule looks at the walk so far and forbids some of its extensions.
-/

namespace Library

open List

structure StepGraph (V S : Type*) where
  next : V → List S
  target : S → V

namespace StepGraph

variable {V S : Type*} (G : StepGraph V S)

variable (v : V)

def finish (w : List S) : V :=
  w.foldl (fun _ s => G.target s) v

/-- Every step leaves the vertex where the one before it ends. -/
def IsWalk : V → List S → Prop
  | _, [] => True
  | v, s :: w => s ∈ G.next v ∧ IsWalk (G.target s) w

@[simp] theorem finish_nil : G.finish v [] = v := rfl

@[simp] theorem finish_cons (s : S) (w : List S) :
    G.finish v (s :: w) = G.finish (G.target s) w := rfl

@[simp] theorem finish_concat (w : List S) (s : S) : G.finish v (w ++ [s]) = G.target s := by
  simp [finish]

theorem finish_append (w u : List S) : G.finish v (w ++ u) = G.finish (G.finish v w) u := by
  simp [finish]

@[simp] theorem isWalk_nil : G.IsWalk v [] := trivial

@[simp] theorem isWalk_cons (s : S) (w : List S) :
    G.IsWalk v (s :: w) ↔ s ∈ G.next v ∧ G.IsWalk (G.target s) w := Iff.rfl

theorem isWalk_append (w u : List S) :
    G.IsWalk v (w ++ u) ↔ G.IsWalk v w ∧ G.IsWalk (G.finish v w) u := by
  induction w generalizing v with
  | nil => simp
  | cons s w ih => simp [ih, and_assoc]

@[simp] theorem isWalk_concat (w : List S) (s : S) :
    G.IsWalk v (w ++ [s]) ↔ G.IsWalk v w ∧ s ∈ G.next (G.finish v w) := by
  simp [isWalk_append]

/-! ## The tree of walks -/

section Tree

variable (ok : List S → S → Bool) (v : V)

/-- The extensions of a walk from `v` that the rule allows. -/
def extensions (w : List S) : List (List S) :=
  ((G.next (G.finish v w)).filter (ok w)).map fun s => w ++ [s]

/-- The rule allows each step of the walk when it is taken. -/
def Admits (w : List S) : Prop :=
  ∀ u s, u ++ [s] <+: w → ok u s = true

variable {ok v}

theorem admits_nil : Admits (S := S) ok [] := by
  intro u s h
  simp at h

theorem admits_concat {w : List S} {s : S} :
    Admits ok (w ++ [s]) ↔ Admits ok w ∧ ok w s = true := by
  constructor
  · intro h
    refine ⟨fun u t hu => h u t (hu.trans (prefix_append w [s])), h w s prefix_rfl⟩
  · rintro ⟨hw, hs⟩ u t hu
    rcases prefix_concat_iff.mp hu with heq | hprefix
    · obtain ⟨rfl, hst⟩ := append_inj' heq rfl
      cases hst
      exact hs
    · exact hw u t hprefix

theorem mem_levels_extensions {k : Nat} {w : List S} :
    w ∈ levels (G.extensions ok v) [[]] k ↔ G.IsWalk v w ∧ Admits ok w ∧ w.length = k := by
  induction k generalizing w with
  | zero =>
    rw [levels_zero, mem_singleton]
    constructor
    · rintro rfl
      exact ⟨trivial, admits_nil, rfl⟩
    · rintro ⟨-, -, hlen⟩
      exact length_eq_zero_iff.mp hlen
  | succ k ih =>
    simp only [levels_succ, mem_flatMap, ih, extensions, mem_map, mem_filter]
    constructor
    · rintro ⟨u, ⟨hu, hadm, hlen⟩, s, ⟨hs, hok⟩, rfl⟩
      refine ⟨(G.isWalk_concat v u s).mpr ⟨hu, hs⟩, admits_concat.mpr ⟨hadm, hok⟩, ?_⟩
      simp [hlen]
    · rintro ⟨hw, hadm, hlen⟩
      obtain ⟨u, s, rfl⟩ : ∃ u s, w = u ++ [s] := by
        cases w using reverseRecOn with
        | nil => simp at hlen
        | append_singleton u s => exact ⟨u, s, rfl⟩
      obtain ⟨hu, hs⟩ := (G.isWalk_concat v u s).mp hw
      obtain ⟨hadm', hok⟩ := admits_concat.mp hadm
      exact ⟨u, ⟨hu, hadm', by simpa using hlen⟩, s, ⟨hs, hok⟩, rfl⟩

variable (ok v) in
theorem nodup_levels_extensions (hnext : ∀ x, (G.next x).Nodup) (k : Nat) :
    (levels (G.extensions ok v) [[]] k).Nodup := by
  induction k with
  | zero => simp
  | succ k ih =>
    rw [levels_succ, nodup_flatMap]
    refine ⟨?_, ?_⟩
    · intro w _
      refine ((hnext _).filter _).map ?_
      intro s t hst
      simpa using hst
    · -- extensions of different walks differ before their last step
      refine ih.imp ?_
      intro w u hne l hw hu
      simp only [extensions, mem_map] at hw hu
      obtain ⟨s, -, rfl⟩ := hw
      obtain ⟨t, -, ht⟩ := hu
      exact hne (append_inj' ht rfl).1.symm

variable (ok v) in
/-- The levels between two lengths hold the allowed walks of these lengths, each once. -/
theorem exactlyOnce_levelsBetween_extensions (hnext : ∀ x, (G.next x).Nodup) (lower upper : Nat) :
    ExactlyOnce (levelsBetween (G.extensions ok v) [[]] lower upper) fun w =>
      G.IsWalk v w ∧ Admits ok w ∧ lower ≤ w.length ∧ w.length < upper := by
  refine ⟨?_, ?_⟩
  · rw [levelsBetween, nodup_flatMap]
    refine ⟨fun k _ => G.nodup_levels_extensions ok v hnext k, ?_⟩
    refine Pairwise.imp ?_ nodup_range'
    intro i j hne w hi hj
    exact hne ((G.mem_levels_extensions.mp hi).2.2.symm.trans (G.mem_levels_extensions.mp hj).2.2)
  · intro w
    simp only [levelsBetween, mem_flatMap, mem_range'_1, G.mem_levels_extensions]
    constructor
    · rintro ⟨k, hk, hw, hadm, rfl⟩
      exact ⟨hw, hadm, hk.1, by omega⟩
    · rintro ⟨hw, hadm, hge, hlt⟩
      exact ⟨w.length, ⟨hge, by omega⟩, hw, hadm, rfl⟩

end Tree

/-! ## Distance -/

def Reaches (v x : V) (k : Nat) : Prop :=
  ∃ w, G.IsWalk v w ∧ G.finish v w = x ∧ w.length = k

def IsDist (v x : V) (d : Nat) : Prop :=
  G.Reaches v x d ∧ ∀ k < d, ¬ G.Reaches v x k

variable {G} {u v x y : V} {d d' k : Nat}

theorem reaches_zero : G.Reaches v x 0 ↔ x = v := by
  constructor
  · rintro ⟨w, -, rfl, hlen⟩
    rw [length_eq_zero_iff.mp hlen, finish_nil]
  · rintro rfl
    exact ⟨[], trivial, rfl, rfl⟩

theorem reaches_succ : G.Reaches v x (k + 1) ↔
    ∃ y, G.Reaches v y k ∧ ∃ s ∈ G.next y, G.target s = x := by
  constructor
  · rintro ⟨w, hw, rfl, hlen⟩
    cases w using reverseRecOn with
    | nil => simp at hlen
    | append_singleton u s =>
      obtain ⟨hu, hs⟩ := (G.isWalk_concat v u s).mp hw
      exact ⟨_, ⟨u, hu, rfl, by simpa using hlen⟩, s, hs, by simp⟩
  · rintro ⟨y, ⟨w, hw, rfl, hlen⟩, s, hs, rfl⟩
    exact ⟨w ++ [s], (G.isWalk_concat v w s).mpr ⟨hw, hs⟩, by simp, by simp [hlen]⟩

theorem Reaches.concat {s : S} (h : G.Reaches v y k) (hs : s ∈ G.next y) :
    G.Reaches v (G.target s) (k + 1) :=
  reaches_succ.mpr ⟨y, h, s, hs, rfl⟩

theorem isDist_zero : G.IsDist v x 0 ↔ x = v := by
  simp [IsDist, reaches_zero]

theorem isDist_self (v : V) : G.IsDist v v 0 := isDist_zero.mpr rfl

theorem IsDist.unique (h : G.IsDist v x d) (h' : G.IsDist v x d') : d = d' := by
  have hle : d ≤ d' := Nat.not_lt.mp fun hlt => h.2 d' hlt h'.1
  have hge : d' ≤ d := Nat.not_lt.mp fun hlt => h'.2 d hlt h.1
  omega

theorem Reaches.exists_isDist (h : G.Reaches v x k) : ∃ d ≤ k, G.IsDist v x d := by
  classical
  have hex : ∃ d, G.Reaches v x d := ⟨k, h⟩
  exact ⟨Nat.find hex, Nat.find_min' hex h, Nat.find_spec hex, fun j hj => Nat.find_min hex hj⟩

theorem IsDist.exists_pred (h : G.IsDist v x (d + 1)) :
    ∃ y, G.IsDist v y d ∧ ∃ s ∈ G.next y, G.target s = x := by
  obtain ⟨y, hy, s, hs, rfl⟩ := reaches_succ.mp h.1
  refine ⟨y, ⟨hy, ?_⟩, s, hs, rfl⟩
  intro k hk hreach
  exact h.2 (k + 1) (by omega) (hreach.concat hs)

end StepGraph

end Library
