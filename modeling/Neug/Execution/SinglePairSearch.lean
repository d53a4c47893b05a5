import Neug.Execution.SinglePair
import Neug.Library.Fallible

/-! # Two searches that meet

As long as the searches have not met, the vertices that a search has marked are those within
its depth, and its queue holds the vertices at that depth.  The edge by which they meet
completes a shortest path.
-/

namespace Neug.Execution

open Library Function Side StepGraph List
open Storage (EdgeLabel)

namespace Side

def mark (side : Side) (k : Nat) : Int :=
  side.sign * (k + 1)

def start (src dst : Nat) : Side → Nat
  | .fromSrc => src
  | .fromDst => dst

variable (side : Side)

@[simp] theorem sign_mul_self : side.sign * side.sign = 1 := by
  cases side <;> rfl

@[simp] theorem sign_mul_mark (k : Nat) : side.sign * side.mark k = k + 1 := by
  rw [mark, ← Int.mul_assoc, sign_mul_self, Int.one_mul]

theorem mark_add_sign (k : Nat) : side.mark k + side.sign = side.mark (k + 1) := by
  unfold mark
  push_cast
  rw [Int.mul_add side.sign (k + 1 : Int) 1, Int.mul_one]

theorem sign_other : side.other.sign = -side.sign := by
  cases side <;> rfl

theorem other_ne : side.other ≠ side := by
  cases side <;> simp [other]

theorem eq_or_eq_other (s : Side) : s = side ∨ s = side.other := by
  cases side <;> cases s <;> simp [other]

variable {side} {c : Int}

theorem ne_zero_of_pos (h : 0 < side.sign * c) : c ≠ 0 := by
  intro hc
  simp [hc] at h

theorem mark_ne_zero (k : Nat) : side.mark k ≠ 0 := by
  have hpos : 0 < side.sign * side.mark k := by
    rw [sign_mul_mark]
    omega
  exact ne_zero_of_pos hpos

theorem eq_zero_or_pos (h : 0 ≤ side.sign * c) : c = 0 ∨ 0 < side.sign * c := by
  rcases h.eq_or_lt with heq | hlt
  · rcases Int.mul_eq_zero.mp heq.symm with hsign | hc
    · cases side <;> cases hsign
    · exact .inl hc
  · exact .inr hlt

end Side

namespace SsspSearch

theorem PairState.advance_queue_turn (st : PairState) (scan : LevelScan) :
    (st.advance scan).queue st.turn = scan.tmp :=
  update_self _ _ _

theorem PairState.advance_queue_of_ne {st : PairState} (scan : LevelScan) {side : Side}
    (hne : side ≠ st.turn) : (st.advance scan).queue side = st.queue side :=
  update_of_ne hne _ _

variable {S : SsspSearch} {side : Side} {st st' : LevelScan} {x y k : Nat}

/-! ## The loops over one queue -/

theorem visitNbr_keeps (h : visitNbr side x st y = .ok st') {z : Nat} (hz : st.dis z ≠ 0) :
    st'.dis z = st.dis z ∧ st'.pre z = st.pre z := by
  unfold visitNbr at h
  split_ifs at h with hnew hmet
  · cases h
    have hne : z ≠ y := by
      rintro rfl
      exact hz hnew
    exact ⟨update_of_ne hne _ _, update_of_ne hne _ _⟩
  · cases h
    exact ⟨rfl, rfl⟩

/-- The loops over the entries of the queue and their neighbours as one loop. -/
def scanAll (side : Side) (st : LevelScan) (cs : List (Nat × Nat)) : Except PairStop LevelScan :=
  cs.foldlM (fun st c => visitNbr side c.1 st c.2) st

theorem scanAll_append (cs cs' : List (Nat × Nat)) :
    scanAll side st (cs ++ cs') = (scanAll side st cs).bind fun st => scanAll side st cs' :=
  foldlM_append

variable {cs : List (Nat × Nat)}

theorem scanAll_keeps (h : scanAll side st cs = .ok st') {z : Nat} (hz : st.dis z ≠ 0) :
    st'.dis z = st.dis z ∧ st'.pre z = st.pre z := by
  refine foldlM_keeps (fun st' => st'.dis z = st.dis z ∧ st'.pre z = st.pre z) ?_ ⟨rfl, rfl⟩ h
  rintro st₁ c st₂ - ⟨hdis, hpre⟩ hc
  obtain ⟨hdis', hpre'⟩ := visitNbr_keeps hc (by rwa [hdis])
  exact ⟨hdis'.trans hdis, hpre'.trans hpre⟩

theorem foldlM_visitVertex {level : List Nat} (hlevel : ∀ x ∈ level, st.dis x = side.mark k)
    (hk : k < S.upper) :
    level.foldlM (S.visitVertex side) st = scanAll side st (S.graph.candidates level) := by
  induction level generalizing st with
  | nil => rfl
  | cons x level ih =>
    have hx : S.visitVertex side st x = scanAll side st ((S.nbrs x).map (Prod.mk x)) := by
      unfold visitVertex scanAll
      rw [hlevel x mem_cons_self, sign_mul_mark, if_neg (by omega), foldlM_map]
    have hcons : S.graph.candidates (x :: level) =
        (S.nbrs x).map (Prod.mk x) ++ S.graph.candidates level := flatMap_cons
    rw [foldlM_cons, hx, hcons, scanAll_append]
    cases hscan : scanAll side st ((S.nbrs x).map (Prod.mk x)) with
    | error e => rfl
    | ok st' =>
      refine ih fun z hz => ?_
      have hmark := hlevel z (mem_cons_of_mem x hz)
      rw [(scanAll_keeps hscan (by rw [hmark]; exact mark_ne_zero k)).1, hmark]

theorem foldlM_visitVertex_tooFar {level : List Nat} (hne : level ≠ [])
    (hlevel : ∀ x ∈ level, st.dis x = side.mark k) (hk : S.upper ≤ k) :
    level.foldlM (S.visitVertex side) st = .error .tooFar := by
  obtain ⟨x, rest, rfl⟩ := exists_cons_of_ne_nil hne
  rw [foldlM_cons, visitVertex, hlevel x mem_cons_self, sign_mul_mark, if_pos (by omega)]
  rfl

/-- Marks the second of two vertices as reached from the first one. -/
def addAt (c : Int) (st : LevelScan) (e : Nat × Nat) : LevelScan :=
  ⟨update st.dis e.2 c, update st.pre e.2 (some e.1), st.tmp ++ [e.2]⟩

/-- The entries by which a queue reaches vertices not marked before. -/
def newcomers (S : SsspSearch) (dis : Nat → Int) (cs : List (Nat × Nat)) : List (Nat × Nat) :=
  S.graph.fresh (fun x => decide (dis x ≠ 0)) cs

/-- As long as the searches do not meet, the loop marks the newcomers. -/
theorem scanAll_eq_ok (hfrom : ∀ c ∈ cs, st.dis c.1 = side.mark k)
    (hto : ∀ c ∈ cs, 0 ≤ side.sign * st.dis c.2) :
    scanAll side st cs = .ok ((S.newcomers st.dis cs).foldl (addAt (side.mark (k + 1))) st) := by
  induction cs generalizing st with
  | nil => rfl
  | cons c cs ih =>
    rw [scanAll, foldlM_cons, newcomers, fresh]
    obtain ⟨hc, hfrom'⟩ := forall_mem_cons.mp hfrom
    obtain ⟨hto, hto'⟩ := forall_mem_cons.mp hto
    by_cases hnew : st.dis c.2 = 0
    · have hvisit : visitNbr side c.1 st c.2 = .ok (addAt (side.mark (k + 1)) st c) := by
        rw [visitNbr, if_pos hnew, hc, mark_add_sign]
        rfl
      have hseen : (fun x => decide (st.dis x ≠ 0) || decide (x = S.graph.target c.2)) =
          fun x => decide ((addAt (side.mark (k + 1)) st c).dis x ≠ 0) := by
        funext x
        by_cases hx : x = c.2
        · simp [hx, addAt, graph, mark_ne_zero]
        · simp [hx, addAt, graph]
      have hunseen : ¬ decide (st.dis (S.graph.target c.2) ≠ 0) = true :=
        fun h => of_decide_eq_true h hnew
      rw [hvisit, hseen, if_neg hunseen]
      refine ih (fun c' hc' => ?_) (fun c' hc' => ?_)
      · have hne : c'.1 ≠ c.2 := by
          intro heq
          have := hfrom' c' hc'
          rw [heq, hnew] at this
          exact mark_ne_zero k this.symm
        exact (update_of_ne hne _ _).trans (hfrom' c' hc')
      · by_cases heq : c'.2 = c.2
        · rw [heq]
          simp only [addAt, update_self, sign_mul_mark]
          omega
        · simp only [addAt, update_of_ne heq]
          exact hto' c' hc'
    · have hvisit : visitNbr side c.1 st c.2 = .ok st := by
        rw [visitNbr, if_neg hnew, if_neg (Int.not_lt.mpr hto)]
      have hseen : decide (st.dis (S.graph.target c.2) ≠ 0) = true := decide_eq_true hnew
      rw [hvisit, if_pos hseen]
      exact ih hfrom' hto'

/-- The loop stops at the first vertex that the other search has marked. -/
theorem exists_scanAll_eq_met (S : SsspSearch) (hfrom : ∀ c ∈ cs, st.dis c.1 = side.mark k)
    (hmet : ∃ c ∈ cs, side.sign * st.dis c.2 < 0) :
    ∃ c ∈ cs, ∃ pre, scanAll side st cs = .error (.met c.1 c.2 pre) ∧
      side.sign * st.dis c.2 < 0 ∧ ∀ z, st.dis z ≠ 0 → pre z = st.pre z := by
  cases hfind : cs.find? fun c => side.sign * st.dis c.2 < 0 with
  | none =>
    obtain ⟨c, hc, hlt⟩ := hmet
    exact absurd hlt (by simpa using find?_eq_none.mp hfind c hc)
  | some c =>
    obtain ⟨hc, before, after, rfl, hbefore⟩ := find?_eq_some_iff_append.mp hfind
    have hlt : side.sign * st.dis c.2 < 0 := by simpa using hc
    have hfrom' : ∀ c ∈ before, st.dis c.1 = side.mark k :=
      fun c' hc' => hfrom c' (mem_append_left _ hc')
    have hto : ∀ c ∈ before, 0 ≤ side.sign * st.dis c.2 :=
      fun c' hc' => by simpa using hbefore c' hc'
    have hscan := scanAll_eq_ok (S := S) hfrom' hto
    have hkeeps : ∀ z, st.dis z ≠ 0 → _ := fun z hz => scanAll_keeps hscan hz
    have hne : st.dis c.2 ≠ 0 := by
      intro hzero
      rw [hzero] at hlt
      simp at hlt
    refine ⟨c, by simp, _, ?_, hlt, fun z hz => (hkeeps z hz).2⟩
    rw [scanAll_append, hscan, Except.bind]
    rw [scanAll, foldlM_cons, visitNbr, (hkeeps _ hne).1, if_neg hne, if_pos hlt]
    rfl

theorem foldl_addAt_eq (c : Int) (cs : List (Nat × Nat)) (st : LevelScan) :
    cs.foldl (addAt c) st = ⟨fun x => if x ∈ cs.map (·.2) then c else st.dis x,
      (cs.foldl addParent (st.pre, st.tmp)).1, (cs.foldl addParent (st.pre, st.tmp)).2⟩ := by
  induction cs generalizing st with
  | nil => rfl
  | cons e cs ih =>
    rw [foldl_cons, ih]
    congr 1
    funext x
    by_cases hx : x ∈ cs.map (·.2)
    · simp [hx]
    · by_cases heq : x = e.2
      · simp [heq, addAt]
      · simp [hx, heq, addAt]

theorem foldl_addParent_of_notMem {acc : Parents × List Nat} (hx : x ∉ cs.map (·.2)) :
    (cs.foldl addParent acc).1 x = acc.1 x := by
  induction cs generalizing acc with
  | nil => rfl
  | cons c cs ih =>
    rw [map_cons, mem_cons, not_or] at hx
    rw [foldl_cons, ih hx.2, addParent_fst, if_neg hx.1]

theorem exists_foldl_addParent_of_mem {acc : Parents × List Nat} (hx : x ∈ cs.map (·.2)) :
    ∃ y, (y, x) ∈ cs ∧ (cs.foldl addParent acc).1 x = some y := by
  induction cs generalizing acc with
  | nil => cases hx
  | cons c cs ih =>
    by_cases htail : x ∈ cs.map (·.2)
    · obtain ⟨y, hy, heq⟩ := @ih (addParent acc c) htail
      exact ⟨y, mem_cons_of_mem c hy, heq⟩
    · have hhead : x = c.2 := (mem_cons.mp hx).resolve_right htail
      refine ⟨c.1, by simp [hhead], ?_⟩
      rw [foldl_cons, foldl_addParent_of_notMem htail, addParent_fst, if_pos hhead]

/-! ## Walking back -/

variable {pre : Parents} {root d : Nat}

/-- Up to depth `k`, vertices are reached from a vertex one step nearer to the root. -/
def Arrivals (S : SsspSearch) (pre : Parents) (root k : Nat) : Prop :=
  ∀ x d, d ≤ k → S.graph.IsDist root x d →
    (d = 0 ∧ pre x = none) ∨
      ∃ y d', pre x = some y ∧ d = d' + 1 ∧ S.graph.IsDist root y d' ∧ x ∈ S.nbrs y

theorem Arrivals.congr (h : S.Arrivals pre root k) {pre' : Parents}
    (heq : ∀ x d, d ≤ k → S.graph.IsDist root x d → pre' x = pre x) : S.Arrivals pre' root k := by
  intro x d hd hx
  rw [heq x d hd hx]
  exact h x d hd hx

theorem mem_nbrs_symm (hrev : S.graph.Reversible) (h : y ∈ S.nbrs x) : x ∈ S.nbrs y := by
  obtain ⟨s, hs, rfl⟩ := hrev x y h
  exact hs

/-- Walking back from a vertex spells a walk from the root, backwards; read forwards it is a
walk to the root. -/
theorem Arrivals.exists_followPre (h : S.Arrivals pre root k) (hrev : S.graph.Reversible)
    (hd : d ≤ k) (hx : S.graph.IsDist root x d) :
    ∃ w w', (∀ fuel, d < fuel → followPre pre fuel (some x) = some (x :: w')) ∧
      x :: w' = (root :: w).reverse ∧ S.graph.IsWalk root w ∧ S.graph.finish root w = x ∧
      w.length = d ∧ S.graph.IsWalk x w' ∧ S.graph.finish x w' = root := by
  induction d generalizing x with
  | zero =>
    obtain rfl : x = root := isDist_zero.mp hx
    rcases h x 0 hd hx with ⟨-, hpre⟩ | ⟨y, d', -, hzero, -⟩
    · refine ⟨[], [], fun fuel hfuel => ?_, rfl, trivial, rfl, rfl, trivial, rfl⟩
      obtain ⟨fuel, rfl⟩ : ∃ n, fuel = n + 1 := ⟨fuel - 1, by omega⟩
      rw [followPre, hpre]
      cases fuel <;> rfl
    · omega
  | succ d ih =>
    rcases h x (d + 1) hd hx with ⟨hzero, -⟩ | ⟨y, d', hpre, hsucc, hy, hnbr⟩
    · omega
    obtain rfl : d' = d := by omega
    obtain ⟨w, w', hfollow, hback, hwalk, hfinish, hlen, hwalk', hfinish'⟩ := ih (by omega) hy
    refine ⟨w ++ [x], y :: w', fun fuel hfuel => ?_, ?_, ?_, ?_, ?_,
      ⟨mem_nbrs_symm hrev hnbr, hwalk'⟩, hfinish'⟩
    · obtain ⟨fuel, rfl⟩ : ∃ n, fuel = n + 1 := ⟨fuel - 1, by omega⟩
      rw [followPre, hpre, hfollow fuel (by omega)]
      rfl
    · rw [hback, ← cons_append, reverse_append]
      rfl
    · exact (S.graph.isWalk_concat root w x).mpr ⟨hwalk, by rw [hfinish]; exact hnbr⟩
    · exact S.graph.finish_concat root w x
    · simp [hlen]

/-! ## What each search has marked -/

structure Ball (S : SsspSearch) (side : Side) (root k : Nat) (st : PairState) : Prop where
  layered : S.graph.Layered 0 root k (fun x => decide (0 < side.sign * st.dis x)) (st.queue side)
  depth : ∀ x, 0 < side.sign * st.dis x → ∃ d, st.dis x = side.mark d ∧ S.graph.IsDist root x d
  arrivals : S.Arrivals st.pre root k

namespace Ball

variable {st : PairState}

section

variable (h : S.Ball side root k st)
include h

theorem marked_iff : 0 < side.sign * st.dis x ↔ ∃ d ≤ k, S.graph.IsDist root x d := by
  have := h.layered.seen_iff x
  simpa only [decide_eq_true_eq, isFirst_zero] using this

theorem mem_queue : x ∈ st.queue side ↔ S.graph.IsDist root x k := by
  rw [h.layered.mem_level, Nat.zero_min, isFirst_zero]

theorem dis_eq (hd : d ≤ k) (hx : S.graph.IsDist root x d) : st.dis x = side.mark d := by
  obtain ⟨d', hdis, hdist⟩ := h.depth x (h.marked_iff.mpr ⟨d, hd, hx⟩)
  rw [hdis, hdist.unique hx]

/-- A round of another search that leaves the marked vertices alone. -/
theorem of_keeps {st' : PairState}
    (hkeeps : ∀ x, st.dis x ≠ 0 → st'.dis x = st.dis x ∧ st'.pre x = st.pre x)
    (hnew : ∀ x, st.dis x = 0 → side.sign * st'.dis x ≤ 0)
    (hqueue : st'.queue side = st.queue side) : S.Ball side root k st' := by
  have hmarked : ∀ x, 0 < side.sign * st'.dis x ↔ 0 < side.sign * st.dis x := by
    intro x
    by_cases hx : st.dis x = 0
    · have := hnew x hx
      rw [hx]
      omega
    · rw [(hkeeps x hx).1]
  refine ⟨?_, fun x hx => ?_, h.arrivals.congr fun x d hd hx => ?_⟩
  · simp only [hmarked, hqueue]
    exact h.layered
  · have hx' := (hmarked x).mp hx
    rw [(hkeeps x (ne_zero_of_pos hx')).1]
    exact h.depth x hx'
  · exact (hkeeps x (ne_zero_of_pos (h.marked_iff.mpr ⟨d, hd, hx⟩))).2

theorem candidates_from : ∀ c ∈ S.graph.candidates (st.queue side), st.dis c.1 = side.mark k := by
  rintro ⟨x, y⟩ hc
  exact h.dis_eq le_rfl (h.mem_queue.mp (mem_candidates.mp hc).1)

end

end Ball

/-- The entries by which a search reaches the next layer. -/
def nextLayer (S : SsspSearch) (side : Side) (st : PairState) : List (Nat × Nat) :=
  S.graph.fresh (fun x => decide (0 < side.sign * st.dis x)) (S.graph.candidates (st.queue side))

def levelScan (side : Side) (k : Nat) (st : PairState) (new : List (Nat × Nat)) : LevelScan where
  dis x := if x ∈ new.map (·.2) then side.mark (k + 1) else st.dis x
  pre := (new.foldl addParent (st.pre, [])).1
  tmp := new.map (·.2)

namespace Ball

variable {st : PairState}
  (hto : ∀ c ∈ S.graph.candidates (st.queue side), 0 ≤ side.sign * st.dis c.2)
include hto

theorem expandSide_eq (h : S.Ball side root k st) (hk : k < S.upper) :
    S.expandSide side st = .ok (levelScan side k st (S.nextLayer side st)) := by
  -- what the other search has marked is not met, so that the newcomers are the next layer
  have hnew : S.newcomers st.dis (S.graph.candidates (st.queue side)) = S.nextLayer side st := by
    refine fresh_congr fun c hc => ?_
    rcases eq_zero_or_pos (hto c hc) with hzero | hpos
    · simp [graph, hzero]
    · simp [graph, hpos, ne_zero_of_pos hpos]
  have hscan := @scanAll_eq_ok S side ⟨st.dis, st.pre, []⟩ k _ h.candidates_from hto
  rw [hnew, foldl_addAt_eq, foldl_addParent_snd, nil_append] at hscan
  exact (foldlM_visitVertex (fun x hx => h.dis_eq le_rfl (h.mem_queue.mp hx)) hk).trans hscan

theorem not_marked_of_mem_nextLayer (hx : x ∈ (S.nextLayer side st).map (·.2)) : st.dis x = 0 := by
  obtain ⟨hunseen, c, hc, rfl⟩ := (mem_map_target_fresh (G := S.graph)).mp hx
  rcases eq_zero_or_pos (hto c hc) with hzero | hpos
  · exact hzero
  · exact absurd hpos (of_decide_eq_false hunseen)

/-- A level in which the searches do not meet leaves alone what was marked. -/
theorem levelScan_keeps (hx : st.dis x ≠ 0) :
    (levelScan side k st (S.nextLayer side st)).dis x = st.dis x ∧
      (levelScan side k st (S.nextLayer side st)).pre x = st.pre x := by
  have hnew : x ∉ (S.nextLayer side st).map (·.2) :=
    fun hmem => hx (not_marked_of_mem_nextLayer hto hmem)
  exact ⟨if_neg hnew, foldl_addParent_of_notMem hnew⟩

/-- A level in which the searches do not meet takes the search one step further. -/
theorem next (h : S.Ball side root k st) (hturn : st.turn = side) :
    S.Ball side root (k + 1) (st.advance (levelScan side k st (S.nextLayer side st))) := by
  have hqueue : (st.advance (levelScan side k st (S.nextLayer side st))).queue side =
      (S.nextLayer side st).map (·.2) :=
    hturn ▸ st.advance_queue_turn _
  have hmarked : ∀ x, 0 < side.sign * (levelScan side k st (S.nextLayer side st)).dis x ↔
      0 < side.sign * st.dis x ∨ x ∈ (S.nextLayer side st).map (·.2) := by
    intro x
    by_cases hx : x ∈ (S.nextLayer side st).map (·.2)
    · have hpos : (0 : Int) < k + 1 + 1 := by omega
      simp [levelScan, hx, hpos]
    · simp [levelScan, hx]
  have hlayer : S.graph.Layered 0 root (k + 1)
      (fun x => decide (0 < side.sign * (levelScan side k st (S.nextLayer side st)).dis x))
      ((S.nextLayer side st).map (·.2)) :=
    h.layered.next (Nat.zero_le _) rfl fun x => by simpa using hmarked x
  have hdist : ∀ x, x ∈ (S.nextLayer side st).map (·.2) ↔ S.graph.IsDist root x (k + 1) := by
    intro x
    rw [hlayer.mem_level, Nat.zero_min, isFirst_zero]
  refine ⟨?_, fun x hx => ?_, fun x d hd hx => ?_⟩
  · rw [hqueue]
    exact hlayer
  · by_cases hnew : x ∈ (S.nextLayer side st).map (·.2)
    · exact ⟨k + 1, if_pos hnew, (hdist x).mp hnew⟩
    · obtain ⟨d, hdis, hx'⟩ := h.depth x (((hmarked x).mp hx).resolve_right hnew)
      exact ⟨d, (if_neg hnew).trans hdis, hx'⟩
  · rcases Nat.lt_or_ge k d with hlt | hle
    · obtain rfl : d = k + 1 := by omega
      obtain ⟨y, hy, hpre⟩ := exists_foldl_addParent_of_mem ((hdist x).mpr hx)
      have hcand := mem_candidates.mp (fresh_sublist.subset hy)
      exact .inr ⟨y, k, hpre, rfl, h.mem_queue.mp hcand.1, hcand.2⟩
    · have hne := ne_zero_of_pos (h.marked_iff.mpr ⟨d, hle, hx⟩)
      have hpre := (levelScan_keeps (k := k) hto hne).2
      have := h.arrivals x d hle hx
      rwa [← hpre] at this

end Ball

/-! ## The rounds -/

structure PairInv (S : SsspSearch) (src dst : Nat) (dep : Side → Nat) (st : PairState) : Prop where
  ball : ∀ side, S.Ball side (side.start src dst) (dep side) st
  dep_le : ∀ side, dep side ≤ S.upper

structure PairOutcome (S : SsspSearch) (src dst : Nat) (answer : Bool × List Nat) : Prop where
  found_iff : answer.1 = true ↔ ∃ d, S.graph.IsDist src dst d ∧ S.lower ≤ d ∧ d < S.upper
  path : answer.1 = true → ∃ w, answer.2 = src :: w ∧ S.graph.IsWalk src w ∧
    S.graph.finish src w = dst ∧ S.graph.IsDist src dst w.length

variable {src dst : Nat} {dep : Side → Nat} {st : PairState}

theorem pairOutcome_none (h : ∀ d, S.graph.IsDist src dst d → S.upper ≤ d) :
    S.PairOutcome src dst (false, []) := by
  refine ⟨⟨nofun, ?_⟩, nofun⟩
  rintro ⟨d, hd, -, hlt⟩
  have := h d hd
  omega

theorem pairOutcome_of_walk {w : List Nat} (hwalk : S.graph.IsWalk src w)
    (hfinish : S.graph.finish src w = dst) (hdist : S.graph.IsDist src dst w.length) :
    S.PairOutcome src dst (S.pairAnswer (src :: w)) := by
  have hlen : (src :: w).length - 1 = w.length := rfl
  refine ⟨?_, fun _ => ⟨w, rfl, hwalk, hfinish, hdist⟩⟩
  simp only [pairAnswer, hlen, decide_eq_true_eq]
  constructor
  · intro h
    exact ⟨_, hdist, h⟩
  · rintro ⟨d, hd, h⟩
    rwa [hdist.unique hd]

/-- The two ways back and the edge between them make up a walk. -/
theorem exists_joined (hrev : S.graph.Reversible) {u v a b i j : Nat}
    (hsrc : S.Arrivals pre src a) (hdst : S.Arrivals pre dst b) (hu : S.graph.IsDist src u i)
    (hv : S.graph.IsDist dst v j) (hi : i ≤ a) (hj : j ≤ b) (hnbr : v ∈ S.nbrs u) :
    ∃ w, (∀ fuel, i < fuel → j < fuel → joined fuel pre u v = some (src :: w)) ∧
      S.graph.IsWalk src w ∧ S.graph.finish src w = dst ∧ w.length = i + 1 + j := by
  obtain ⟨w, l, hfollow, hback, hwalk, hfinish, hlen, -, -⟩ := hsrc.exists_followPre hrev hi hu
  obtain ⟨w', l', hfollow', hback', -, -, hlen', hwalk', hfinish'⟩ :=
    hdst.exists_followPre hrev hj hv
  have hlen'' : l'.length = j := by
    have := congrArg List.length hback'
    simpa [hlen'] using this
  refine ⟨w ++ v :: l', fun fuel hfuel hfuel' => ?_, ?_, ?_, ?_⟩
  · rw [joined, hfollow fuel hfuel, Option.bind_some, hfollow' fuel hfuel', Option.map_some, hback,
      reverse_reverse]
    rfl
  · refine (S.graph.isWalk_append src w (v :: l')).mpr ⟨hwalk, ?_⟩
    rw [hfinish]
    exact ⟨hnbr, hwalk'⟩
  · rw [finish_append, finish_cons]
    exact hfinish'
  · simp only [length_append, length_cons, hlen, hlen'']
    omega

namespace PairInv

section

variable (h : S.PairInv src dst dep st)
include h

theorem apart (side : Side) :
    S.graph.Apart (side.start src dst) (side.other.start src dst) (dep side) (dep side.other) := by
  intro x i j hi hj
  by_contra hle
  push Not at hle
  have hpos := (h.ball side).marked_iff.mpr ⟨i, hle.1, hi⟩
  have hneg := (h.ball side.other).marked_iff.mpr ⟨j, hle.2, hj⟩
  rw [sign_other, Int.neg_mul] at hneg
  omega

section

variable (hrev : S.graph.Reversible)
include hrev

theorem lt_of_isDist {d : Nat} (hd : S.graph.IsDist src dst d) (side : Side) : dep side < d := by
  have hlt := (h.apart .fromSrc).lt_of_isDist hrev hd
  cases side with
  | fromSrc => omega
  | fromDst =>
    have : dep fromSrc.other = dep .fromDst := rfl
    omega

theorem not_isDist (hempty : st.queue side = []) (d : Nat) : ¬ S.graph.IsDist src dst d := by
  intro hd
  have hroot : ∃ z, S.graph.IsDist (side.start src dst) z d := by
    cases side with
    | fromSrc => exact ⟨dst, hd⟩
    | fromDst => exact ⟨src, hrev.isDist_symm hd⟩
  obtain ⟨z, hz⟩ := hroot
  obtain ⟨y, hy⟩ := hz.exists_of_le (h.lt_of_isDist hrev hd side).le
  have hmem := (h.ball side).mem_queue.mpr hy
  rw [hempty] at hmem
  cases hmem

/-- The answer when a level meets what the other search has marked. -/
theorem exists_stitch (hmet : ∃ c ∈ S.graph.candidates (st.queue side), side.sign * st.dis c.2 < 0)
    (hk : dep side < S.upper) : ∃ x y pre w, S.expandSide side st = .error (.met x y pre) ∧
      (∀ fuel, S.upper < fuel → stitch fuel pre x y side = some (src :: w)) ∧
      S.graph.IsWalk src w ∧ S.graph.finish src w = dst ∧ S.graph.IsDist src dst w.length := by
  have hball := h.ball side
  obtain ⟨⟨x, y⟩, hc, pre, hscan, hlt, hkeeps⟩ :=
    @exists_scanAll_eq_met side ⟨st.dis, st.pre, []⟩ _ _ S hball.candidates_from hmet
  obtain ⟨hx, hnbr⟩ := mem_candidates.mp hc
  have hxdist := hball.mem_queue.mp hx
  have hpos : 0 < side.other.sign * st.dis y := by
    rw [sign_other, Int.neg_mul]
    exact Int.neg_pos_of_neg hlt
  obtain ⟨j, hj, hydist⟩ := (h.ball side.other).marked_iff.mp hpos
  have hdist := (h.apart side).isDist_of_step hrev hxdist hnbr hydist hj
  have harrivals : ∀ side', S.Arrivals pre (side'.start src dst) (dep side') :=
    fun side' => (h.ball side').arrivals.congr fun z d hd hz =>
      hkeeps z (ne_zero_of_pos ((h.ball side').marked_iff.mpr ⟨d, hd, hz⟩))
  have hle := h.dep_le side.other
  have hexpand : S.expandSide side st = .error (.met x y pre) :=
    (foldlM_visitVertex (fun x hx => hball.dis_eq le_rfl (hball.mem_queue.mp hx)) hk).trans hscan
  refine ⟨x, y, pre, ?_⟩
  cases side with
  | fromSrc =>
    obtain ⟨w, hjoined, hwalk, hfinish, hlen⟩ := exists_joined hrev (harrivals .fromSrc)
      (harrivals .fromDst) hxdist hydist le_rfl hj hnbr
    refine ⟨w, hexpand, fun fuel hfuel => hjoined fuel ?_ ?_, hwalk, hfinish, ?_⟩
    · exact hk.trans hfuel
    · exact (hj.trans hle).trans_lt hfuel
    · rw [hlen]
      exact hdist
  | fromDst =>
    obtain ⟨w, hjoined, hwalk, hfinish, hlen⟩ := exists_joined hrev (harrivals .fromSrc)
      (harrivals .fromDst) hydist hxdist hj le_rfl (mem_nbrs_symm hrev hnbr)
    refine ⟨w, hexpand, fun fuel hfuel => hjoined fuel ?_ ?_, hwalk, hfinish, ?_⟩
    · exact (hj.trans hle).trans_lt hfuel
    · exact hk.trans hfuel
    · have hsum : w.length = dep .fromDst + 1 + j := by omega
      rw [hsum]
      exact hrev.isDist_symm hdist

omit hrev in
theorem next (hturn : st.turn = side) (hk : dep side < S.upper)
    (hto : ∀ c ∈ S.graph.candidates (st.queue side), 0 ≤ side.sign * st.dis c.2) :
    S.PairInv src dst (update dep side (dep side + 1))
      (st.advance (levelScan side (dep side) st (S.nextLayer side st))) := by
  refine ⟨fun side' => ?_, fun side' => ?_⟩
  · rcases eq_or_eq_other side side' with rfl | rfl
    · rw [update_self]
      exact (h.ball _).next hto hturn
    · rw [update_of_ne side.other_ne]
      refine (h.ball side.other).of_keeps (fun x hx => Ball.levelScan_keeps hto hx)
        (fun x hx => ?_) ?_
      · have hpos :
            (0 : Int) ≤ side.sign * (levelScan side (dep side) st (S.nextLayer side st)).dis x := by
          by_cases hnew : x ∈ (S.nextLayer side st).map (·.2)
          · simp only [levelScan, if_pos hnew, sign_mul_mark]
            omega
          · simp only [levelScan, if_neg hnew, hx, Int.mul_zero, le_refl]
        rw [sign_other, Int.neg_mul]
        exact Int.neg_nonpos_of_nonneg hpos
      · exact PairState.advance_queue_of_ne _ (hturn ▸ side.other_ne)
  · rcases eq_or_eq_other side side' with rfl | rfl
    · rw [update_self]
      exact hk
    · rw [update_of_ne side.other_ne]
      exact h.dep_le _

theorem round : (∃ answer, S.PairOutcome src dst answer ∧
      ∀ fuel, S.upper < fuel → S.pairRounds (fuel + 1) st = some answer) ∨
    (dep st.turn < S.upper ∧ ∃ st', (∀ fuel, S.pairRounds (fuel + 1) st = S.pairRounds fuel st') ∧
      S.PairInv src dst (update dep st.turn (dep st.turn + 1)) st') := by
  generalize hturn : st.turn = side
  have hball := h.ball side
  by_cases hempty : st.queue side = []
  · refine .inl ⟨(false, []), pairOutcome_none fun d hd => ?_, fun fuel _ => ?_⟩
    · exact absurd hd (h.not_isDist hrev hempty d)
    · rw [pairRounds, hturn, hempty]
      rfl
  have hisEmpty : ¬ (st.queue side).isEmpty = true := by simpa using hempty
  rcases Nat.lt_or_ge (dep side) S.upper with hk | hk
  swap
  · refine .inl ⟨(false, []), pairOutcome_none fun d hd => ?_, fun fuel _ => ?_⟩
    · exact hk.trans (h.lt_of_isDist hrev hd side).le
    · have hexpand : S.expandSide side st = .error .tooFar := foldlM_visitVertex_tooFar hempty
        (fun x hx => hball.dis_eq le_rfl (hball.mem_queue.mp hx)) hk
      rw [pairRounds, hturn, if_neg hisEmpty, hexpand]
  by_cases hmet : ∃ c ∈ S.graph.candidates (st.queue side), side.sign * st.dis c.2 < 0
  · obtain ⟨x, y, pre, w, hexpand, hstitch, hwalk, hfinish, hdist⟩ := h.exists_stitch hrev hmet hk
    refine .inl ⟨_, pairOutcome_of_walk hwalk hfinish hdist, fun fuel hfuel => ?_⟩
    rw [pairRounds, hturn, if_neg hisEmpty, hexpand]
    simp only [hstitch fuel hfuel, Option.map_some]
  · push Not at hmet
    refine .inr ⟨hk, _, fun fuel => ?_, h.next hturn hk hmet⟩
    rw [pairRounds, hturn, if_neg hisEmpty, hball.expandSide_eq hmet hk]

theorem exists_pairRounds {n : Nat} (hn : 2 * S.upper ≤ dep .fromSrc + dep .fromDst + n) :
    ∃ answer, S.PairOutcome src dst answer ∧ S.pairRounds (n + S.upper + 2) st = some answer := by
  induction n generalizing dep st with
  | zero =>
    rcases h.round hrev with ⟨answer, hanswer, hrounds⟩ | ⟨hlt, -⟩
    · exact ⟨answer, hanswer, hrounds _ (by omega)⟩
    · have hsrc := h.dep_le .fromSrc
      have hdst := h.dep_le .fromDst
      cases hturn : st.turn <;> rw [hturn] at hlt <;> omega
  | succ n ih =>
    rcases h.round hrev with ⟨answer, hanswer, hrounds⟩ | ⟨hlt, st', hrounds, hnext⟩
    · exact ⟨answer, hanswer, hrounds _ (by omega)⟩
    · have hfuel : n + 1 + S.upper + 2 = n + S.upper + 2 + 1 := by omega
      rw [hfuel, hrounds]
      refine ih hnext ?_
      cases st.turn with
      | fromSrc | fromDst =>
        rw [update_self, update_of_ne (by decide)]
        omega

end

end

end PairInv

theorem pairInv_init (S : SsspSearch) (hne : src ≠ dst) :
    S.PairInv src dst (fun _ => 0) (pairInit src dst) := by
  have hdis : ∀ (side : Side) x, 0 < side.sign * (pairInit src dst).dis x ↔
      x = side.start src dst := by
    intro side x
    unfold pairInit
    by_cases hdst : x = dst
    · subst hdst
      cases side <;> simp [sign, Side.start, hne.symm]
    · by_cases hsrc : x = src
      · subst hsrc
        cases side <;> simp [sign, Side.start, hdst]
      · cases side <;> simp [sign, Side.start, hdst, hsrc]
  refine ⟨fun side => ⟨?_, fun x hx => ?_, fun x d hd hx => ?_⟩, fun _ => Nat.zero_le _⟩
  · have hqueue : (pairInit src dst).queue side = [side.start src dst] := by
      cases side <;> rfl
    rw [hqueue]
    exact layered_marked fun x => by simpa using hdis side x
  · obtain rfl := (hdis side x).mp hx
    refine ⟨0, ?_, isDist_self _⟩
    cases side <;> simp [pairInit, Side.start, mark, sign, hne]
  · exact .inl ⟨Nat.le_zero.mp hd, rfl⟩

/-- Between different vertices the search gives the right answer. -/
theorem exists_singlePair (S : SsspSearch) (hrev : S.graph.Reversible) (hne : src ≠ dst) :
    ∃ fuel answer, S.singlePair fuel src dst = some answer ∧ S.PairOutcome src dst answer := by
  obtain ⟨answer, hanswer, hrounds⟩ :=
    (pairInv_init S hne).exists_pairRounds hrev (n := 2 * S.upper) (by omega)
  exact ⟨_, answer, hrounds, hanswer⟩

end SsspSearch

end Neug.Execution
