import Neug.Execution.SinglePairSearch

/-! # The source as its own destination

When the source is the destination, the depth that the second search writes replaces the first
one.  The first search takes its neighbours without marking them and waits with these; the
second search marks level after level, until a level is as long as the list of neighbours.
Then the first search goes on and meets the other one, so that it returns with a closed walk
that is not empty; it is too late for the empty one.
-/

namespace Neug.Execution

open Library Function StepGraph List Option Side

namespace SsspSearch

variable {S : SsspSearch} {s x y z k j : Nat} {pre : Parents}

/-! ## Running longer -/

variable {answer : Bool × List Nat} {n : Nat} {scan : LevelScan} {m : Nat}

theorem followPre_mono {start : Option Nat} {l : List Nat} (hle : n ≤ m)
    (h : followPre pre n start = some l) : followPre pre m start = some l := by
  induction n generalizing m start l with
  | zero =>
    cases start with
    | none => cases m <;> exact h
    | some x => cases h
  | succ n ih =>
    obtain ⟨m, rfl⟩ : ∃ i, m = i + 1 := ⟨m - 1, by omega⟩
    cases start with
    | none => exact h
    | some x =>
      obtain ⟨l', hl', rfl⟩ := map_eq_some_iff.mp h
      exact map_eq_some_iff.mpr ⟨l', ih (by omega) hl', rfl⟩

theorem followPre_length {l : List Nat} (h : followPre pre n (some x) = some l) : 1 ≤ l.length := by
  cases n with
  | zero => cases h
  | succ n =>
    obtain ⟨l', -, rfl⟩ := map_eq_some_iff.mp h
    exact Nat.le_add_left 1 _

theorem joined_mono {u v : Nat} {l : List Nat} (hle : n ≤ m) (h : joined n pre u v = some l) :
    joined m pre u v = some l ∧ 2 ≤ l.length := by
  obtain ⟨front, hfront, hmap⟩ := bind_eq_some_iff.mp h
  obtain ⟨back, hback, rfl⟩ := map_eq_some_iff.mp hmap
  rw [joined, followPre_mono hle hfront, bind_some, followPre_mono hle hback, map_some]
  have hfront' := followPre_length hfront
  have hback' := followPre_length hback
  rw [length_append, length_reverse]
  exact ⟨rfl, by omega⟩

/-- A longer run gives the same answer.  In a path the source and the destination are listed
separately, also when they are the same. -/
theorem pairRounds_mono {st : PairState} (hle : n ≤ m) (h : S.pairRounds n st = some answer) :
    S.pairRounds m st = some answer ∧ (answer.1 = true → 2 ≤ answer.2.length) := by
  induction n generalizing m st with
  | zero => cases h
  | succ n ih =>
    obtain ⟨m, rfl⟩ : ∃ i, m = i + 1 := ⟨m - 1, by omega⟩
    rw [pairRounds] at h ⊢
    by_cases hempty : (st.queue st.turn).isEmpty = true
    · rw [if_pos hempty] at h ⊢
      cases h
      exact ⟨rfl, by simp⟩
    rw [if_neg hempty] at h ⊢
    cases hexpand : S.expandSide st.turn st with
    | error stop =>
      rw [hexpand] at h
      cases stop with
      | tooFar =>
        cases h
        exact ⟨rfl, by simp⟩
      | met x y pre =>
        obtain ⟨path, hpath, rfl⟩ := map_eq_some_iff.mp h
        cases hturn : st.turn with
        | fromSrc | fromDst =>
          rw [hturn] at hpath
          obtain ⟨hlonger, hlength⟩ := joined_mono (Nat.le_of_succ_le_succ hle) hpath
          exact ⟨map_eq_some_iff.mpr ⟨path, hlonger, rfl⟩, fun _ => hlength⟩
    | ok scan =>
      rw [hexpand] at h
      exact ih (by omega) h

/-! ## The first round -/

/-- Vertices that are not marked are collected as reached from `x`: each of them once, or with
repetitions when the depth that they get is no mark. -/
theorem foldlM_visitNbr_new {l : List Nat} {side : Side} (hx : scan.dis x ≠ 0)
    (hagain : scan.dis x + side.sign = 0 ∨ l.Nodup) (hzero : ∀ y ∈ l, scan.dis y = 0) :
    l.foldlM (visitNbr side x) scan =
      .ok ⟨fun y => if y ∈ l then scan.dis x + side.sign else scan.dis y,
        fun y => if y ∈ l then some x else scan.pre y, scan.tmp ++ l⟩ := by
  induction l generalizing scan with
  | nil =>
    simp only [foldlM_nil, not_mem_nil, if_false, append_nil]
    rfl
  | cons y l ih =>
    have hxy : x ≠ y := by
      rintro rfl
      exact hx (hzero x mem_cons_self)
    have hvisit : visitNbr side x scan y = .ok ⟨update scan.dis y (scan.dis x + side.sign),
        update scan.pre y (some x), scan.tmp ++ [y]⟩ := by
      rw [visitNbr, if_pos (hzero y mem_cons_self)]
    rw [foldlM_cons, hvisit]
    refine (@ih ⟨_, _, _⟩ ?_ ?_ ?_).trans ?_
    · simpa [update_of_ne hxy] using hx
    · simpa [update_of_ne hxy] using hagain.imp_right (·.of_cons)
    · intro z hz
      by_cases hzy : z = y
      · subst hzy
        simpa [(nodup_cons.not.mpr (by simp [hz]) : ¬ (z :: l).Nodup)] using hagain
      · simpa [update_of_ne hzy] using hzero z (mem_cons_of_mem y hz)
    · simp only [update_of_ne hxy, append_assoc, singleton_append,
        Except.ok.injEq, LevelScan.mk.injEq, and_true]
      refine ⟨?_, ?_⟩ <;> funext z <;> by_cases hz : z ∈ l <;>
        by_cases hzy : z = y <;> simp [hz, hzy]

theorem pairInit_dis_self (hx : x ≠ s) : (pairInit s s).dis x = 0 := by
  simp [pairInit, hx]

theorem pairInit_dis_start : (pairInit s s).dis s = -1 := by
  simp [pairInit]

/-- The neighbours of the source are collected, with repetitions, and not marked. -/
theorem foldlM_visitNbr_self {l : List Nat} (hs : s ∉ l) :
    l.foldlM (visitNbr .fromSrc s) ⟨(pairInit s s).dis, (pairInit s s).pre, []⟩ =
      .ok ⟨(pairInit s s).dis, fun x => if x ∈ l then some s else none, l⟩ := by
  have hzero : ∀ y ∈ l, (pairInit s s).dis y = 0 :=
    fun y hy => pairInit_dis_self fun heq => hs (heq ▸ hy)
  rw [foldlM_visitNbr_new (by simp [pairInit_dis_start]) (.inl (by simp [pairInit_dis_start, sign]))
    hzero]
  simp only [Except.ok.injEq, LevelScan.mk.injEq]
  refine ⟨?_, rfl, rfl⟩
  funext y
  split_ifs with hy
  · simp [hzero y hy, pairInit_dis_start, sign]
  · rfl

/-! ## One vertex of the queue -/

section Expand

variable {side : Side} {st : PairState} {l rest : List Nat}

theorem expandSide_singleton (hqueue : st.queue side = [x]) :
    S.expandSide side st = S.visitVertex side ⟨st.dis, st.pre, []⟩ x := by
  rw [expandSide, hqueue, foldlM_cons]
  exact bind_pure _

theorem expandSide_cons_error {stop : PairStop} (hqueue : st.queue side = x :: rest)
    (h : S.visitVertex side ⟨st.dis, st.pre, []⟩ x = .error stop) :
    S.expandSide side st = .error stop := by
  rw [expandSide, hqueue, foldlM_cons, h]
  rfl

/-- The neighbours before one that the other search has marked, and this one. -/
theorem visitVertex_eq_met {scan scan' : LevelScan} {before after : List Nat}
    (hdis : scan.dis x ≤ 0) (hsplit : S.nbrs x = before ++ z :: after)
    (hbefore : before.foldlM (visitNbr .fromSrc x) scan = .ok scan') (hz : scan'.dis z < 0) :
    S.visitVertex .fromSrc scan x = .error (.met x z scan'.pre) := by
  have hcheck : ¬ (S.upper : Int) + 1 ≤ fromSrc.sign * scan.dis x := by
    rw [sign, Int.one_mul]
    omega
  have hmet : visitNbr .fromSrc x scan' z = .error (.met x z scan'.pre) := by
    rw [visitNbr, if_neg (by omega), if_pos (by rwa [sign, Int.one_mul])]
  have hcons : (z :: after).foldlM (visitNbr .fromSrc x) scan' = .error (.met x z scan'.pre) := by
    rw [foldlM_cons, hmet]
    rfl
  rw [visitVertex, if_neg hcheck, hsplit, foldlM_append, hbefore]
  exact hcons

theorem pairRounds_of_met {fuel : Nat} (hturn : st.turn = .fromSrc)
    (hqueue : st.queue .fromSrc = x :: rest)
    (h : S.visitVertex .fromSrc ⟨st.dis, st.pre, []⟩ x = .error (.met x y pre)) :
    S.pairRounds (fuel + 1) st = (joined fuel pre x y).map S.pairAnswer := by
  rw [pairRounds, hturn, hqueue, if_neg (by simp), expandSide_cons_error hqueue h]
  rfl

end Expand

/-- A loop at the source is taken for a path of length one. -/
theorem singlePair_of_loop (hloop : s ∈ S.nbrs s) :
    S.singlePair 2 s s = some (S.pairAnswer [s, s]) := by
  obtain ⟨before, after, hsplit, hbefore⟩ := eq_append_cons_of_mem hloop
  have hstart : (pairInit s s).dis s < 0 := by
    rw [pairInit_dis_start]
    decide
  have hvisit := visitVertex_eq_met hstart.le hsplit (foldlM_visitNbr_self hbefore) hstart
  refine (pairRounds_of_met rfl rfl hvisit).trans ?_
  simp [joined, followPre, hbefore]

/-! ## While the second search goes on -/

/-- The first search waits with the neighbours of the source, and the second one has taken `j`
levels. -/
structure SelfInv (S : SsspSearch) (s j : Nat) (st : PairState) : Prop where
  ball : S.Ball .fromDst s j st
  nonpos : ∀ x, st.dis x ≤ 0
  queue : st.queue .fromSrc = S.nbrs s
  pre_nbr : ∀ x ∈ S.nbrs s, st.pre x = some s

theorem isDist_one (hs : s ∉ S.nbrs s) (hx : x ∈ S.nbrs s) : S.graph.IsDist s x 1 := by
  refine ⟨reaches_one.mpr ⟨x, hx, rfl⟩, fun k hk hreach => ?_⟩
  obtain rfl : k = 0 := by omega
  rw [reaches_zero.mp hreach] at hx
  exact hs hx

theorem Arrivals.pre_nbr (h : S.Arrivals pre s (j + 1)) (hs : s ∉ S.nbrs s) (hx : x ∈ S.nbrs s) :
    pre x = some s := by
  rcases h x 1 (by omega) (isDist_one hs hx) with ⟨hone, -⟩ | ⟨y, d, hpre, hone, hy, -⟩
  · omega
  · obtain rfl : d = 0 := by omega
    rw [hpre, isDist_zero.mp hy]

def waiting (S : SsspSearch) (s : Nat) : PairState :=
  (pairInit s s).advance
    ⟨(pairInit s s).dis, fun x => if x ∈ S.nbrs s then some s else none, S.nbrs s⟩

theorem singlePair_eq_waiting (hs : s ∉ S.nbrs s) (fuel : Nat) :
    S.singlePair (fuel + 1) s s = S.pairRounds fuel (S.waiting s) := by
  have hcheck : ¬ (S.upper : Int) + 1 ≤ fromSrc.sign * (pairInit s s).dis s := by
    rw [pairInit_dis_start, sign]
    omega
  have hturn : (pairInit s s).turn = .fromSrc := rfl
  have hempty : ¬ ((pairInit s s).queue .fromSrc).isEmpty = true :=
    Bool.false_ne_true
  rw [singlePair, pairRounds, hturn, if_neg hempty, expandSide_singleton rfl, visitVertex,
    if_neg hcheck, foldlM_visitNbr_self hs]
  rfl

theorem selfInv_waiting (hs : s ∉ S.nbrs s) : S.SelfInv s 0 (S.waiting s) := by
  have hzero : ∀ x, x ≠ s → (S.waiting s).dis x = 0 := fun x hx => pairInit_dis_self hx
  have hstart : (S.waiting s).dis s = -1 := pairInit_dis_start
  have hmarked : ∀ x, 0 < fromDst.sign * (S.waiting s).dis x ↔ x = s := by
    intro x
    by_cases hx : x = s
    · simp [hx, hstart, sign]
    · simp [hx, hzero x hx]
  refine ⟨⟨?_, fun x hx => ?_, fun x d hd hx => ?_⟩, fun x => ?_, rfl, fun x hx => if_pos hx⟩
  · exact layered_marked fun x => by simpa using hmarked x
  · obtain rfl := (hmarked x).mp hx
    exact ⟨0, hstart, isDist_self x⟩
  · obtain rfl : d = 0 := by omega
    obtain rfl := isDist_zero.mp hx
    exact .inl ⟨rfl, if_neg hs⟩
  · by_cases hx : x = s
    · rw [hx, hstart]
      decide
    · rw [hzero x hx]

/-- At least as many vertices as the source has neighbours, counted with repetitions, are at
distance `j`. -/
def Wide (S : SsspSearch) (s j : Nat) : Prop :=
  ∃ l : List Nat, l.Nodup ∧ (∀ x ∈ l, S.graph.IsDist s x j) ∧ l.length = (S.nbrs s).length

namespace SelfInv

variable {st : PairState}

section

variable (h : S.SelfInv s j st)
include h

theorem turn_eq_iff : st.turn = .fromSrc ↔ S.Wide s j := by
  have hturn : st.turn = .fromSrc ↔ (S.nbrs s).length ≤ (st.queue .fromDst).length := by
    unfold PairState.turn
    rw [h.queue]
    split_ifs with hle
    · simp [hle]
    · simp [hle]
  rw [hturn]
  constructor
  · intro hle
    refine ⟨(st.queue .fromDst).take (S.nbrs s).length, ?_, fun x hx => ?_, ?_⟩
    · exact h.ball.layered.nodup_level.sublist (take_sublist _ _)
    · exact h.ball.mem_queue.mp (mem_of_mem_take hx)
    · exact length_take_of_le hle
  · rintro ⟨l, hnodup, hl, hlen⟩
    rw [← hlen]
    exact (hnodup.subperm fun x hx => h.ball.mem_queue.mpr (hl x hx)).length_le

theorem turn_eq_of_not_wide (hwide : ¬ S.Wide s j) : st.turn = .fromDst := by
  cases hturn : st.turn with
  | fromSrc => exact absurd (h.turn_eq_iff.mp hturn) hwide
  | fromDst => rfl

theorem candidates_nonneg (x : Nat) : 0 ≤ fromDst.sign * st.dis x := by
  have := h.nonpos x
  rw [sign, Int.neg_one_mul]
  omega

/-- A level of the second search. -/
theorem next (hs : s ∉ S.nbrs s) (hwide : ¬ S.Wide s j) :
    S.SelfInv s (j + 1) (st.advance (levelScan .fromDst j st (S.nextLayer .fromDst st))) := by
  have hball := h.ball.next (fun c _ => h.candidates_nonneg c.2) (h.turn_eq_of_not_wide hwide)
  refine ⟨hball, fun x => ?_, ?_, fun x hx => hball.arrivals.pre_nbr hs hx⟩
  · by_cases hnew : x ∈ (S.nextLayer .fromDst st).map (·.2)
    · simp only [PairState.advance, levelScan, if_pos hnew, mark, sign]
      omega
    · simp only [PairState.advance, levelScan, if_neg hnew, h.nonpos x]
  · have hne : fromSrc ≠ st.turn := by
      rw [h.turn_eq_of_not_wide hwide]
      decide
    exact (PairState.advance_queue_of_ne _ hne).trans h.queue

theorem pairRounds_eq (hwide : ¬ S.Wide s j) (fuel : Nat) : S.pairRounds (fuel + 1) st =
      if st.queue .fromDst = [] ∨ S.upper ≤ j then some (false, [])
      else S.pairRounds fuel (st.advance (levelScan .fromDst j st (S.nextLayer .fromDst st))) := by
  rw [pairRounds, h.turn_eq_of_not_wide hwide]
  by_cases hempty : st.queue .fromDst = []
  · rw [hempty]
    rfl
  rw [if_neg (by simpa using hempty)]
  rcases Nat.lt_or_ge j S.upper with hlt | hge
  · rw [if_neg (by simp [hempty, hlt]),
      h.ball.expandSide_eq (fun c _ => h.candidates_nonneg c.2) hlt]
  · have hexpand : S.expandSide .fromDst st = .error .tooFar := foldlM_visitVertex_tooFar hempty
      (fun x hx => h.ball.dis_eq le_rfl (h.ball.mem_queue.mp hx)) hge
    rw [if_pos (.inr hge), hexpand]

/-- The second search goes on up to the first level that is wide enough. -/
theorem exists_run (hs : s ∉ S.nbrs s) {n : Nat} (hn : j + n ≤ S.upper)
    (hwide : S.Wide s (j + n)) (hmin : ∀ i < j + n, ¬ S.Wide s i) :
    ∃ st', S.SelfInv s (j + n) st' ∧
      ∀ fuel, S.pairRounds (fuel + n) st = S.pairRounds fuel st' := by
  induction n generalizing j st with
  | zero => exact ⟨st, h, fun fuel => rfl⟩
  | succ n ih =>
    have hnot := hmin j (by omega)
    have hqueue : st.queue .fromDst ≠ [] := by
      -- no neighbours would make every level wide
      intro hempty
      obtain ⟨l, hnodup, hl, hlen⟩ := hwide
      cases l with
      | nil => exact hnot ⟨[], nodup_nil, by simp, hlen⟩
      | cons x l =>
        obtain ⟨y, hy⟩ := (hl x mem_cons_self).exists_of_le (k := j) (by omega)
        have hmem := h.ball.mem_queue.mpr hy
        rw [hempty] at hmem
        cases hmem
    have hsum : j + (n + 1) = j + 1 + n := by omega
    rw [hsum] at hwide hmin hn ⊢
    obtain ⟨st', hst', hrounds⟩ := ih (h.next hs hnot) hn hwide hmin
    refine ⟨st', hst', fun fuel => ?_⟩
    rw [← hrounds, ← Nat.add_assoc, h.pairRounds_eq hnot, if_neg]
    simp only [hqueue, false_or]
    omega

/-- Without such a level the search ends without an answer. -/
theorem exists_run_none (hs : s ∉ S.nbrs s) {n : Nat} (hn : S.upper ≤ j + n)
    (hnot : ∀ i, i ≤ j + n → ¬ S.Wide s i) : S.pairRounds (n + 1) st = some (false, []) := by
  induction n generalizing j st with
  | zero =>
    rw [h.pairRounds_eq (hnot j (by omega)), if_pos (.inr hn)]
  | succ n ih =>
    rw [h.pairRounds_eq (hnot j (by omega))]
    split_ifs
    · rfl
    · exact ih (h.next hs (hnot j (by omega))) (by omega) fun i hi => hnot i (by omega)

end

end SelfInv

/-! ## The first search goes on -/

/-- The vertex `z` at which the scan of the neighbours of `y` ends, when the vertices within `j`
steps are marked: the first one that is marked or has come up before. -/
def Closes (S : SsspSearch) (s j y z : Nat) : Prop :=
  ∃ before after, S.nbrs y = before ++ z :: after ∧ before.Nodup ∧
    (∀ b ∈ before, ∀ d ≤ j, ¬ S.graph.IsDist s b d) ∧
    (z ∈ before ∨ ∃ d ≤ j, S.graph.IsDist s z d)

/-- A list has distinct elements that are not marked, or a first one that is marked or has come
up before. -/
theorem nodup_or_exists_first (P : Nat → Prop) (l : List Nat) : (l.Nodup ∧ ∀ b ∈ l, ¬ P b) ∨
      ∃ before z after, l = before ++ z :: after ∧ before.Nodup ∧ (∀ b ∈ before, ¬ P b) ∧
        (z ∈ before ∨ P z) := by
  induction l using reverseRecOn with
  | nil => exact .inl ⟨nodup_nil, by simp⟩
  | append_singleton l x ih =>
    rcases ih with ⟨hnodup, hl⟩ | ⟨before, z, after, rfl, hbefore⟩
    · by_cases hx : x ∈ l ∨ P x
      · exact .inr ⟨l, x, [], rfl, hnodup, hl, hx⟩
      · push Not at hx
        refine .inl ⟨?_, ?_⟩
        · rw [nodup_append_comm]
          exact nodup_cons.mpr ⟨hx.1, hnodup⟩
        · exact forall_mem_append.mpr ⟨hl, forall_mem_singleton.mpr hx.2⟩
    · exact .inr ⟨before, z, after ++ [x], by simp, hbefore⟩

/-- The neighbours of a neighbour of the source lead back to it. -/
theorem exists_closes (hrev : S.graph.Reversible) (hy : y ∈ S.nbrs s) (j : Nat) :
    ∃ z, S.Closes s j y z := by
  rcases nodup_or_exists_first (fun b => ∃ d ≤ j, S.graph.IsDist s b d) (S.nbrs y) with
    ⟨-, hnot⟩ | ⟨before, z, after, hsplit, hnodup, hbefore, hz⟩
  · exact absurd ⟨0, Nat.zero_le j, isDist_self s⟩ (hnot s (mem_nbrs_symm hrev hy))
  · refine ⟨z, before, after, hsplit, hnodup, fun b hb d hd hdist => ?_, hz⟩
    exact hbefore b hb ⟨d, hd, hdist⟩

theorem followPre_pair {fuel : Nat} (hy : pre y = some s) (hs : pre s = none) (hfuel : 2 ≤ fuel) :
    followPre pre fuel (some y) = some [y, s] := by
  refine followPre_mono hfuel ?_
  simp [followPre, hy, hs]

namespace SelfInv

variable {st : PairState}

theorem dis_neg_iff (h : S.SelfInv s j st) : st.dis x < 0 ↔ ∃ d ≤ j, S.graph.IsDist s x d := by
  rw [← h.ball.marked_iff, sign, Int.neg_one_mul]
  omega

theorem dis_eq_zero (h : S.SelfInv s j st) (hx : ∀ d ≤ j, ¬ S.graph.IsDist s x d) :
    st.dis x = 0 := by
  refine le_antisymm (h.nonpos x) (Int.not_lt.mp fun hlt => ?_)
  obtain ⟨d, hd, hdist⟩ := h.dis_neg_iff.mp hlt
  exact hx d hd hdist

theorem pre_start (h : S.SelfInv s j st) : st.pre s = none := by
  rcases h.ball.arrivals s 0 (Nat.zero_le j) (isDist_self s) with ⟨-, hpre⟩ | ⟨_, d, -, hd, -⟩
  · exact hpre
  · omega

section

variable (h : S.SelfInv s j st) (hrev : S.graph.Reversible) (hj : 0 < j) (hs : s ∉ S.nbrs s)
include h hrev hj hs

theorem exists_back (hy : y ∈ S.nbrs s) {before after : List Nat}
    (hsplit : S.nbrs y = before ++ z :: after)
    (hbefore : ∀ b ∈ before, ∀ d ≤ j, ¬ S.graph.IsDist s b d)
    (hz : z ∈ before ∨ ∃ d ≤ j, S.graph.IsDist s z d) :
    ∃ d back, S.graph.IsDist s z d ∧ back.length = d + 1 ∧ ∀ fuel, d < fuel →
      followPre (fun x => if x ∈ before then some y else st.pre x) fuel (some z) = some back := by
  have hnotBefore : ∀ x d, d ≤ j → S.graph.IsDist s x d → x ∉ before :=
    fun x d hd hx hmem => hbefore x hmem d hd hx
  by_cases hmem : z ∈ before
  · -- a vertex that comes up twice is two steps away and was reached from `y`
    have hreach : S.graph.Reaches s z 2 :=
      (reaches_one.mpr ⟨y, hy, rfl⟩).concat (by
        change z ∈ S.nbrs y
        rw [hsplit]
        simp)
    refine ⟨2, [z, y, s], ⟨hreach, fun k hk hreach' => ?_⟩, rfl, fun fuel hfuel => ?_⟩
    · obtain ⟨d, hd, hdist⟩ := hreach'.exists_isDist
      exact hbefore z hmem d (by omega) hdist
    · have hyBefore := hnotBefore y 1 hj (isDist_one hs hy)
      have hsBefore := hnotBefore s 0 (Nat.zero_le j) (isDist_self s)
      refine followPre_mono (n := 3) (by omega) ?_
      simp [followPre, hmem, hyBefore, hsBefore, h.pre_nbr y hy, h.pre_start]
  · obtain ⟨d, hd, hdist⟩ := hz.resolve_left hmem
    have harrivals : S.Arrivals (fun x => if x ∈ before then some y else st.pre x) s j :=
      h.ball.arrivals.congr fun x d hd hx => if_neg (hnotBefore x d hd hx)
    obtain ⟨w, w', hfollow, hback, -, -, hlen, -, -⟩ := harrivals.exists_followPre hrev hd hdist
    refine ⟨d, z :: w', hdist, ?_, hfollow⟩
    rw [hback, length_reverse, length_cons, hlen]

/-- The closed walk that is returned when the first search goes on. -/
theorem exists_closed_walk (hwide : S.Wide s j) {rest : List Nat} (hnbrs : S.nbrs s = y :: rest)
    (hcloses : S.Closes s j y z) : ∃ w d, S.graph.IsDist s z d ∧ w.length = d + 2 ∧
      S.pairRounds (d + 3) st = some (S.pairAnswer (s :: w)) := by
  obtain ⟨before, after, hsplit, hnodup, hbefore, hz⟩ := hcloses
  have hy : y ∈ S.nbrs s := by
    rw [hnbrs]
    exact mem_cons_self
  have hydis : st.dis y < 0 := h.dis_neg_iff.mpr ⟨1, hj, isDist_one hs hy⟩
  have hydis' : st.dis y = -2 := h.ball.dis_eq hj (isDist_one hs hy)
  have hzero : ∀ b ∈ before, st.dis b = 0 := fun b hb => h.dis_eq_zero (hbefore b hb)
  have hscan :=
    @foldlM_visitNbr_new y ⟨st.dis, st.pre, []⟩ before .fromSrc hydis.ne (.inr hnodup) hzero
  obtain ⟨d, back, hdist, hlen, hfollow⟩ := h.exists_back hrev hj hs hy hsplit hbefore hz
  have hzdis : (if z ∈ before then st.dis y + fromSrc.sign else st.dis z) < 0 := by
    split_ifs with hmem
    · rw [hydis', sign]
      decide
    · exact h.dis_neg_iff.mpr (hz.resolve_left hmem)
  have hvisit := visitVertex_eq_met hydis.le hsplit hscan hzdis
  have hyBefore : y ∉ before := fun hmem => hydis.ne (hzero y hmem)
  have hsBefore : s ∉ before := fun hmem =>
    hbefore s hmem 0 (Nat.zero_le j) (isDist_self s)
  have hfront : followPre (fun x => if x ∈ before then some y else st.pre x) (d + 2) (some y) =
      some [y, s] :=
    followPre_pair ((if_neg hyBefore).trans (h.pre_nbr y hy))
      ((if_neg hsBefore).trans h.pre_start) (Nat.le_add_left 2 d)
  refine ⟨y :: back, d, hdist, by simp [hlen], ?_⟩
  rw [pairRounds_of_met (h.turn_eq_iff.mpr hwide) (h.queue.trans hnbrs) hvisit, joined, hfront,
    bind_some, hfollow _ (by omega)]
  rfl

end

end SelfInv

/-! ## A single edge at the source -/

theorem foldlM_visitNbr_keeps {l : List Nat} {scan' : LevelScan} {side : Side}
    (h : l.foldlM (visitNbr side x) scan = .ok scan') (hz : scan.dis z ≠ 0) :
    scan'.dis z = scan.dis z ∧ scan'.pre z = scan.pre z := by
  have hscan : scanAll side scan (l.map (Prod.mk x)) = .ok scan' := by
    rw [scanAll, foldlM_map]
    exact h
  exact scanAll_keeps hscan hz

/-- Vertices that the other search has not marked are passed.  A vertex without a depth that is
its own neighbour is marked as reached from itself. -/
theorem exists_foldlM_visitNbr {l : List Nat} (hx : 0 ≤ scan.dis x) (hl : ∀ z ∈ l, 0 ≤ scan.dis z) :
    ∃ scan', l.foldlM (visitNbr .fromSrc x) scan = .ok scan' ∧
      (∀ z ∉ l, scan'.dis z = scan.dis z ∧ scan'.pre z = scan.pre z) ∧
      (x ∈ l → scan.dis x = 0 → scan'.pre x = some x) := by
  induction l generalizing scan with
  | nil => exact ⟨scan, rfl, fun _ _ => ⟨rfl, rfl⟩, nofun⟩
  | cons y l ih =>
    have hstep : ∃ next, visitNbr .fromSrc x scan y = .ok next ∧
        (∀ z, 0 ≤ scan.dis z → 0 ≤ next.dis z) ∧
        (∀ z, z ≠ y → next.dis z = scan.dis z ∧ next.pre z = scan.pre z) ∧
        (x = y → scan.dis x = 0 → next.dis x ≠ 0 ∧ next.pre x = some x) := by
      unfold visitNbr
      by_cases hy : scan.dis y = 0
      · refine ⟨_, if_pos hy, fun z hz => ?_, fun z hz => ?_, ?_⟩
        · by_cases hzy : z = y
          · simp only [hzy, update_self, sign]
            omega
          · simpa [update_of_ne hzy] using hz
        · exact ⟨update_of_ne hz _ _, update_of_ne hz _ _⟩
        · rintro rfl hzero
          simp [hzero, sign]
      · have hnonneg := hl y mem_cons_self
        refine ⟨scan, ?_, fun _ h => h, fun _ _ => ⟨rfl, rfl⟩,
          fun hxy hzero => absurd (hxy ▸ hzero) hy⟩
        rw [if_neg hy, if_neg (by rw [sign, Int.one_mul]; omega)]
    obtain ⟨next, hvisit, hnonneg, hother, hself⟩ := hstep
    obtain ⟨scan', hscan, hother', hself'⟩ := @ih next (hnonneg x hx)
      fun z hz => hnonneg z (hl z (mem_cons_of_mem y hz))
    refine ⟨scan', ?_, fun z hz => ?_, fun hmem hzero => ?_⟩
    · rw [foldlM_cons, hvisit]
      exact hscan
    · rw [mem_cons, not_or] at hz
      obtain ⟨hdis, hpre⟩ := hother' z hz.2
      obtain ⟨hdis', hpre'⟩ := hother z hz.1
      exact ⟨hdis.trans hdis', hpre.trans hpre'⟩
    · by_cases hxy : x = y
      · obtain ⟨hdis, hpre⟩ := hself hxy hzero
        rw [(foldlM_visitNbr_keeps hscan hdis).2, hpre]
      · exact hself' ((mem_cons.mp hmem).resolve_left hxy) ((hother x hxy).1.trans hzero)

theorem followPre_loop (hx : pre x = some x) (fuel : Nat) : followPre pre fuel (some x) = none := by
  induction fuel with
  | zero => rfl
  | succ fuel ih => rw [followPre, hx, ih, map_none]

namespace SelfInv

variable {st : PairState} {before after : List Nat}

theorem exists_scan_before (h : S.SelfInv s 0 st) (hs : s ∉ before) (hy : y ≠ s) :
    ∃ scan, before.foldlM (visitNbr .fromSrc y) ⟨st.dis, st.pre, []⟩ = .ok scan ∧
      scan.dis s < 0 ∧ scan.pre s = none ∧
      scan.pre y = if y ∈ before then some y else st.pre y := by
  have hzero : ∀ x, x ≠ s → st.dis x = 0 := fun x hx => h.dis_eq_zero fun d hd hdist => by
    obtain rfl : d = 0 := by omega
    exact hx (isDist_zero.mp hdist)
  obtain ⟨scan, hscan, hother, hself⟩ :=
    @exists_foldlM_visitNbr y ⟨st.dis, st.pre, []⟩ before (hzero y hy).ge
      fun x hx => (hzero x fun heq => hs (heq ▸ hx)).ge
  refine ⟨scan, hscan, ?_, ?_, ?_⟩
  · rw [(hother s hs).1]
    exact h.dis_neg_iff.mpr ⟨0, le_rfl, isDist_self s⟩
  · rw [(hother s hs).2]
    exact h.pre_start
  · split_ifs with hmem
    · exact hself hmem (hzero y hy)
    · exact (hother y hmem).2

/-- The only edge is walked there and back, unless the scan meets a loop at its other end. -/
theorem pairRounds_single (h : S.SelfInv s 0 st) (hwide : S.Wide s 0) (hnbrs : S.nbrs s = [y])
    (hy : y ≠ s) (hsplit : S.nbrs y = before ++ s :: after) (hs : s ∉ before) (fuel : Nat) :
    S.pairRounds (fuel + 3) st = if y ∈ before then none else some (S.pairAnswer [s, y, s]) := by
  obtain ⟨scan, hscan, hdis, hpre, hprey⟩ := h.exists_scan_before hs hy
  have hvisit := visitVertex_eq_met (h.nonpos y) hsplit hscan hdis
  rw [pairRounds_of_met (h.turn_eq_iff.mpr hwide) (h.queue.trans hnbrs) hvisit, joined]
  split_ifs with hmem
  · rw [if_pos hmem] at hprey
    rw [followPre_loop hprey]
    rfl
  · rw [if_neg hmem, h.pre_nbr y (by rw [hnbrs]; exact mem_singleton_self y)] at hprey
    rw [followPre_pair hprey hpre (by omega), bind_some, followPre, hpre]
    rfl

end SelfInv

/-! ## Which sources find nothing -/

def InHops (S : SsspSearch) (d : Nat) : Prop :=
  S.lower ≤ d ∧ d < S.upper

/-- No closed walk at the source is taken for an answer.  The neighbours of a vertex are listed
in the order of its outgoing and then its incoming edges. -/
structure Quiet (S : SsspSearch) (s : Nat) : Prop where
  loop : s ∈ S.nbrs s → ¬ S.InHops 1
  single : s ∉ S.nbrs s → ∀ y before after, S.nbrs s = [y] → S.nbrs y = before ++ s :: after →
    s ∉ before → y ∉ before ∧ ¬ S.InHops 2
  closed : s ∉ S.nbrs s → ∀ y rest j z d, S.nbrs s = y :: rest → 0 < j → j ≤ S.upper →
    S.Wide s j → (∀ i < j, ¬ S.Wide s i) → S.Closes s j y z → S.graph.IsDist s z d →
    ¬ S.InHops (d + 2)

theorem pairAnswer_eq_false {w : List Nat} :
    (S.pairAnswer (s :: w)).1 = false ↔ ¬ S.InHops w.length := by
  have hlen : (s :: w).length - 1 = w.length := rfl
  simp only [pairAnswer, hlen, decide_eq_false_iff_not, InHops]

theorem singlePair_unique {src dst : Nat} {answer' : Bool × List Nat}
    (h : S.singlePair n src dst = some answer) (h' : S.singlePair m src dst = some answer') :
    answer = answer' := by
  have hn := (pairRounds_mono (Nat.le_max_left n m) h).1
  have hm := (pairRounds_mono (Nat.le_max_right n m) h').1
  exact Option.some.inj (hn.symm.trans hm)

/-- Only one vertex is at distance zero. -/
theorem wide_zero_iff : S.Wide s 0 ↔ (S.nbrs s).length ≤ 1 := by
  constructor
  · rintro ⟨l, hnodup, hl, hlen⟩
    rw [← hlen]
    have hsub : l ⊆ [s] := fun x hx => by
      simpa using isDist_zero.mp (hl x hx)
    exact (hnodup.subperm hsub).length_le
  · intro hle
    refine ⟨[s].take (S.nbrs s).length, ?_, fun x hx => ?_, length_take_of_le hle⟩
    · exact (nodup_singleton s).sublist (take_sublist _ _)
    · exact isDist_zero.mpr (by simpa using mem_of_mem_take hx)

def EndsWithout (S : SsspSearch) (s : Nat) : Prop :=
  ∃ fuel answer, S.singlePair fuel s s = some answer ∧ answer.1 = false

theorem endsWithout_iff_of_answer {fuel : Nat} (h : S.singlePair fuel s s = some answer) :
    S.EndsWithout s ↔ answer.1 = false := by
  constructor
  · rintro ⟨n, answer', h', hfalse⟩
    rwa [singlePair_unique h h']
  · intro hfalse
    exact ⟨fuel, answer, h, hfalse⟩

theorem endsWithout_iff_of_loop (hloop : s ∈ S.nbrs s) : S.EndsWithout s ↔ S.Quiet s := by
  rw [endsWithout_iff_of_answer (singlePair_of_loop hloop), pairAnswer_eq_false]
  constructor
  · intro h
    exact ⟨fun _ => h, fun hs => absurd hloop hs, fun hs => absurd hloop hs⟩
  · intro h
    exact h.loop hloop

theorem endsWithout_of_nil (hnil : S.nbrs s = []) : S.EndsWithout s := by
  have hs : s ∉ S.nbrs s := by simp [hnil]
  have hinv := selfInv_waiting hs
  have hturn := hinv.turn_eq_iff.mpr (wide_zero_iff.mpr (by simp [hnil]))
  refine ⟨2, (false, []), ?_, rfl⟩
  rw [singlePair_eq_waiting hs, pairRounds, hturn, hinv.queue, hnil]
  rfl

theorem endsWithout_iff_of_single (hrev : S.graph.Reversible) (hs : s ∉ S.nbrs s)
    (hnbrs : S.nbrs s = [y]) : S.EndsWithout s ↔ S.Quiet s := by
  have hinv := selfInv_waiting hs
  have hwide : S.Wide s 0 := wide_zero_iff.mpr (by simp [hnbrs])
  have hy : y ≠ s := by
    rintro rfl
    simp [hnbrs] at hs
  have hrun : ∀ {before after}, S.nbrs y = before ++ s :: after → s ∉ before → ∀ fuel,
      S.singlePair (fuel + 4) s s = if y ∈ before then none else some (S.pairAnswer [s, y, s]) := by
    intro before after hsplit hbefore fuel
    rw [singlePair_eq_waiting hs, hinv.pairRounds_single hwide hnbrs hy hsplit hbefore]
  constructor
  · rintro ⟨fuel, answer, hanswer, hfalse⟩
    refine ⟨fun h => absurd h hs, fun _ y' before after hy' hsplit hbefore => ?_,
      fun _ y' rest j z d _ hj _ _ hmin => absurd hwide (hmin 0 hj)⟩
    obtain rfl : y = y' := by
      rw [hnbrs] at hy'
      exact (List.cons.inj hy').1
    have hmono : S.singlePair (fuel + 4) s s = some answer :=
      (pairRounds_mono (Nat.le_add_right fuel 4) hanswer).1
    rw [hrun hsplit hbefore] at hmono
    split_ifs at hmono with hmem
    cases hmono
    exact ⟨hmem, pairAnswer_eq_false.mp hfalse⟩
  · intro h
    have hback : s ∈ S.nbrs y := mem_nbrs_symm hrev (by rw [hnbrs]; exact mem_singleton_self y)
    obtain ⟨before, after, hsplit, hbefore⟩ := eq_append_cons_of_mem hback
    obtain ⟨hmem, hhops⟩ := h.single hs y before after hnbrs hsplit hbefore
    refine ⟨4, S.pairAnswer [s, y, s], ?_, (pairAnswer_eq_false (w := [y, s])).mpr hhops⟩
    exact (hrun hsplit hbefore 0).trans (if_neg hmem)

theorem endsWithout_iff_of_wide (hrev : S.graph.Reversible) (hs : s ∉ S.nbrs s) {rest : List Nat}
    (hnbrs : S.nbrs s = y :: rest) (hj : 0 < j) (hle : j ≤ S.upper) (hwide : S.Wide s j)
    (hmin : ∀ i < j, ¬ S.Wide s i) : S.EndsWithout s ↔ S.Quiet s := by
  obtain ⟨st, hst, hrun⟩ := (selfInv_waiting hs).exists_run hs (n := j) (by omega)
    (by rwa [Nat.zero_add]) (by rwa [Nat.zero_add])
  rw [Nat.zero_add] at hst
  have hanswer : ∀ {z}, S.Closes s j y z → ∃ w d fuel, S.graph.IsDist s z d ∧ w.length = d + 2 ∧
      S.singlePair fuel s s = some (S.pairAnswer (s :: w)) := by
    intro z hz
    obtain ⟨w, d, hdist, hlen, hrounds⟩ := hst.exists_closed_walk hrev hj hs hwide hnbrs hz
    exact ⟨w, d, d + 3 + j + 1, hdist, hlen,
      (singlePair_eq_waiting hs _).trans ((hrun _).trans hrounds)⟩
  have hnotSingle : ∀ y', S.nbrs s ≠ [y'] := by
    intro y' hy'
    exact hmin 0 hj (wide_zero_iff.mpr (by simp [hy']))
  constructor
  · intro h
    refine ⟨fun hloop => absurd hloop hs, fun _ y' _ _ hy' => absurd hy' (hnotSingle y'), ?_⟩
    intro _ y' rest' j' z d hnbrs' hj' _ hwide' hmin' hz hd
    obtain rfl : y = y' := by
      rw [hnbrs] at hnbrs'
      exact (List.cons.inj hnbrs').1
    obtain rfl : j = j' := by
      rcases Nat.lt_trichotomy j j' with hlt | heq | hgt
      · exact absurd hwide (hmin' j hlt)
      · exact heq
      · exact absurd hwide' (hmin j' hgt)
    obtain ⟨w, d', fuel, hd', hlen, hpair⟩ := hanswer hz
    rw [endsWithout_iff_of_answer hpair, pairAnswer_eq_false, hlen, hd'.unique hd] at h
    exact h
  · intro h
    obtain ⟨z, hz⟩ := exists_closes hrev (s := s) (y := y) (by rw [hnbrs]; exact mem_cons_self) j
    obtain ⟨w, d, fuel, hd, hlen, hpair⟩ := hanswer hz
    refine ⟨fuel, _, hpair, pairAnswer_eq_false.mpr ?_⟩
    rw [hlen]
    exact h.closed hs y rest j z d hnbrs hj hle hwide hmin hz hd

theorem endsWithout_iff_of_not_wide (hs : s ∉ S.nbrs s)
    (hnot : ∀ j ≤ S.upper, ¬ S.Wide s j) : S.EndsWithout s ↔ S.Quiet s := by
  have hnone := (selfInv_waiting hs).exists_run_none hs (n := S.upper) (by omega)
    fun i hi => hnot i (by omega)
  have hzero : ¬ (S.nbrs s).length ≤ 1 := fun h => hnot 0 (Nat.zero_le _) (wide_zero_iff.mpr h)
  constructor
  · intro _
    refine ⟨fun hloop => absurd hloop hs, fun _ y _ _ hy => absurd (by simp [hy]) hzero, ?_⟩
    intro _ _ _ j _ _ _ _ hle hwide
    exact absurd hwide (hnot j hle)
  · intro _
    exact ⟨S.upper + 2, _, (singlePair_eq_waiting hs _).trans hnone, rfl⟩

/-- The search from a vertex to itself ends without success exactly if no closed walk is taken
for an answer. -/
theorem endsWithout_iff_quiet (hrev : S.graph.Reversible) (s : Nat) :
    S.EndsWithout s ↔ S.Quiet s := by
  classical
  by_cases hloop : s ∈ S.nbrs s
  · exact endsWithout_iff_of_loop hloop
  cases hnbrs : S.nbrs s with
  | nil =>
    refine iff_of_true (endsWithout_of_nil hnbrs) ⟨fun h => absurd h hloop, ?_, ?_⟩
    · intro _ y before after hy
      rw [hnbrs] at hy
      cases hy
    · intro _ y rest j z d hy
      rw [hnbrs] at hy
      cases hy
  | cons y rest =>
    by_cases hex : ∃ j, j ≤ S.upper ∧ S.Wide s j
    · obtain ⟨hle, hwide⟩ := Nat.find_spec hex
      have hmin : ∀ i < Nat.find hex, ¬ S.Wide s i :=
        fun i hi hw => Nat.find_min hex hi ⟨by omega, hw⟩
      rcases Nat.eq_zero_or_pos (Nat.find hex) with hzero | hpos
      · rw [hzero] at hwide
        have hlen := wide_zero_iff.mp hwide
        obtain rfl : rest = [] := by simpa [hnbrs] using hlen
        exact endsWithout_iff_of_single hrev hloop hnbrs
      · exact endsWithout_iff_of_wide hrev hloop hnbrs hpos hle hwide hmin
    · push Not at hex
      exact endsWithout_iff_of_not_wide hloop hex

end SsspSearch

end Neug.Execution
