import Neug.Execution.AllShortest
import Neug.Execution.SinglePairSearch

/-! # The two searches of the all-shortest-paths operator

What one level does to the depths, the queue and the list of common vertices, and why the levels
end: also when depths run over, a level either finds vertices or leaves an empty queue, but for
the level whose depth is stored as -1.
-/

namespace Neug.Execution

open Library Function List StepGraph

theorem int8_of_le {n : Int} (hlow : -128 ≤ n) (hhigh : n ≤ 127) : int8 n = n :=
  Int.bmod_eq_of_le (by omega) (by omega)

theorem int8_le (n : Int) : int8 n ≤ 127 := by
  have : n.bmod 256 < ((256 : Nat) + 1 : Int) / 2 := Int.bmod_lt (by decide)
  unfold int8
  omega

namespace AllShortest

variable {S : Type} {G : StepGraph Nat S} {side : Side} {x d : Nat}

/-! ## One level -/

/-- The vertices that a level finds, when it writes `c` as their depth. -/
def pushes (c : Int) : (Nat → Int) → List Nat → List Nat
  | _, [] => []
  | dist, x :: xs =>
    if dist x = -1 then x :: pushes c (update dist x c) xs else pushes c dist xs

theorem mem_pushes {c : Int} {dist : Nat → Int} {xs : List Nat} :
    x ∈ pushes c dist xs ↔ x ∈ xs ∧ dist x = -1 := by
  induction xs generalizing dist with
  | nil => simp [pushes]
  | cons y xs ih =>
    rw [pushes]
    split_ifs with hy
    · rw [mem_cons, mem_cons, ih]
      by_cases hxy : x = y
      · simp [hxy, hy]
      · simp [hxy]
    · rw [ih, mem_cons]
      by_cases hxy : x = y
      · simp [hxy, hy]
      · simp [hxy]

/-- With another depth than -1 each vertex is found once, as in a breadth-first search. -/
theorem pushes_eq_fresh {c : Int} (hc : c ≠ -1) (dist : Nat → Int) (cs : List (Nat × S)) :
    pushes c dist (cs.map fun e => G.target e.2) =
      (G.fresh (fun x => decide (dist x ≠ -1)) cs).map fun e => G.target e.2 := by
  induction cs generalizing dist with
  | nil => rfl
  | cons e cs ih =>
    rw [map_cons, pushes, fresh]
    by_cases he : dist (G.target e.2) = -1
    · have hseen : (fun x => decide (dist x ≠ -1) || decide (x = G.target e.2)) =
          fun x => decide (update dist (G.target e.2) c x ≠ -1) := by
        funext x
        by_cases hx : x = G.target e.2
        · simp [hx, hc]
        · simp [hx]
      rw [if_pos he, if_neg (by simpa using he), hseen, ih, map_cons]
    · rw [if_neg he, if_pos (by simpa using he), ih]

/-- The depth -1 does not mark anything. -/
theorem pushes_eq_filter (dist : Nat → Int) (xs : List Nat) :
    pushes (-1) dist xs = xs.filter fun x => decide (dist x = -1) := by
  induction xs generalizing dist with
  | nil => rfl
  | cons x xs ih =>
    rw [pushes, filter_cons]
    by_cases hx : dist x = -1
    · rw [if_pos hx, if_pos (by simpa using hx), update_eq_self_iff.mpr hx.symm, ih]
    · rw [if_neg hx, if_neg (by simpa using hx), ih]

theorem foldl_visit (side : Side) (dep : Int) (xs : List Nat) (scan : MeetScan) :
    xs.foldl (visit side dep) scan =
      { dist := update scan.dist side fun x =>
          if x ∈ pushes (int8 (dep + 1)) (scan.dist side) xs then int8 (dep + 1)
          else scan.dist side x
        tmp := scan.tmp ++ pushes (int8 (dep + 1)) (scan.dist side) xs
        vec := scan.vec ++ (pushes (int8 (dep + 1)) (scan.dist side) xs).filter fun x =>
          decide (scan.dist side.other x ≠ -1) } := by
  induction xs generalizing scan with
  | nil => simp [pushes]
  | cons y xs ih =>
    rw [foldl_cons, ih, pushes]
    by_cases hy : scan.dist side y = -1
    · have hother : update scan.dist side (update (scan.dist side) y
          (int8 (dep + 1))) side.other = scan.dist side.other :=
        update_of_ne side.other_ne _ _
      simp only [visit, if_pos hy, update_self, hother, update_idem,
        append_assoc, singleton_append, filter_cons]
      congr 1
      · congr 1
        funext x
        by_cases hx : x ∈ pushes (int8 (dep + 1)) (update (scan.dist side) y (int8 (dep + 1))) xs
        · simp [hx]
        · by_cases hxy : x = y
          · simp [hxy]
          · simp [hx, hxy]
      · by_cases hmet : scan.dist side.other y = -1
        · simp [hmet]
        · simp [hmet]
    · simp only [visit, if_neg hy]

/-- The vertices that the next level of a search finds. -/
def foundBy (G : StepGraph Nat S) (side : Side) (st : MeetState) : List Nat :=
  pushes (int8 (st.dep side + 1)) (st.dist side)
    ((G.candidates (st.queue side)).map fun e => G.target e.2)

variable {st : MeetState}

theorem mem_foundBy :
    x ∈ foundBy G side st ↔ (∃ y ∈ st.queue side, ∃ s ∈ G.next y, G.target s = x) ∧
      st.dist side x = -1 := by
  rw [foundBy, mem_pushes]
  refine and_congr_left fun _ => ?_
  simp only [mem_map, Prod.exists, mem_candidates]
  constructor
  · rintro ⟨y, s, ⟨hy, hs⟩, rfl⟩
    exact ⟨y, hy, s, hs, rfl⟩
  · rintro ⟨y, hy, s, hs, rfl⟩
    exact ⟨y, s, ⟨hy, hs⟩, rfl⟩

theorem scanLevel_eq (G : StepGraph Nat S) (side : Side) (st : MeetState) :
    scanLevel G side st =
      { dist := update st.dist side fun x =>
          if x ∈ foundBy G side st then int8 (st.dep side + 1) else st.dist side x
        tmp := foundBy G side st
        vec := st.vec ++
          (foundBy G side st).filter fun x => decide (st.dist side.other x ≠ -1) } := by
  have hcand := G.foldl_foldl_next
    (fun scan c => visit side (st.dep side) scan (G.target c.2)) ⟨st.dist, [], st.vec⟩
      (st.queue side)
  have hmap : (G.candidates (st.queue side)).foldl
      (fun scan c => visit side (st.dep side) scan (G.target c.2)) ⟨st.dist, [], st.vec⟩ =
      ((G.candidates (st.queue side)).map fun e => G.target e.2).foldl
        (visit side (st.dep side)) ⟨st.dist, [], st.vec⟩ := by
    rw [foldl_map]
  rw [scanLevel, hcand, hmap, foldl_visit]
  rfl

section Expand

variable (G) (st)

theorem expand_dist_turn : (expand G st).dist st.turn = fun x =>
    if x ∈ foundBy G st.turn st then int8 (st.dep st.turn + 1) else st.dist st.turn x := by
  rw [expand, scanLevel_eq]
  exact update_self _ _ _

theorem expand_vec : (expand G st).vec =
    st.vec ++ (foundBy G st.turn st).filter fun x => decide (st.dist st.turn.other x ≠ -1) := by
  rw [expand, scanLevel_eq]

theorem expand_queue_turn : (expand G st).queue st.turn = foundBy G st.turn st := by
  rw [expand, scanLevel_eq]
  exact update_self _ _ _

theorem expand_dep_turn : (expand G st).dep st.turn = int8 (st.dep st.turn + 1) :=
  update_self _ _ _

variable {st} (hside : side ≠ st.turn)

include hside

theorem expand_dist_of_ne : (expand G st).dist side = st.dist side := by
  rw [expand, scanLevel_eq]
  exact update_of_ne hside _ _

theorem expand_queue_of_ne : (expand G st).queue side = st.queue side :=
  update_of_ne hside _ _

theorem expand_dep_of_ne : (expand G st).dep side = st.dep side :=
  update_of_ne hside _ _

end Expand

/-! ## The levels end -/

def Bounded (st : MeetState) : Prop :=
  ∀ side, -128 ≤ st.dep side ∧ st.dep side ≤ 127

theorem bounded_int8 (n : Int) : -128 ≤ int8 n ∧ int8 n ≤ 127 := by
  have hlow : -((256 : Nat) / 2 : Int) ≤ n.bmod 256 := Int.le_bmod (by decide)
  refine ⟨?_, int8_le n⟩
  unfold int8
  omega

theorem Bounded.expand (h : Bounded st) : Bounded (expand G st) := by
  intro side
  by_cases hside : side = st.turn
  · rw [hside, expand_dep_turn]
    exact bounded_int8 _
  · rw [expand_dep_of_ne G hside]
    exact h side

/-- The number of vertices that a search has not found yet. -/
def unfound (U : List Nat) (dist : Nat → Int) : Nat :=
  U.countP fun x => decide (dist x = -1)

/-- What is left to do for one search.  The level whose depth is stored as -1 finds vertices and
leaves them unmarked. -/
def sideWork (U : List Nat) (st : MeetState) (side : Side) : Nat :=
  2 * unfound U (st.dist side) + if st.dep side = -2 then 1 else 0

def work (U : List Nat) (st : MeetState) : Nat :=
  sideWork U st .fromSrc + sideWork U st .fromDst +
    if st.queue .fromSrc ≠ [] ∧ st.queue .fromDst ≠ [] then 2 else 0

theorem int8_add_one_eq_neg_one {n : Int} (h : -128 ≤ n ∧ n ≤ 127) :
    int8 (n + 1) = -1 ↔ n = -2 := by
  by_cases hn : n = 127
  · subst hn
    decide
  · rw [int8_of_le (by omega) (by omega)]
    omega

/-- What is unmarked after a level was unmarked before it. -/
theorem dist_eq_of_expand (h : (expand G st).dist st.turn x = -1) : st.dist st.turn x = -1 := by
  rw [expand_dist_turn] at h
  by_cases hfound : x ∈ foundBy G st.turn st
  · exact (mem_foundBy.mp hfound).2
  · simpa [hfound] using h

theorem unfound_expand_le (G : StepGraph Nat S) (st : MeetState) (U : List Nat) :
    unfound U ((expand G st).dist st.turn) ≤ unfound U (st.dist st.turn) :=
  countP_mono_left fun _ _ hx =>
    decide_eq_true (dist_eq_of_expand (of_decide_eq_true hx))

variable {U : List Nat} {upper : Nat}

section

variable (hU : ∀ v, ∀ s ∈ G.next v, G.target s ∈ U)
include hU

theorem unfound_expand_lt
    (hdep : int8 (st.dep st.turn + 1) ≠ -1) (hfound : foundBy G st.turn st ≠ []) :
    unfound U ((expand G st).dist st.turn) < unfound U (st.dist st.turn) := by
  obtain ⟨x, hx⟩ := exists_mem_of_ne_nil _ hfound
  obtain ⟨⟨y, -, s, hs, rfl⟩, hdist⟩ := mem_foundBy.mp hx
  refine countP_lt_countP (fun z _ hz => ?_) (hU y s hs) (decide_eq_true hdist) ?_
  · exact decide_eq_true (dist_eq_of_expand (of_decide_eq_true hz))
  · rw [decide_eq_false_iff_not, expand_dist_turn]
    simpa [hx] using hdep

omit hU in
theorem goesOn_iff : goesOn upper st = true ↔
    st.dep .fromSrc < upper ∧ st.dep .fromDst < upper ∧ st.vec = [] ∧ st.queue st.turn ≠ [] :=
  decide_eq_true_iff

omit hU in
theorem queue_ne_nil {side : Side} (h : st.queue st.turn ≠ []) : st.queue side ≠ [] := by
  intro hnil
  unfold MeetState.turn at h
  cases side with
  | fromSrc =>
    rw [hnil, length_nil, if_pos (Nat.zero_le _)] at h
    exact h hnil
  | fromDst =>
    split_ifs at h with hle
    · rw [hnil, length_nil, Nat.le_zero, length_eq_zero_iff] at hle
      exact h hle
    · exact h hnil

theorem work_expand_lt (hbounded : Bounded st)
    (h : goesOn upper st = true) : work U (expand G st) < work U st := by
  have hqueue : st.queue st.turn ≠ [] := (goesOn_iff.mp h).2.2.2
  have hboth : st.queue .fromSrc ≠ [] ∧ st.queue .fromDst ≠ [] :=
    ⟨queue_ne_nil hqueue, queue_ne_nil hqueue⟩
  have hsum : ∀ st' : MeetState, sideWork U st' .fromSrc + sideWork U st' .fromDst =
      sideWork U st' st.turn + sideWork U st' st.turn.other := by
    intro st'
    cases st.turn with
    | fromSrc => rfl
    | fromDst => exact Nat.add_comm _ _
  have hother : sideWork U (expand G st) st.turn.other = sideWork U st st.turn.other := by
    have hne := st.turn.other_ne
    rw [sideWork, sideWork, expand_dist_of_ne G hne, expand_dep_of_ne G hne]
  have hlevel : sideWork U (expand G st) st.turn < sideWork U st st.turn ∨
      (foundBy G st.turn st = [] ∧
        sideWork U (expand G st) st.turn ≤ sideWork U st st.turn + 1) := by
    have hle := unfound_expand_le G st U
    unfold sideWork
    rw [expand_dep_turn]
    by_cases hdep : st.dep st.turn = -2
    · have hnext : int8 (st.dep st.turn + 1) = -1 := (int8_add_one_eq_neg_one (hbounded _)).mpr hdep
      rw [hnext, if_pos hdep, if_neg (by decide)]
      omega
    · have hnext : int8 (st.dep st.turn + 1) ≠ -1 :=
        fun heq => hdep ((int8_add_one_eq_neg_one (hbounded _)).mp heq)
      by_cases hfound : foundBy G st.turn st = []
      · right
        refine ⟨hfound, ?_⟩
        split <;> omega
      · have hlt := unfound_expand_lt hU hnext hfound
        left
        split <;> omega
  unfold work
  rw [hsum, hsum, hother, if_pos hboth]
  rcases hlevel with hlt | ⟨hnil, hle⟩
  · split <;> omega
  · -- the search that found nothing has an empty queue
    have hempty : ¬ ((expand G st).queue .fromSrc ≠ [] ∧ (expand G st).queue .fromDst ≠ []) := by
      rintro ⟨hsrc, hdst⟩
      have hturn := expand_queue_turn G st
      rw [hnil] at hturn
      cases hside : st.turn with
      | fromSrc => exact hsrc (hside ▸ hturn)
      | fromDst => exact hdst (hside ▸ hturn)
    rw [if_neg hempty]
    omega

theorem exists_meeting (upper src dst : Nat) :
    ∃ n st, whileLoop (goesOn upper) (expand G) n (meetInit src dst) = some st := by
  have hinit : Bounded (meetInit src dst) := fun _ => by
    change (-128 : Int) ≤ 0 ∧ (0 : Int) ≤ 127
    decide
  obtain ⟨st, hst⟩ := exists_whileLoop_of_measure (work U) hinit fun t ht hguard =>
    ⟨ht.expand (G := G), work_expand_lt hU ht hguard⟩
  exact ⟨_, st, hst⟩

end

/-! ## What each search has found -/

variable {root k : Nat}

theorem int8_add_one (n : Int) : int8 (int8 n + 1) = int8 (n + 1) :=
  Int.bmod_add_bmod ..

structure Ball (G : StepGraph Nat S) (side : Side) (root k : Nat) (st : MeetState) : Prop where
  layered : G.Layered 0 root k (fun x => decide (st.dist side x ≠ -1)) (st.queue side)
  depth : ∀ x d, d ≤ k → G.IsDist root x d → st.dist side x = int8 d
  dep_eq : st.dep side = int8 k

namespace Ball

section

variable (h : Ball G side root k st)
include h

theorem found_iff : st.dist side x ≠ -1 ↔ ∃ d ≤ k, G.IsDist root x d := by
  have := h.layered.seen_iff x
  simpa only [decide_eq_true_eq, isFirst_zero] using this

theorem mem_queue : x ∈ st.queue side ↔ G.IsDist root x k := by
  rw [h.layered.mem_level, Nat.zero_min, isFirst_zero]

theorem of_ne (hside : side ≠ st.turn) : Ball G side root k (expand G st) := by
  refine ⟨?_, ?_, ?_⟩
  · rw [expand_dist_of_ne G hside, expand_queue_of_ne G hside]
    exact h.layered
  · rw [expand_dist_of_ne G hside]
    exact h.depth
  · rw [expand_dep_of_ne G hside]
    exact h.dep_eq

/-- A level whose depth is not stored as -1 takes the search one step further. -/
theorem next (hturn : st.turn = side)
    (hk : int8 ((k : Int) + 1) ≠ -1) : Ball G side root (k + 1) (expand G st) := by
  subst hturn
  have hdep : int8 (st.dep st.turn + 1) = int8 ((k : Int) + 1) := by
    rw [h.dep_eq, int8_add_one]
  have hcast : int8 ((k + 1 : Nat) : Int) = int8 ((k : Int) + 1) := rfl
  have hfound : foundBy G st.turn st =
      (G.fresh (fun x => decide (st.dist st.turn x ≠ -1)) (G.candidates (st.queue st.turn))).map
        fun e => G.target e.2 := by
    rw [foundBy, hdep]
    exact pushes_eq_fresh hk _ _
  have hlayer : G.Layered 0 root (k + 1)
      (fun x => decide ((expand G st).dist st.turn x ≠ -1)) (foundBy G st.turn st) := by
    refine h.layered.next (Nat.zero_le _) hfound fun x => ?_
    rw [expand_dist_turn, hdep]
    by_cases hx : x ∈ foundBy G st.turn st
    · simp [hx, hk]
    · simp [hx]
  have hlevel : ∀ x, x ∈ foundBy G st.turn st ↔ G.IsDist root x (k + 1) := by
    intro x
    rw [hlayer.mem_level, Nat.zero_min, isFirst_zero]
  refine ⟨?_, fun x d hd hx => ?_, ?_⟩
  · rw [expand_queue_turn]
    exact hlayer
  · rw [expand_dist_turn, hdep]
    rcases Nat.lt_or_ge k d with hlt | hge
    · obtain rfl : d = k + 1 := by omega
      exact if_pos ((hlevel x).mpr hx)
    · have hnew : x ∉ foundBy G st.turn st := fun hmem => by
        have := ((hlevel x).mp hmem).unique hx
        omega
      exact (if_neg hnew).trans (h.depth x d hge hx)
  · rw [expand_dep_turn, hdep, hcast]

end

end Ball

/-! ## Meeting -/

variable {src dst D : Nat} {dep : Side → Nat}

/-- The searches between vertices at distance `D`: they have not met, or they have met at all the
vertices of shortest paths at the depths they have reached. -/
structure Meeting (G : StepGraph Nat S) (src dst D : Nat) (dep : Side → Nat) (st : MeetState) :
    Prop where
  ball : ∀ side, Ball G side (side.start src dst) (dep side) st
  vec : (st.vec = [] ∧ dep .fromSrc + dep .fromDst < D) ∨
    (st.vec ≠ [] ∧ dep .fromSrc + dep .fromDst = D ∧
      ∀ x, x ∈ st.vec ↔ ∀ side : Side, G.IsDist (side.start src dst) x (dep side))

theorem start_isDist (hrev : G.Reversible) (hD : G.IsDist src dst D) (side : Side) :
    G.IsDist (side.start src dst) (side.other.start src dst) D := by
  cases side with
  | fromSrc => exact hD
  | fromDst => exact hrev.isDist_symm hD

theorem forall_side_iff {P : Side → Prop} (side : Side) : (∀ s, P s) ↔ P side ∧ P side.other := by
  constructor
  · intro h
    exact ⟨h side, h side.other⟩
  · rintro ⟨h, h'⟩ s
    rcases side.eq_or_eq_other s with rfl | rfl
    · exact h
    · exact h'

theorem dep_add (dep : Side → Nat) (side : Side) :
    dep .fromSrc + dep .fromDst = dep side + dep side.other := by
  cases side with
  | fromSrc => rfl
  | fromDst => exact Nat.add_comm _ _

/-- The common vertices that a level finds. -/
theorem mem_expand_vec (hvec : st.vec = []) {k j : Nat}
    (hball : Ball G st.turn (st.turn.start src dst) (k + 1) (expand G st))
    (hother : Ball G st.turn.other (st.turn.other.start src dst) j st) :
    x ∈ (expand G st).vec ↔ G.IsDist (st.turn.start src dst) x (k + 1) ∧
      ∃ i ≤ j, G.IsDist (st.turn.other.start src dst) x i := by
  rw [expand_vec, hvec, nil_append, mem_filter, ← hball.mem_queue, expand_queue_turn,
    decide_eq_true_eq, hother.found_iff]

/-- Two searches that have not met keep apart, or meet at the right vertices, in one more level. -/
theorem Meeting.expand (h : Meeting G src dst D dep st) (hrev : G.Reversible)
    (hD : G.IsDist src dst D) (hsmall : D ≤ 127) (hgoes : goesOn upper st = true) :
    Meeting G src dst D (update dep st.turn (dep st.turn + 1)) (expand G st) := by
  have hvec : st.vec = [] := (goesOn_iff.mp hgoes).2.2.1
  have hlt : dep st.turn + dep st.turn.other < D := by
    rw [← dep_add]
    rcases h.vec with ⟨-, hlt⟩ | ⟨hne, -⟩
    · exact hlt
    · exact absurd hvec hne
  have hball :
      Ball G st.turn (st.turn.start src dst) (dep st.turn + 1) (AllShortest.expand G st) := by
    refine (h.ball st.turn).next rfl ?_
    rw [int8_of_le (by omega) (by omega)]
    omega
  have hmem := fun x => mem_expand_vec (x := x) hvec hball (h.ball st.turn.other)
  have hdist := start_isDist hrev hD st.turn
  refine ⟨(forall_side_iff st.turn).mpr ⟨?_, ?_⟩, ?_⟩
  · rw [update_self]
    exact hball
  · rw [update_of_ne st.turn.other_ne]
    exact (h.ball _).of_ne st.turn.other_ne
  rw [dep_add _ st.turn, update_self, update_of_ne st.turn.other_ne]
  rcases Nat.lt_or_ge (dep st.turn + 1 + dep st.turn.other) D with hlt' | hge
  · refine .inl ⟨eq_nil_iff_forall_not_mem.mpr fun x hx => ?_, hlt'⟩
    obtain ⟨hi, j, hj, hdst⟩ := (hmem x).mp hx
    have := hrev.le_add hdist hi.1 hdst.1
    omega
  · have hsum : dep st.turn + 1 + dep st.turn.other = D := by omega
    have hiff : ∀ x, x ∈ (AllShortest.expand G st).vec ↔
        G.IsDist (st.turn.start src dst) x (dep st.turn + 1) ∧
          G.IsDist (st.turn.other.start src dst) x (dep st.turn.other) := by
      intro x
      rw [hmem]
      refine and_congr_right fun hi => ⟨?_, fun hj => ⟨_, le_rfl, hj⟩⟩
      rintro ⟨j, hj, hdst⟩
      have := hrev.le_add hdist hi.1 hdst.1
      obtain rfl : j = dep st.turn.other := by omega
      exact hdst
    refine .inr ⟨?_, hsum, fun x => ?_⟩
    · rw [← hsum] at hdist
      obtain ⟨v, hi, hj⟩ := hdist.split
      exact ne_nil_of_mem ((hiff v).mpr ⟨hi, hrev.isDist_symm hj⟩)
    · rw [hiff, forall_side_iff st.turn, update_self, update_of_ne st.turn.other_ne]

theorem ball_init (G : StepGraph Nat S) (src dst : Nat) (side : Side) :
    Ball G side (side.start src dst) 0 (meetInit src dst) := by
  have hdist : ∀ x, (meetInit src dst).dist side x =
      if x = side.start src dst then 0 else -1 := by
    intro x
    cases side with
    | fromSrc => exact update_apply (fun _ => (-1 : Int)) src 0 x
    | fromDst => exact update_apply (fun _ => (-1 : Int)) dst 0 x
  refine ⟨?_, fun x d hd hx => ?_, ?_⟩
  · have hqueue : (meetInit src dst).queue side = [side.start src dst] := by
      cases side <;> rfl
    rw [hqueue]
    refine layered_marked fun x => ?_
    rw [hdist]
    by_cases hx : x = side.start src dst
    · simp [hx]
    · simp [hx]
  · obtain rfl : d = 0 := by omega
    rw [hdist, if_pos (isDist_zero.mp hx)]
    rfl
  · rfl

theorem meeting_init (hD : G.IsDist src dst D) (hne : src ≠ dst) :
    Meeting G src dst D (fun _ => 0) (meetInit src dst) := by
  refine ⟨ball_init G src dst, .inl ⟨rfl, ?_⟩⟩
  rcases Nat.eq_zero_or_pos D with rfl | hpos
  · exact absurd (isDist_zero.mp hD).symm hne
  · exact hpos

/-- How the searches end between vertices that are at most 127 steps apart. -/
theorem exists_meeting_of_isDist (hU : ∀ v, ∀ s ∈ G.next v, G.target s ∈ U) (hrev : G.Reversible)
    (hD : G.IsDist src dst D) (hsmall : D ≤ 127) (hne : src ≠ dst) (upper : Nat) :
    ∃ n st dep, whileLoop (goesOn upper) (expand G) n (meetInit src dst) = some st ∧
      Meeting G src dst D dep st ∧ goesOn upper st = false := by
  obtain ⟨n, st, hst⟩ := exists_meeting hU upper src dst
  obtain ⟨⟨dep, hmeeting⟩, hstop⟩ :=
    whileLoop_invariant (P := fun st => ∃ dep, Meeting G src dst D dep st)
    hst ⟨_, meeting_init hD hne⟩ fun t ⟨dep, ht⟩ hguard => ⟨_, ht.expand hrev hD hsmall hguard⟩
  exact ⟨n, st, dep, hst, hmeeting, hstop⟩

end AllShortest

end Neug.Execution
