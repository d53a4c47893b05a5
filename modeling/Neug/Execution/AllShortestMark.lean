import Neug.Execution.AllShortestRounds

/-! # The vertices of shortest paths

From the common vertices of the two searches the loop marks, towards the source, vertices one
step nearer to the source, and towards the destination, vertices one step nearer to the
destination, and gives the latter their depth from the source.  It ends with all vertices of
shortest paths marked, each with its depth.
-/

namespace Neug.Execution

open Library Function List

namespace AllShortest

variable {S : Type} {G : StepGraph Nat S} {distDst : Nat → Int} {m m' : MarkState} {v x y : Nat}

/-! ## One neighbour -/

def Near (m : MarkState) (v y : Nat) : Prop :=
  m.dist y ≠ -1 ∧ m.dist y + 1 = m.dist v

def Far (distDst : Nat → Int) (v y : Nat) : Prop :=
  distDst y ≠ -1 ∧ distDst y + 1 = distDst v

instance : Decidable (Far distDst v y) := inferInstanceAs (Decidable (_ ∧ _))

structure MarkedFrom (distDst : Nat → Int) (v : Nat) (m : MarkState) (y : Nat) (m' : MarkState) :
    Prop where
  visited : m'.visited = update m.visited y true
  dist_of_ne : ∀ x, x ≠ y → m'.dist x = m.dist x
  dist_self : m'.dist y = if Far distDst v y then int8 (m.dist v + 1) else m.dist y
  queue : m'.queue = m.queue ++ [y] ∨ m'.queue = m.queue ++ [y, y]

theorem markNearer_of_near (h : Near m v y) : markNearer v m y =
    { m with visited := update m.visited y true, queue := m.queue ++ [y] } :=
  if_pos h

theorem markFurther_of_far (h : Far distDst v y) : markFurther distDst v m y =
    { visited := update m.visited y true
      dist := update m.dist y (int8 (m.dist v + 1))
      queue := m.queue ++ [y] } :=
  if_pos h

theorem markFurther_of_not_far (h : ¬ Far distDst v y) : markFurther distDst v m y = m :=
  if_neg h

/-- A neighbour is left as it is, or it was not marked, passes a test and is marked. -/
theorem markNbr_cases (distDst : Nat → Int) (v : Nat) (m : MarkState) (y : Nat) :
    (markNbr distDst v m y = m ∧ (m.visited y = true ∨ ¬ (Near m v y ∨ Far distDst v y))) ∨
      (m.visited y = false ∧ (Near m v y ∨ Far distDst v y) ∧
        MarkedFrom distDst v m y (markNbr distDst v m y)) := by
  unfold markNbr
  cases hvisited : m.visited y with
  | true => exact .inl ⟨rfl, .inl rfl⟩
  | false =>
    by_cases hnear : Near m v y
    · rw [markNearer_of_near hnear]
      refine .inr ⟨rfl, .inl hnear, ?_⟩
      by_cases hfar : Far distDst v y
      · rw [markFurther_of_far hfar]
        refine ⟨update_idem .., fun x hx => update_of_ne hx _ _, ?_, .inr ?_⟩
        · rw [if_pos hfar]
          exact update_self ..
        · simp
      · rw [markFurther_of_not_far hfar]
        exact ⟨rfl, fun _ _ => rfl, (if_neg hfar).symm, .inl rfl⟩
    · rw [show markNearer v m y = m from if_neg hnear]
      by_cases hfar : Far distDst v y
      · rw [markFurther_of_far hfar]
        refine .inr ⟨rfl, .inr hfar, rfl, fun x hx => update_of_ne hx _ _, ?_, .inl rfl⟩
        rw [if_pos hfar]
        exact update_self ..
      · rw [markFurther_of_not_far hfar]
        exact .inl ⟨rfl, .inr (not_or.mpr ⟨hnear, hfar⟩)⟩

namespace MarkedFrom

section

variable (h : MarkedFrom distDst v m y m')
include h

theorem visited_self : m'.visited y = true := by
  rw [h.visited, update_self]

theorem visited_of_ne (hx : x ≠ y) : m'.visited x = m.visited x := by
  rw [h.visited, update_of_ne hx]

theorem visited_mono (hx : m.visited x = true) : m'.visited x = true := by
  by_cases hxy : x = y
  · rw [hxy, h.visited_self]
  · rw [h.visited_of_ne hxy, hx]

theorem mem_queue : x ∈ m'.queue ↔ x ∈ m.queue ∨ x = y := by
  rcases h.queue with hqueue | hqueue <;> simp [hqueue]

end

end MarkedFrom

/-! ## The loop ends -/

/-- Marking a vertex puts it into the queue at most twice. -/
def markWork (U : List Nat) (m : MarkState) : Nat :=
  3 * U.countP (fun x => !m.visited x) + m.queue.length

variable {U : List Nat} {n : Nat}

theorem markWork_markNbr_le (hy : y ∈ U) : markWork U (markNbr distDst v m y) ≤ markWork U m := by
  rcases markNbr_cases distDst v m y with ⟨heq, -⟩ | ⟨hvisited, -, hmarked⟩
  · rw [heq]
  · have hlt : U.countP (fun x => !(markNbr distDst v m y).visited x) <
        U.countP fun x => !m.visited x := by
      refine countP_lt_countP (fun x _ hx => ?_) hy (by simp [hvisited])
        (by simp [hmarked.visited_self])
      by_contra hnot
      simp [hmarked.visited_mono (by simpa using hnot)] at hx
    unfold markWork
    rcases hmarked.queue with hqueue | hqueue
    · rw [hqueue, length_append, length_singleton]
      omega
    · rw [hqueue, length_append, length_cons, length_singleton]
      omega

theorem markWork_markNext_lt (hU : ∀ v, ∀ s ∈ G.next v, G.target s ∈ U)
    (h : (!m.queue.isEmpty) = true) : markWork U (markNext G distDst m) < markWork U m := by
  unfold markNext
  cases hqueue : m.queue with
  | nil => simp [hqueue] at h
  | cons v rest =>
    have hfold : markWork U ((G.next v).foldl (fun m s => markNbr distDst v m (G.target s))
        { m with queue := rest }) ≤ markWork U { m with queue := rest } :=
      foldlRecOn (motive := (markWork U · ≤ _)) _ _ le_rfl fun m' hm' s hs =>
        (markWork_markNbr_le (hU v s hs)).trans hm'
    refine hfold.trans_lt ?_
    simp only [markWork, hqueue, length_cons]
    omega

theorem exists_mark (hU : ∀ v, ∀ s ∈ G.next v, G.target s ∈ U) (st : MeetState) :
    ∃ n m, mark G n st = some m := by
  have hstep : ∀ m : MarkState, True → (!m.queue.isEmpty) = true →
      True ∧ markWork U (markNext G (st.dist .fromDst) m) < markWork U m :=
    fun m _ hguard => ⟨trivial, markWork_markNext_lt hU hguard⟩
  obtain ⟨m, hm⟩ := exists_whileLoop_of_measure (P := fun _ => True) (markWork U) trivial hstep
  exact ⟨_, m, hm⟩

/-! ## What is marked -/

structure Met (G : StepGraph Nat S) (src dst D a b : Nat) (st : MeetState) : Prop where
  rev : G.Reversible
  isDist : G.IsDist src dst D
  small : D ≤ 127
  sum_eq : a + b = D
  fromSrc : Ball G .fromSrc src a st
  fromDst : Ball G .fromDst dst b st
  mem_vec : ∀ x, x ∈ st.vec ↔ G.IsDist src x a ∧ G.IsDist dst x b

/-- What the loop marks are vertices of shortest paths, with their depths. -/
structure Marked (G : StepGraph Nat S) (src dst D : Nat) (st : MeetState) (m : MarkState) :
    Prop where
  sound : ∀ x, m.visited x = true →
    ∃ i j, i + j = D ∧ G.IsDist src x i ∧ G.IsDist dst x j ∧ m.dist x = i
  fresh : ∀ x, m.visited x = false → m.dist x = st.dist .fromSrc x
  queued : ∀ x ∈ m.queue, m.visited x = true

variable {src dst D a b i j : Nat} {st : MeetState}

theorem int8_natCast (h : n ≤ 127) : int8 n = n :=
  int8_of_le (by omega) (by omega)

namespace Met

section

variable (h : Met G src dst D a b st)
include h

theorem dist_src (hi : i ≤ a) (hx : G.IsDist src x i) : st.dist .fromSrc x = i := by
  have := h.small
  have := h.sum_eq
  rw [h.fromSrc.depth x i hi hx, int8_natCast (by omega)]

theorem dist_dst (hj : j ≤ b) (hx : G.IsDist dst x j) : st.dist .fromDst x = j := by
  have := h.small
  have := h.sum_eq
  rw [h.fromDst.depth x j hj hx, int8_natCast (by omega)]

/-- A neighbour one step nearer to the source is one step further from the destination. -/
theorem isDist_dst_of_near (hsum : i + 1 + j = D)
    (hv : G.IsDist dst v j) {s : S} (hs : s ∈ G.next v) (hy : G.IsDist src (G.target s) i) :
    G.IsDist dst (G.target s) (j + 1) := by
  obtain ⟨d, hd, hdist⟩ := (hv.1.concat hs).exists_isDist
  have := h.rev.le_add h.isDist hy.1 hdist.1
  obtain rfl : d = j + 1 := by omega
  exact hdist

/-- A neighbour one step nearer to the destination is one step further from the source. -/
theorem isDist_src_of_far (hsum : i + (j + 1) = D)
    (hv : G.IsDist src v i) {s : S} (hs : s ∈ G.next v) (hy : G.IsDist dst (G.target s) j) :
    G.IsDist src (G.target s) (i + 1) := by
  obtain ⟨d, hd, hdist⟩ := (hv.1.concat hs).exists_isDist
  have := h.rev.le_add h.isDist hdist.1 hy.1
  obtain rfl : d = i + 1 := by omega
  exact hdist

end

end Met

namespace Marked

theorem isDist_of_visited (h : Marked G src dst D st m) (hx : m.visited x = true)
    (hi : G.IsDist src x i) : m.dist x = i ∧ ∃ j, i + j = D ∧ G.IsDist dst x j := by
  obtain ⟨i', j, hsum, hi', hj, hdist⟩ := h.sound x hx
  obtain rfl := hi'.unique hi
  exact ⟨hdist, j, hsum, hj⟩

variable {s : S}

section

variable (h : Marked G src dst D st m) (hmet : Met G src dst D a b st) (hv : m.visited v = true)
  (hs : s ∈ G.next v)
include h hmet hv hs

theorem exists_of_near (hnew : m.visited (G.target s) = false) (hnear : Near m v (G.target s)) :
    ∃ i j, i + j = D ∧ G.IsDist src (G.target s) i ∧ G.IsDist dst (G.target s) j ∧
      m.dist (G.target s) = i := by
  obtain ⟨i, j, hsum, hi, hj, hdist⟩ := h.sound v hv
  obtain ⟨hfound, hnext⟩ := hnear
  have hfresh := h.fresh _ hnew
  rw [hfresh] at hfound
  obtain ⟨d, hd, hy⟩ := hmet.fromSrc.found_iff.mp hfound
  have hydist := hmet.dist_src hd hy
  obtain rfl : i = d + 1 := by omega
  refine ⟨d, j + 1, by omega, hy, hmet.isDist_dst_of_near hsum hj hs hy, ?_⟩
  rw [hfresh, hydist]

theorem exists_of_far (hfar : Far (st.dist .fromDst) v (G.target s)) :
    ∃ i j, i + j = D ∧ G.IsDist src (G.target s) i ∧ G.IsDist dst (G.target s) j ∧
      int8 (m.dist v + 1) = i := by
  obtain ⟨i, j, hsum, hi, hj, hdist⟩ := h.sound v hv
  obtain ⟨hfound, hnext⟩ := hfar
  obtain ⟨d, hd, hy⟩ := hmet.fromDst.found_iff.mp hfound
  rw [hmet.dist_dst hd hy] at hnext
  have hvfound : st.dist .fromDst v ≠ -1 := by omega
  obtain ⟨j', hj', hv'⟩ := hmet.fromDst.found_iff.mp hvfound
  obtain rfl := hv'.unique hj
  rw [hmet.dist_dst hj' hj] at hnext
  obtain rfl : j' = d + 1 := by omega
  have hsmall := hmet.small
  refine ⟨i + 1, d, by omega, hmet.isDist_src_of_far hsum hi hs hy, hy, ?_⟩
  rw [hdist, int8_of_le (by omega) (by omega)]
  rfl

theorem markNbr : Marked G src dst D st (markNbr (st.dist .fromDst) v m (G.target s)) := by
  rcases markNbr_cases (st.dist .fromDst) v m (G.target s) with
    ⟨heq, -⟩ | ⟨hnew, htest, hmarked⟩
  · rw [heq]
    exact h
  refine ⟨fun x hx => ?_, fun x hx => ?_, fun x hx => ?_⟩
  · by_cases hxs : x = G.target s
    · subst hxs
      rw [hmarked.dist_self]
      by_cases hfar : Far (st.dist .fromDst) v (G.target s)
      · obtain ⟨i, j, hsum, hi, hj, hdist⟩ := h.exists_of_far hmet hv hs hfar
        exact ⟨i, j, hsum, hi, hj, (if_pos hfar).trans hdist⟩
      · obtain ⟨i, j, hsum, hi, hj, hdist⟩ :=
          h.exists_of_near hmet hv hs hnew (htest.resolve_right hfar)
        exact ⟨i, j, hsum, hi, hj, (if_neg hfar).trans hdist⟩
    · rw [hmarked.visited_of_ne hxs] at hx
      rw [hmarked.dist_of_ne x hxs]
      exact h.sound x hx
  · have hxs : x ≠ G.target s := by
      rintro rfl
      rw [hmarked.visited_self] at hx
      cases hx
    rw [hmarked.visited_of_ne hxs] at hx
    rw [hmarked.dist_of_ne x hxs]
    exact h.fresh x hx
  · rcases hmarked.mem_queue.mp hx with hx | rfl
    · exact hmarked.visited_mono (h.queued x hx)
    · exact hmarked.visited_self

end

end Marked

/-! ## Everything on a shortest path is marked -/

/-- The neighbours that a vertex of a shortest path has to mark. -/
def Wanted (G : StepGraph Nat S) (src dst a b v y : Nat) : Prop :=
  (∃ i, i + 1 ≤ a ∧ G.IsDist src v (i + 1) ∧ G.IsDist src y i) ∨
    ∃ j, j + 1 ≤ b ∧ G.IsDist dst v (j + 1) ∧ G.IsDist dst y j

/-- A wanted neighbour passes one of the tests. -/
theorem Marked.near_or_far (h : Marked G src dst D st m) (hmet : Met G src dst D a b st)
    (hv : m.visited v = true) (hnew : m.visited y = false) (hwanted : Wanted G src dst a b v y) :
    Near m v y ∨ Far (st.dist .fromDst) v y := by
  rcases hwanted with ⟨i, hi, hvi, hyi⟩ | ⟨j, hj, hvj, hyj⟩
  · left
    rw [Near, h.fresh y hnew, hmet.dist_src (by omega) hyi, (h.isDist_of_visited hv hvi).1]
    omega
  · right
    rw [Far, hmet.dist_dst (by omega) hyj, hmet.dist_dst hj hvj]
    omega

structure MarkedFor (G : StepGraph Nat S) (src dst D a b : Nat) (st : MeetState) (v : Nat)
    (steps : List S) (m m' : MarkState) : Prop extends Marked G src dst D st m' where
  mono : ∀ x, m.visited x = true → m'.visited x = true
  queue_mono : ∀ x, x ∈ m.queue → x ∈ m'.queue
  new : ∀ x, m'.visited x = true → m.visited x = true ∨ x ∈ m'.queue
  wanted : ∀ s ∈ steps, Wanted G src dst a b v (G.target s) → m'.visited (G.target s) = true

section

variable (h : Marked G src dst D st m) (hmet : Met G src dst D a b st) (hv : m.visited v = true)
include h hmet hv

theorem Marked.markedFor_markNbr {s : S} (hs : s ∈ G.next v) : MarkedFor G src dst D a b st v [s] m
      (AllShortest.markNbr (st.dist .fromDst) v m (G.target s)) := by
  have hnext := h.markNbr hmet hv hs
  rcases markNbr_cases (st.dist .fromDst) v m (G.target s) with ⟨heq, hkept⟩ | ⟨-, -, hmarked⟩
  · rw [heq] at hnext ⊢
    refine ⟨hnext, fun _ h => h, fun _ h => h, fun _ h => .inl h, fun t ht hwanted => ?_⟩
    obtain rfl := mem_singleton.mp ht
    rcases hkept with hvisited | hnot
    · exact hvisited
    · by_contra hnew
      exact hnot (h.near_or_far hmet hv (by simpa using hnew) hwanted)
  · refine ⟨hnext, fun x hx => hmarked.visited_mono hx, fun x hx => hmarked.mem_queue.mpr (.inl hx),
      fun x hx => ?_, fun t ht _ => ?_⟩
    · by_cases hxs : x = G.target s
      · exact .inr (hmarked.mem_queue.mpr (.inr hxs))
      · rw [hmarked.visited_of_ne hxs] at hx
        exact .inl hx
    · obtain rfl := mem_singleton.mp ht
      exact hmarked.visited_self

theorem Marked.markNbrs {steps : List S} (hsteps : ∀ s ∈ steps, s ∈ G.next v) :
    MarkedFor G src dst D a b st v steps m
      (steps.foldl (fun m s => AllShortest.markNbr (st.dist .fromDst) v m (G.target s)) m) := by
  induction steps generalizing m with
  | nil => exact ⟨h, fun _ h => h, fun _ h => h, fun _ h => .inl h, nofun⟩
  | cons s steps ih =>
    have hstep := h.markedFor_markNbr hmet hv (hsteps s mem_cons_self)
    have hrest := ih hstep.toMarked (hstep.mono v hv)
      fun t ht => hsteps t (mem_cons_of_mem s ht)
    refine ⟨hrest.toMarked, fun x hx => hrest.mono x (hstep.mono x hx),
      fun x hx => hrest.queue_mono x (hstep.queue_mono x hx), fun x hx => ?_,
      fun t ht hwanted => ?_⟩
    · rcases hrest.new x hx with hx | hx
      · rcases hstep.new x hx with hx | hx
        · exact .inl hx
        · exact .inr (hrest.queue_mono x hx)
      · exact .inr hx
    · rcases mem_cons.mp ht with rfl | ht
      · exact hrest.mono _ (hstep.wanted t (mem_singleton_self t) hwanted)
      · exact hrest.wanted t ht hwanted

end

/-- The marked vertices that are no longer in the queue have marked what they had to. -/
structure MarkInv (G : StepGraph Nat S) (src dst D a b : Nat) (st : MeetState) (m : MarkState) :
    Prop extends Marked G src dst D st m where
  start : ∀ x ∈ st.vec, m.visited x = true
  closed : ∀ x, m.visited x = true → x ∉ m.queue → ∀ s ∈ G.next x,
    Wanted G src dst a b x (G.target s) → m.visited (G.target s) = true

theorem Met.markInv_init (h : Met G src dst D a b st) :
    MarkInv G src dst D a b st (markInit st) := by
  have hvisited : ∀ x, (markInit st).visited x = true ↔ x ∈ st.vec := fun x => decide_eq_true_iff
  refine ⟨⟨fun x hx => ?_, fun _ _ => rfl, fun x hx => (hvisited x).mpr hx⟩,
    fun x hx => (hvisited x).mpr hx, fun x hx hnot => absurd ((hvisited x).mp hx) hnot⟩
  obtain ⟨hi, hj⟩ := (h.mem_vec x).mp ((hvisited x).mp hx)
  exact ⟨a, b, h.sum_eq, hi, hj, h.dist_src le_rfl hi⟩

section

variable (h : MarkInv G src dst D a b st m) (hmet : Met G src dst D a b st)
include h hmet

theorem MarkInv.markNext (hqueue : (!m.queue.isEmpty) = true) :
    MarkInv G src dst D a b st (markNext G (st.dist .fromDst) m) := by
  unfold AllShortest.markNext
  cases hm : m.queue with
  | nil => simp [hm] at hqueue
  | cons v rest =>
    have hqueued : ∀ x ∈ v :: rest, m.visited x = true := fun x hx => h.queued x (hm ▸ hx)
    have hpopped : Marked G src dst D st { m with queue := rest } :=
      ⟨h.sound, h.fresh, fun x hx => hqueued x (mem_cons_of_mem v hx)⟩
    have hnext := hpopped.markNbrs hmet (hqueued v mem_cons_self) fun s hs => hs
    refine ⟨hnext.toMarked, fun x hx => hnext.mono x (h.start x hx), ?_⟩
    intro x hx hnot s hs hwanted
    rcases hnext.new x hx with hx | hx
    · by_cases hxv : x = v
      · subst hxv
        exact hnext.wanted s hs hwanted
      · -- `x` was not in the queue before either
        refine hnext.mono _ (h.closed x hx ?_ s hs hwanted)
        rw [hm, mem_cons, not_or]
        exact ⟨hxv, fun hmem => hnot (hnext.queue_mono x hmem)⟩
    · exact absurd hx hnot

/-- With an empty queue, the vertices before the meeting point are marked. -/
theorem MarkInv.visited_before
    (hqueue : m.queue = []) (hn : i + n = a) (hx : G.IsDist src x i) (hj : G.IsDist dst x (b + n)) :
    m.visited x = true := by
  have hsum := hmet.sum_eq
  induction n generalizing i x with
  | zero => exact h.start x ((hmet.mem_vec x).mpr ⟨hn ▸ hx, hj⟩)
  | succ n ih =>
    -- the next vertex of a shortest path is marked and marks the one before it
    have hsucc : G.IsDist dst x (b + n + 1) := hj
    obtain ⟨y, hy, s, hs, rfl⟩ := hsucc.exists_pred
    obtain ⟨s', hs', rfl⟩ := hmet.rev y s hs
    have hyi := hmet.isDist_src_of_far (by omega) hx hs' hy
    have hvisited := ih (by omega) hyi hy
    refine h.closed _ hvisited (by simp [hqueue]) s hs (.inl ⟨i, by omega, hyi, hx⟩)

/-- With an empty queue, the vertices after the meeting point are marked. -/
theorem MarkInv.visited_after
    (hqueue : m.queue = []) (hn : j + n = b) (hx : G.IsDist dst x j) (hi : G.IsDist src x (a + n)) :
    m.visited x = true := by
  have hsum := hmet.sum_eq
  induction n generalizing j x with
  | zero => exact h.start x ((hmet.mem_vec x).mpr ⟨hi, hn ▸ hx⟩)
  | succ n ih =>
    have hsucc : G.IsDist src x (a + n + 1) := hi
    obtain ⟨y, hy, s, hs, rfl⟩ := hsucc.exists_pred
    obtain ⟨s', hs', rfl⟩ := hmet.rev y s hs
    have hyj := hmet.isDist_dst_of_near (by omega) hx hs' hy
    have hvisited := ih (by omega) hyj hy
    exact h.closed _ hvisited (by simp [hqueue]) s hs (.inr ⟨j, by omega, hyj, hx⟩)

/-- With an empty queue, exactly the vertices of shortest paths are marked. -/
theorem MarkInv.visited_iff (hqueue : m.queue = []) (hij : i + j = D) (hx : G.IsDist src x i) :
    (m.visited x = true ∧ m.dist x = i) ↔ G.IsDist dst x j := by
  constructor
  · rintro ⟨hvisited, -⟩
    obtain ⟨-, j', hsum, hj'⟩ := h.isDist_of_visited hvisited hx
    obtain rfl : j' = j := by omega
    exact hj'
  · intro hj
    have hsum := hmet.sum_eq
    have hvisited : m.visited x = true := by
      rcases Nat.le_total i a with hle | hle
      · exact h.visited_before hmet hqueue (n := a - i) (by omega) hx
          ((by omega : j = b + (a - i)) ▸ hj)
      · exact h.visited_after hmet hqueue (n := b - j) (by omega) hj
          ((by omega : i = a + (b - j)) ▸ hx)
    exact ⟨hvisited, (h.isDist_of_visited hvisited hx).1⟩

end

/-- The loop ends with exactly the vertices of shortest paths marked. -/
theorem Met.exists_mark (h : Met G src dst D a b st) (hU : ∀ v, ∀ s ∈ G.next v, G.target s ∈ U) :
    ∃ n m, mark G n st = some m ∧ MarkInv G src dst D a b st m ∧ m.queue = [] := by
  obtain ⟨n, m, hm⟩ := AllShortest.exists_mark hU st
  obtain ⟨hinv, hstop⟩ := whileLoop_invariant (P := MarkInv G src dst D a b st) hm h.markInv_init
    fun t ht hguard => ht.markNext h hguard
  refine ⟨n, m, hm, hinv, ?_⟩
  simpa using hstop

end AllShortest

end Neug.Execution
