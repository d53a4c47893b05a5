import Neug.Execution.AllShortestMark

/-! # The paths that are listed

The recursive search over the marked vertices lists every shortest path once.  Whatever the
searches have left, it only lists walks along which the stored depths grow by one, so that it
never lists a walk of more than 127 steps.
-/

namespace Neug.Execution

open Library Function List

namespace AllShortest

variable {S : Type} {G : StepGraph Nat S} {m : MarkState} {src dst D a b i j v x : Nat}
  {st : MeetState}

/-! ## Running longer -/

variable {ps : List (List S)} {n k : Nat}

theorem dfs_mono (hle : n ≤ k) (h : dfs G m dst n v = some ps) : dfs G m dst k v = some ps := by
  induction n generalizing k v ps with
  | zero => cases h
  | succ n ih =>
    obtain ⟨k, rfl⟩ : ∃ j, k = j + 1 := ⟨k - 1, by omega⟩
    rw [dfs] at h ⊢
    by_cases hv : v = dst
    · rw [if_pos hv] at h ⊢
      exact h
    rw [if_neg hv] at h ⊢
    refine collect_mono (fun s _ b hb => ?_) h
    obtain ⟨ps', hps', rfl⟩ := Option.map_eq_some_iff.mp hb
    exact Option.map_eq_some_iff.mpr ⟨ps', ih (by omega) hps', rfl⟩

theorem listPaths_mono {upper : Nat} (hle : n ≤ k) (h : listPaths G upper n src dst st = some ps) :
    listPaths G upper k src dst st = some ps := by
  unfold listPaths at h ⊢
  split_ifs at h ⊢
  · exact h
  · exact h
  · obtain ⟨m, hm, hps⟩ := Option.bind_eq_some_iff.mp h
    exact Option.bind_eq_some_iff.mpr ⟨m, whileLoop_mono hm hle, dfs_mono hle hps⟩

theorem paths_mono {upper : Nat} (hle : n ≤ k) (h : paths G upper n src dst = some ps) :
    paths G upper k src dst = some ps := by
  obtain ⟨st, hst, hps⟩ := Option.bind_eq_some_iff.mp h
  exact Option.bind_eq_some_iff.mpr ⟨st, whileLoop_mono hst hle, listPaths_mono hle hps⟩

/-- The searches, the marking and the listing end with a common fuel. -/
theorem exists_paths {upper : Nat}
    (hst : whileLoop (goesOn upper) (expand G) n (meetInit src dst) = some st)
    (hps : listPaths G upper k src dst st = some ps) :
    ∃ fuel, paths G upper fuel src dst = some ps :=
  ⟨max n k, Option.bind_eq_some_iff.mpr ⟨st, whileLoop_mono hst (Nat.le_max_left n k),
    listPaths_mono (Nat.le_max_right n k) hps⟩⟩

/-! ## Over the marked vertices -/

/-- The walks from `v` to the destination of `j` steps. -/
def IsRoute (G : StepGraph Nat S) (dst v j : Nat) (w : List S) : Prop :=
  G.IsWalk v w ∧ G.finish v w = dst ∧ w.length = j

/-- The steps along which the listing goes on are the steps of shortest paths. -/
theorem MarkInv.allows_iff (h : MarkInv G src dst D a b st m) (hmet : Met G src dst D a b st)
    (hqueue : m.queue = []) (hij : i + (j + 1) = D) (hi : G.IsDist src v i)
    (hj : G.IsDist dst v (j + 1)) {s : S} (hs : s ∈ G.next v) :
    m.allows G v s = true ↔ G.IsDist dst (G.target s) j := by
  have hv := ((h.visited_iff hmet hqueue hij hi).mpr hj).2
  rw [MarkState.allows, Bool.and_eq_true, decide_eq_true_eq, hv]
  constructor
  · rintro ⟨hvisited, hdist⟩
    obtain ⟨i', j', hsum, -, hj', hdist'⟩ := h.sound _ hvisited
    obtain rfl : j' = j := by omega
    exact hj'
  · intro hy
    have hyi := hmet.isDist_src_of_far hij hi hs hy
    obtain ⟨hvisited, hdist⟩ := (h.visited_iff hmet hqueue (by omega) hyi).mpr hy
    exact ⟨hvisited, by rw [hdist]; rfl⟩

theorem exactlyOnce_routes (hnodup : (G.next v).Nodup) {steps : List S} (hne : v ≠ dst)
    {ps : S → List (List S)} (hsub : steps.Sublist (G.next v))
    (hsteps : ∀ s ∈ G.next v, s ∈ steps ↔ ∃ w, IsRoute G dst (G.target s) j w)
    (hps : ∀ s ∈ steps, ExactlyOnce (ps s) (IsRoute G dst (G.target s) j)) :
    ExactlyOnce (steps.flatMap fun s => (ps s).map (s :: ·)) (IsRoute G dst v (j + 1)) := by
  refine ⟨?_, fun w => ?_⟩
  · rw [nodup_flatMap]
    refine ⟨fun s hs => (hps s hs).1.map fun _ _ heq => (List.cons.inj heq).2, ?_⟩
    refine (hnodup.sublist hsub).imp fun {s t} hst => ?_
    intro w hs ht
    obtain ⟨w₁, -, rfl⟩ := mem_map.mp hs
    obtain ⟨w₂, -, heq⟩ := mem_map.mp ht
    exact hst (List.cons.inj heq).1.symm
  · simp only [mem_flatMap, mem_map]
    constructor
    · rintro ⟨s, hs, w, hw, rfl⟩
      obtain ⟨hwalk, hfinish, hlen⟩ := ((hps s hs).2 w).mp hw
      exact ⟨⟨hsub.subset hs, hwalk⟩, hfinish, by simp [hlen]⟩
    · rintro ⟨hwalk, hfinish, hlen⟩
      cases w with
      | nil => exact absurd hfinish hne
      | cons s w =>
        have hroute : IsRoute G dst (G.target s) j w := ⟨hwalk.2, hfinish, by simpa using hlen⟩
        have hs := (hsteps s hwalk.1).mpr ⟨w, hroute⟩
        exact ⟨s, hs, w, ((hps s hs).2 w).mpr hroute, rfl⟩

/-- Every shortest path is listed once. -/
theorem MarkInv.exists_dfs (h : MarkInv G src dst D a b st m) (hmet : Met G src dst D a b st)
    (hqueue : m.queue = []) (hnodup : ∀ v, (G.next v).Nodup) (hij : i + j = D)
    (hi : G.IsDist src v i) (hj : G.IsDist dst v j) :
    ∃ ps, dfs G m dst (j + 1) v = some ps ∧ ExactlyOnce ps (IsRoute G dst v j) := by
  induction j generalizing i v with
  | zero =>
    have hv : v = dst := StepGraph.isDist_zero.mp hj
    refine ⟨[[]], if_pos hv, nodup_singleton _, fun w => ?_⟩
    rw [mem_singleton]
    constructor
    · rintro rfl
      exact ⟨trivial, hv, rfl⟩
    · rintro ⟨-, -, hlen⟩
      exact length_eq_zero_iff.mp hlen
  | succ j ih =>
    have hne : v ≠ dst := by
      rintro rfl
      have := hj.unique (StepGraph.isDist_self v)
      omega
    have hallows : ∀ s ∈ (G.next v).filter (m.allows G v), s ∈ G.next v ∧
        G.IsDist dst (G.target s) j := fun s hs =>
      ⟨(mem_filter.mp hs).1, (h.allows_iff hmet hqueue hij hi hj (mem_filter.mp hs).1).mp
        (mem_filter.mp hs).2⟩
    choose! ps hps hexact using fun s hs => ih (i := i + 1) (v := G.target s) (by omega)
      (hmet.isDist_src_of_far hij hi (hallows s hs).1 (hallows s hs).2) (hallows s hs).2
    refine ⟨_, ?_, exactlyOnce_routes (hnodup v) hne filter_sublist (fun s hs => ?_) hexact⟩
    · rw [dfs, if_neg hne]
      exact collect_eq_some fun s hs => by rw [hps s hs, Option.map_some]
    · rw [mem_filter, h.allows_iff hmet hqueue hij hi hj hs]
      constructor
      · rintro ⟨-, hy⟩
        obtain ⟨w, hw⟩ := hmet.rev.reaches_symm hy.1
        exact ⟨w, hw⟩
      · rintro ⟨w, hw⟩
        refine ⟨hs, hmet.rev.reaches_symm ⟨w, hw⟩, fun k hk hreach => ?_⟩
        -- a shorter way from the neighbour would give a shorter one from `v`
        obtain ⟨s', hs', hback⟩ := hmet.rev v s hs
        have hshort := hreach.concat hs'
        rw [hback] at hshort
        exact hj.2 (k + 1) (by omega) hshort

/-! ## Whatever the searches have left -/

/-- The listing ends, since depths are at most 127. -/
theorem exists_dfs (hdist : ∀ x, m.dist x ≤ 127) (hn : 127 - m.dist v < n) :
    ∃ ps, dfs G m dst n v = some ps := by
  induction n generalizing v with
  | zero =>
    have := hdist v
    omega
  | succ n ih =>
    rw [dfs]
    by_cases hv : v = dst
    · exact ⟨_, if_pos hv⟩
    have hnext : ∀ s ∈ (G.next v).filter (m.allows G v), ∃ ps,
        dfs G m dst n (G.target s) = some ps := by
      intro s hs
      have hallows := (mem_filter.mp hs).2
      rw [MarkState.allows, Bool.and_eq_true, decide_eq_true_eq] at hallows
      exact ih (by omega)
    choose! ps hps using hnext
    rw [if_neg hv]
    exact ⟨_, collect_eq_some fun s hs => by rw [hps s hs, Option.map_some]⟩

/-- What is listed are walks along which the depths grow by one. -/
theorem dfs_sound {w : List S} (h : dfs G m dst n v = some ps) (hw : w ∈ ps) :
    G.IsWalk v w ∧ G.finish v w = dst ∧ m.dist dst = m.dist v + w.length := by
  induction n generalizing v ps w with
  | zero => cases h
  | succ n ih =>
    rw [dfs] at h
    split_ifs at h with hv
    · cases h
      obtain rfl := mem_singleton.mp hw
      exact ⟨trivial, hv, by simp [hv]⟩
    · obtain ⟨s, hs, bs, hbs, hmem⟩ := exists_of_mem_collect h hw
      obtain ⟨hnext, hallows⟩ := mem_filter.mp hs
      rw [MarkState.allows, Bool.and_eq_true, decide_eq_true_eq] at hallows
      obtain ⟨ps', hps', rfl⟩ := Option.map_eq_some_iff.mp hbs
      obtain ⟨w', hw', rfl⟩ := mem_map.mp hmem
      obtain ⟨hwalk, hfinish, hdist⟩ := ih hps' hw'
      refine ⟨⟨hnext, hwalk⟩, hfinish, ?_⟩
      rw [hdist, hallows.2, length_cons]
      push_cast
      omega

/-- What the searches keep at the source, however deep they go. -/
structure Rooted (src : Nat) (st : MeetState) : Prop where
  dist_src : st.dist .fromSrc src = 0
  dist_le : ∀ x, st.dist .fromSrc x ≤ 127
  mem_vec : st.dist .fromDst src ≠ -1 → src ∈ st.vec

theorem rooted_init (hne : src ≠ dst) : Rooted src (meetInit src dst) := by
  have hdist : (meetInit src dst).dist .fromSrc = update (fun _ => (-1 : Int)) src 0 := rfl
  have hother : (meetInit src dst).dist .fromDst = update (fun _ => (-1 : Int)) dst 0 := rfl
  refine ⟨?_, fun x => ?_, fun h => ?_⟩
  · rw [hdist, update_self]
  · rw [hdist, update_apply]
    split <;> decide
  · rw [hother, update_of_ne hne] at h
    exact absurd rfl h

theorem Rooted.expand (h : Rooted src st) : Rooted src (expand G st) := by
  have hvec : ∀ x ∈ st.vec, x ∈ (AllShortest.expand G st).vec := by
    intro x hx
    rw [expand_vec]
    exact mem_append_left _ hx
  cases hturn : st.turn with
  | fromSrc =>
    have hdst : (AllShortest.expand G st).dist .fromDst = st.dist .fromDst :=
      expand_dist_of_ne G (by rw [hturn]; decide)
    have hsrc := expand_dist_turn G st
    rw [hturn] at hsrc
    have hnew : src ∉ foundBy G .fromSrc st := fun hmem => by
      have := (mem_foundBy.mp hmem).2
      rw [h.dist_src] at this
      cases this
    refine ⟨?_, fun x => ?_, fun hfound => ?_⟩
    · simp only [hsrc, if_neg hnew, h.dist_src]
    · simp only [hsrc]
      split
      · exact int8_le _
      · exact h.dist_le x
    · rw [hdst] at hfound
      exact hvec src (h.mem_vec hfound)
  | fromDst =>
    have hsrc : (AllShortest.expand G st).dist .fromSrc = st.dist .fromSrc :=
      expand_dist_of_ne G (by rw [hturn]; decide)
    have hdst := expand_dist_turn G st
    rw [hturn] at hdst
    refine ⟨by rw [hsrc]; exact h.dist_src, by rw [hsrc]; exact h.dist_le, fun hfound => ?_⟩
    by_cases hnew : src ∈ foundBy G .fromDst st
    · rw [expand_vec, hturn]
      refine mem_append_right _ (mem_filter.mpr ⟨hnew, ?_⟩)
      change decide (st.dist .fromSrc src ≠ -1) = true
      rw [h.dist_src]
      decide
    · simp only [hdst, if_neg hnew] at hfound
      exact hvec src (h.mem_vec hfound)

structure SourceKept (distDst : Nat → Int) (src : Nat) (m : MarkState) : Prop where
  dist_src : m.dist src = 0
  dist_le : ∀ x, m.dist x ≤ 127
  settled : m.visited src = true ∨ distDst src = -1

theorem SourceKept.markNbr {distDst : Nat → Int} (h : SourceKept distDst src m) (v y : Nat) :
    SourceKept distDst src (markNbr distDst v m y) := by
  rcases markNbr_cases distDst v m y with ⟨heq, -⟩ | ⟨hnew, -, hmarked⟩
  · rw [heq]
    exact h
  refine ⟨?_, fun x => ?_, ?_⟩
  · by_cases hsrc : src = y
    · -- the source is not marked only when the other search has not found it
      subst hsrc
      have hdst : distDst src = -1 :=
        h.settled.resolve_left (by rw [hnew]; exact Bool.false_ne_true)
      rw [hmarked.dist_self, if_neg fun hfar => hfar.1 hdst, h.dist_src]
    · rw [hmarked.dist_of_ne src hsrc, h.dist_src]
  · by_cases hx : x = y
    · rw [hx, hmarked.dist_self]
      split
      · exact int8_le _
      · exact h.dist_le y
    · rw [hmarked.dist_of_ne x hx]
      exact h.dist_le x
  · exact h.settled.imp_left hmarked.visited_mono

theorem SourceKept.markNext {distDst : Nat → Int} (h : SourceKept distDst src m) :
    SourceKept distDst src (markNext G distDst m) := by
  unfold AllShortest.markNext
  cases m.queue with
  | nil => exact h
  | cons v rest =>
    exact foldlRecOn (motive := SourceKept distDst src) _ _ ⟨h.dist_src, h.dist_le, h.settled⟩
      fun m' h' s _ => h'.markNbr v (G.target s)

theorem Rooted.sourceKept (h : Rooted src st) (hm : mark G n st = some m) :
    SourceKept (st.dist .fromDst) src m := by
  have hinit : SourceKept (st.dist .fromDst) src (markInit st) := by
    refine ⟨h.dist_src, h.dist_le, ?_⟩
    by_cases hdst : st.dist .fromDst src = -1
    · exact .inr hdst
    · exact .inl (decide_eq_true (h.mem_vec hdst))
  exact (whileLoop_invariant hm hinit fun t ht _ => ht.markNext).1

/-! ## Between different vertices -/

section Pair

variable {U : List Nat} {upper : Nat} (hU : ∀ v, ∀ s ∈ G.next v, G.target s ∈ U)

include hU

/-- Whatever the searches have left, the listing ends and what it lists is short. -/
theorem Rooted.exists_listPaths (h : Rooted src st) (upper dst : Nat) :
    ∃ n ps, listPaths G upper n src dst st = some ps ∧
      ∀ w ∈ ps, G.IsWalk src w ∧ G.finish src w = dst ∧ w.length ≤ 127 := by
  by_cases hvec : st.vec = []
  · exact ⟨0, [], if_pos hvec, nofun⟩
  by_cases hupper : (upper : Int) ≤ st.dep .fromSrc + st.dep .fromDst
  · exact ⟨0, [], by rw [listPaths, if_neg hvec, if_pos hupper], nofun⟩
  obtain ⟨n, m, hm⟩ := exists_mark hU st
  have hkept := h.sourceKept hm
  obtain ⟨ps, hps⟩ : ∃ ps, dfs G m dst 128 src = some ps :=
    exists_dfs hkept.dist_le (by rw [hkept.dist_src]; decide)
  refine ⟨max n 128, ps, ?_, fun w hw => ?_⟩
  · rw [listPaths, if_neg hvec, if_neg hupper]
    exact Option.bind_eq_some_iff.mpr
      ⟨m, whileLoop_mono hm (Nat.le_max_left n 128), dfs_mono (Nat.le_max_right n 128) hps⟩
  · obtain ⟨hwalk, hfinish, hdist⟩ := dfs_sound hps hw
    have hle := hkept.dist_le dst
    rw [hkept.dist_src] at hdist
    exact ⟨hwalk, hfinish, by omega⟩

/-- No path is listed between vertices that are not joined by 127 steps or less. -/
theorem exists_paths_of_far (hne : src ≠ dst) (hfar : ∀ d ≤ 127, ¬ G.IsDist src dst d) :
    Returns (fun fuel => paths G upper fuel src dst) [] := by
  obtain ⟨n, st, hst⟩ := exists_meeting hU upper src dst
  have hrooted : Rooted src st :=
    (whileLoop_invariant hst (rooted_init hne) fun t ht _ => ht.expand).1
  obtain ⟨n', ps, hps, hshort⟩ := hrooted.exists_listPaths hU upper dst
  have hnil : ps = [] := by
    refine eq_nil_iff_forall_not_mem.mpr fun w hw => ?_
    obtain ⟨hwalk, hfinish, hlen⟩ := hshort w hw
    obtain ⟨d, hd, hdist⟩ := StepGraph.Reaches.exists_isDist ⟨w, hwalk, hfinish, rfl⟩
    exact hfar d (by omega) hdist
  rw [hnil] at hps
  exact exists_paths hst hps

section

variable (hrev : G.Reversible) (hnodup : ∀ v, (G.next v).Nodup) (hne : src ≠ dst)
include hrev hnodup hne

/-- The paths between vertices that are at most 127 steps apart. -/
theorem exists_paths_of_isDist (hD : G.IsDist src dst D) (hsmall : D ≤ 127) :
    ∃ ps, Returns (fun fuel => paths G upper fuel src dst) ps ∧
      ExactlyOnce ps fun w => IsRoute G dst src D w ∧ D < upper := by
  obtain ⟨n, st, dep, hst, hmeeting, hstop⟩ := exists_meeting_of_isDist hU hrev hD hsmall hne upper
  have hdep : ∀ side, dep side ≤ D := by
    have hle : dep .fromSrc + dep .fromDst ≤ D := by
      rcases hmeeting.vec with ⟨-, hlt⟩ | ⟨-, heq, -⟩ <;> omega
    intro side
    rw [dep_add dep side] at hle
    omega
  have hdep_eq : ∀ side, st.dep side = dep side := fun side => by
    rw [(hmeeting.ball side).dep_eq, int8_natCast ((hdep side).trans hsmall)]
  have hnone : upper ≤ D → ExactlyOnce ([] : List (List S)) fun w =>
      IsRoute G dst src D w ∧ D < upper :=
    fun hle => ⟨nodup_nil, fun w => by simpa using fun _ => hle⟩
  rcases hmeeting.vec with ⟨hvec, hlt⟩ | ⟨hvec, hsum, hmem⟩
  · refine ⟨[], exists_paths hst (k := 0) (if_pos hvec), hnone ?_⟩
    -- the searches have not met, and there is a vertex at each depth up to `D`
    have hqueue : st.queue st.turn ≠ [] := by
      obtain ⟨y, hy⟩ := (start_isDist hrev hD st.turn).exists_of_le (hdep st.turn)
      exact ne_nil_of_mem ((hmeeting.ball st.turn).mem_queue.mpr hy)
    by_contra hupper
    have hgoes : goesOn upper st = true := by
      rw [goesOn_iff, hdep_eq, hdep_eq]
      exact ⟨by omega, by omega, hvec, hqueue⟩
    rw [hgoes] at hstop
    cases hstop
  · have hint : st.dep .fromSrc + st.dep .fromDst = D := by
      rw [hdep_eq, hdep_eq]
      omega
    by_cases hupper : upper ≤ D
    · refine ⟨[], exists_paths hst (k := 0) ?_, hnone hupper⟩
      rw [listPaths, if_neg hvec, hint, if_pos (by omega)]
    · have hmet : Met G src dst D (dep .fromSrc) (dep .fromDst) st :=
        ⟨hrev, hD, hsmall, hsum, hmeeting.ball .fromSrc, hmeeting.ball .fromDst, fun x => by
          rw [hmem, forall_side_iff .fromSrc]
          rfl⟩
      obtain ⟨k, m, hm, hinv, hqueue⟩ := hmet.exists_mark hU
      obtain ⟨ps, hps, hexact⟩ := hinv.exists_dfs hmet hqueue hnodup (Nat.zero_add D)
        (StepGraph.isDist_self src) (hrev.isDist_symm hD)
      refine ⟨ps, exists_paths hst (k := max k (D + 1)) ?_, hexact.congr fun w => ?_⟩
      · rw [listPaths, if_neg hvec, hint, if_neg (by omega)]
        exact Option.bind_eq_some_iff.mpr
          ⟨m, whileLoop_mono hm (Nat.le_max_left _ _), dfs_mono (Nat.le_max_right _ _) hps⟩
      · exact ⟨fun h => ⟨h, by omega⟩, fun h => h.1⟩

/-- What the search returns between different vertices: the shortest paths, unless they have
more than 127 steps or `upper` steps or more. -/
theorem exists_paths_of_ne (upper : Nat) :
    ∃ ps, Returns (fun fuel => paths G upper fuel src dst) ps ∧
      ExactlyOnce ps fun w => G.IsWalk src w ∧ G.finish src w = dst ∧ G.IsDist src dst w.length ∧
        w.length ≤ 127 ∧ w.length < upper := by
  by_cases hnear : ∃ D ≤ 127, G.IsDist src dst D
  · obtain ⟨D, hsmall, hD⟩ := hnear
    obtain ⟨ps, hps, hexact⟩ : ∃ ps, Returns (fun fuel => paths G upper fuel src dst) ps ∧ _ :=
      exists_paths_of_isDist hU hrev hnodup hne hD hsmall
    refine ⟨ps, hps, hexact.congr fun w => ?_⟩
    constructor
    · rintro ⟨⟨hwalk, hfinish, rfl⟩, hupper⟩
      exact ⟨hwalk, hfinish, hD, hsmall, hupper⟩
    · rintro ⟨hwalk, hfinish, hdist, -, hupper⟩
      obtain rfl := hdist.unique hD
      exact ⟨⟨hwalk, hfinish, rfl⟩, hupper⟩
  · push Not at hnear
    refine ⟨[], exists_paths_of_far hU hne hnear, nodup_nil, fun w => ?_⟩
    refine iff_of_false not_mem_nil ?_
    rintro ⟨-, -, hdist, hsmall, -⟩
    exact hnear w.length hsmall hdist

end

end Pair

end AllShortest

end Neug.Execution
