import Neug.Execution.AnyShortest
import Neug.Execution.PathSearchContract
import Neug.Execution.SingleSourceSearch

/-! # What the single-source operator returns

For the single-triplet implementation the levels of the search are the distances, except that
the start vertex is found once more when the search comes back to it.
-/

namespace Neug.Execution

open Library StepGraph List
open Storage (EdgeLabel)

/-! ## The search over one triplet -/

namespace ReadGraph

variable {g : ReadGraph} {labels : List EdgeLabel} {v : VertexRecord} {s : PathStep}

variable (g) in
theorem outSteps_loop (label edge a : Nat) : g.outSteps [⟨label, label, edge⟩] ⟨label, a⟩ =
      (g.outgoing ⟨label, label, edge⟩ a).map fun n =>
        ⟨edge, .kOut, n.data, ⟨label, n.neighbor⟩⟩ := by
  simp [outSteps, outLabelsMap]

variable (g) in
theorem inSteps_loop (label edge a : Nat) : g.inSteps [⟨label, label, edge⟩] ⟨label, a⟩ =
      (g.incoming ⟨label, label, edge⟩ a).map fun n =>
        ⟨edge, .kIn, n.data, ⟨label, n.neighbor⟩⟩ := by
  simp [inSteps, inLabelsMap]

/-- An edge walked in one direction can be walked back. -/
theorem exists_step_back (h : s ∈ g.stepsFrom labels .kBoth v) :
    ∃ s' ∈ g.stepsFrom labels .kBoth s.node, s'.node = v := by
  obtain ⟨el, dir, data, node⟩ := s
  obtain ⟨hdir, hedge⟩ := mem_stepsFrom.mp h
  rcases hdir with hdir | hdir
  · obtain rfl : dir = .kOut := hdir
    exact ⟨⟨el, .kIn, data, v⟩, mem_stepsFrom.mpr ⟨.inr rfl, hedge⟩, rfl⟩
  · obtain rfl : dir = .kIn := hdir
    exact ⟨⟨el, .kOut, data, v⟩, mem_stepsFrom.mpr ⟨.inl rfl, hedge⟩, rfl⟩

end ReadGraph

namespace SsspSearch

variable {S : SsspSearch} {g : ReadGraph} {t : EdgeLabel} {dir : Direction}

/-- Distances are those of the graph, among vertices of the label. -/
theorem Serves.reaches_iff (h : S.Serves g t dir) {a k : Nat} {x : VertexRecord} :
    (g.stepGraph [t] dir).Reaches ⟨S.vLabel, a⟩ x k ↔
      x.label = S.vLabel ∧ S.graph.Reaches a x.vid k := by
  induction k generalizing x with
  | zero =>
    obtain ⟨label, vid⟩ := x
    simp [reaches_zero]
  | succ k ih =>
    rw [reaches_succ, reaches_succ]
    constructor
    · rintro ⟨⟨label, b⟩, hb, s, hs, rfl⟩
      obtain ⟨rfl, hreach⟩ := ih.mp hb
      have hlabel := h.label_eq b s hs
      refine ⟨hlabel, b, hreach, s.node.vid, (h.nbrs_iff b _).mpr ⟨s, hs, ?_⟩, rfl⟩
      rw [← hlabel]
    · rintro ⟨hlabel, b, hreach, c, hc, hx⟩
      obtain ⟨s, hs, hnode⟩ := (h.nbrs_iff b c).mp hc
      refine ⟨⟨S.vLabel, b⟩, ih.mpr ⟨rfl, hreach⟩, s, hs, hnode.trans ?_⟩
      obtain ⟨label, vid⟩ := x
      cases hlabel
      cases hx
      rfl

theorem Serves.isFirst_iff (h : S.Serves g t dir) {a d least : Nat} {x : VertexRecord} :
    (g.stepGraph [t] dir).IsFirst least ⟨S.vLabel, a⟩ x d ↔
      x.label = S.vLabel ∧ S.graph.IsFirst least a x.vid d := by
  simp only [StepGraph.IsFirst, h.reaches_iff]
  constructor
  · rintro ⟨hle, ⟨hlabel, hreach⟩, hmin⟩
    exact ⟨hlabel, hle, hreach, fun k hk hlt hr => hmin k hk hlt ⟨hlabel, hr⟩⟩
  · rintro ⟨hlabel, hle, hreach, hmin⟩
    exact ⟨hle, ⟨hlabel, hreach⟩, fun k hk hlt hr => hmin k hk hlt hr.2⟩

end SsspSearch

namespace ShortestPathParams

variable {g : ReadGraph} (p : ShortestPathParams g)

theorem exists_firstEdge (dir : Direction) {nbrs : List Nbr} {b : Nat}
    (h : b ∈ nbrs.map (·.neighbor)) :
    ∃ n ∈ nbrs, n.neighbor = b ∧ firstEdge dir nbrs b = some (dir, n.data) := by
  unfold firstEdge
  cases hfind : nbrs.find? fun n => n.neighbor = b with
  | none =>
    obtain ⟨n, hn, heq⟩ := mem_map.mp h
    exact absurd heq (by simpa using find?_eq_none.mp hfind n hn)
  | some n =>
    exact ⟨n, mem_of_find?_eq_some hfind, by simpa using find?_some hfind, rfl⟩

theorem firstEdge_eq_none {dir : Direction} {nbrs : List Nbr} {b : Nat}
    (h : b ∉ nbrs.map (·.neighbor)) : firstEdge dir nbrs b = none := by
  unfold firstEdge
  rw [find?_eq_none.mpr, Option.map_none]
  intro n hn heq
  exact h (mem_map.mpr ⟨n, hn, by simpa using heq⟩)

variable {col : VertexColumn Nat} {x : VertexRecord} {label d : Nat}

theorem ssspDir_serves {t : EdgeLabel} {eLabel : Nat} {dir : Direction} {view : Nat → List Nbr}
    (hview : ∀ a, g.stepsFrom [t] dir ⟨label, a⟩ =
      (view a).map fun n => ⟨eLabel, dir, n.data, ⟨label, n.neighbor⟩⟩) :
    (p.ssspDir label eLabel dir view).Serves g t dir := by
  have hlabel : (p.ssspDir label eLabel dir view).vLabel = label := rfl
  refine ⟨fun a b => ?_, fun a s hs => ?_, fun a b hb => ?_⟩
  · simp [hview, ssspDir]
  · rw [hlabel, hview] at hs
    obtain ⟨n, -, rfl⟩ := mem_map.mp hs
    rfl
  · obtain ⟨n, hn, rfl, hedge⟩ := exists_firstEdge dir hb
    refine ⟨dir, n.data, hedge, ?_⟩
    rw [hlabel, hview]
    exact mem_map.mpr ⟨n, hn, rfl⟩

theorem ssspBothDir_serves (label eLabel : Nat) :
    (p.ssspBothDir label eLabel (g.outgoing ⟨label, label, eLabel⟩)
      (g.incoming ⟨label, label, eLabel⟩)).Serves g ⟨label, label, eLabel⟩ .kBoth := by
  have hlabel : (p.ssspBothDir label eLabel (g.outgoing ⟨label, label, eLabel⟩)
    (g.incoming ⟨label, label, eLabel⟩)).vLabel = label := rfl
  have hsteps : ∀ a, g.stepsFrom [⟨label, label, eLabel⟩] .kBoth ⟨label, a⟩ =
      ((g.outgoing ⟨label, label, eLabel⟩ a).map fun n =>
        (⟨eLabel, .kOut, n.data, ⟨label, n.neighbor⟩⟩ : PathStep)) ++
      (g.incoming ⟨label, label, eLabel⟩ a).map fun n =>
        ⟨eLabel, .kIn, n.data, ⟨label, n.neighbor⟩⟩ := by
    intro a
    rw [ReadGraph.stepsFrom, ReadGraph.outSteps_loop, ReadGraph.inSteps_loop]
  refine ⟨fun a b => ?_, fun a s hs => ?_, fun a b hb => ?_⟩
  · simp [hsteps, ssspBothDir, or_and_right, exists_or]
  · rw [hlabel, hsteps] at hs
    rcases mem_append.mp hs with hs | hs
    · obtain ⟨n, -, rfl⟩ := mem_map.mp hs
      rfl
    · obtain ⟨n, -, rfl⟩ := mem_map.mp hs
      rfl
  · rw [hlabel, hsteps]
    by_cases hout : b ∈ (g.outgoing ⟨label, label, eLabel⟩ a).map (·.neighbor)
    · obtain ⟨n, hn, rfl, hedge⟩ := exists_firstEdge .kOut hout
      refine ⟨.kOut, n.data, ?_, mem_append_left _ (mem_map.mpr ⟨n, hn, rfl⟩)⟩
      simp [ssspBothDir, hedge]
    · have hin := (mem_append.mp hb).resolve_left hout
      obtain ⟨n, hn, rfl, hedge⟩ := exists_firstEdge .kIn hin
      refine ⟨.kIn, n.data, ?_, mem_append_right _ (mem_map.mpr ⟨n, hn, rfl⟩)⟩
      simp [ssspBothDir, hedge, firstEdge_eq_none hout]

theorem ssspSearch_serves (label eLabel : Nat) :
    (p.ssspSearch ⟨label, label, eLabel⟩).Serves g ⟨label, label, eLabel⟩ p.dir := by
  unfold ssspSearch
  cases p.dir with
  | kOut => exact p.ssspDir_serves fun a => g.outSteps_loop label eLabel a
  | kIn => exact p.ssspDir_serves fun a => g.inSteps_loop label eLabel a
  | kBoth => exact p.ssspBothDir_serves label eLabel

/-! ## Which searches are right -/

structure StartRows (v : VertexRecord) (rows : List (VertexRecord × Path)) : Prop where
  minimal : ∀ row ∈ rows, g.IsPathFrom p.labels p.dir v row.2 ∧ row.2.endNode = row.1 ∧
    (g.stepGraph p.labels p.dir).IsDist v row.1 row.2.length
  dests : ExactlyOnce (rows.map (·.1)) fun x =>
    p.toPathExpandParams.InRange v x ∧ p.pred x = true

/-- What the search over the triplet finds: the depths at which its levels hold a vertex. -/
def FoundAt (t : EdgeLabel) (v x : VertexRecord) (d : Nat) : Prop :=
  (g.stepGraph [t] p.dir).IsFirst (min 1 d) v x d ∧ p.hopLower ≤ d ∧ d < p.hopUpper ∧
    p.pred x = true

variable {p}

theorem exists_run (p : ShortestPathParams g) (v : VertexRecord) (eLabel : Nat) :
    ∃ rows, (p.ssspSearch ⟨v.label, v.label, eLabel⟩).run v.vid = .ok rows ∧
      (∀ row ∈ rows, g.IsPathFrom [⟨v.label, v.label, eLabel⟩] p.dir v row.2 ∧
        row.2.endNode = row.1) ∧ ExactlyOnce (rows.map fun row => (row.1, row.2.length)) fun row =>
        p.FoundAt ⟨v.label, v.label, eLabel⟩ v row.1 row.2 := by
  have hserves := p.ssspSearch_serves v.label eLabel
  have hlabel : (p.ssspSearch ⟨v.label, v.label, eLabel⟩).vLabel = v.label := by
    unfold ssspSearch
    cases p.dir <;> rfl
  have hrange : (p.ssspSearch ⟨v.label, v.label, eLabel⟩).lower = p.hopLower ∧
      (p.ssspSearch ⟨v.label, v.label, eLabel⟩).upper = p.hopUpper ∧
      (p.ssspSearch ⟨v.label, v.label, eLabel⟩).pred = p.pred := by
    unfold ssspSearch
    cases p.dir <;> exact ⟨rfl, rfl, rfl⟩
  obtain ⟨rows, hrun, hrows⟩ := SsspSearch.exists_run hserves v.vid
  refine ⟨rows, hrun, fun row hrow => ?_, hrows.found.congr fun row => ?_⟩
  · obtain ⟨⟨hpath, hend, -⟩, hrow'⟩ := hrows.path row hrow
    rw [hlabel] at hpath
    refine ⟨hpath, hend.trans ?_⟩
    rw [← hrow']
  · have hfirst :
        (g.stepGraph [⟨v.label, v.label, eLabel⟩] p.dir).IsFirst (min 1 row.2) v row.1 row.2 ↔
        _ := hlabel ▸ hserves.isFirst_iff
    simp only [SsspSearch.Found, FoundAt, hfirst, hlabel, hrange, Nat.zero_le, true_and]
    tauto

/-- The rows are right exactly if vertices are found at their distance only. -/
theorem startRows_iff {t : EdgeLabel} {v : VertexRecord} {rows : List (VertexRecord × Path)}
    (hpath : ∀ row ∈ rows, row.2.endNode = row.1)
    (hfound : ExactlyOnce (rows.map fun row => (row.1, row.2.length)) fun row =>
      p.FoundAt t v row.1 row.2)
    (hgraph : ∀ row ∈ rows, (g.stepGraph p.labels p.dir).IsDist v row.1 row.2.length →
      g.IsPathFrom p.labels p.dir v row.2)
    (hcomplete : ∀ x d, (g.stepGraph p.labels p.dir).IsDist v x d →
      (g.stepGraph [t] p.dir).IsFirst (min 1 d) v x d) : p.StartRows v rows ↔
      ∀ x d, p.FoundAt t v x d → (g.stepGraph p.labels p.dir).IsDist v x d := by
  constructor
  · rintro ⟨hminimal, -⟩ x d hx
    obtain ⟨row, hrow, heq⟩ := mem_map.mp ((hfound.2 (x, d)).mpr hx)
    cases heq
    exact (hminimal row hrow).2.2
  · intro h
    have hdist : ∀ row ∈ rows, (g.stepGraph p.labels p.dir).IsDist v row.1 row.2.length :=
      fun row hrow => h _ _ ((hfound.2 _).mp (mem_map.mpr ⟨row, hrow, rfl⟩))
    refine ⟨fun row hrow => ⟨hgraph row hrow (hdist row hrow), hpath row hrow, hdist row hrow⟩, ?_,
      ?_⟩
    · -- a vertex determines its distance
      have hmap : rows.map (·.1) = (rows.map fun row => (row.1, row.2.length)).map (·.1) := by
        rw [map_map]
        rfl
      rw [hmap]
      refine hfound.1.map_on ?_
      rintro ⟨x, d⟩ hx ⟨y, d'⟩ hy rfl
      have := (h x d ((hfound.2 _).mp hx)).unique (h x d' ((hfound.2 _).mp hy))
      rw [this]
    · intro x
      constructor
      · intro hx
        obtain ⟨row, hrow, rfl⟩ := mem_map.mp hx
        obtain ⟨-, hlower, hupper, hpred⟩ := (hfound.2 _).mp (mem_map.mpr ⟨row, hrow, rfl⟩)
        exact ⟨⟨_, hdist row hrow, hlower, hupper⟩, hpred⟩
      · rintro ⟨⟨d, hx, hlower, hupper⟩, hpred⟩
        obtain ⟨row, hrow, heq⟩ := mem_map.mp
          ((hfound.2 (x, d)).mpr ⟨hcomplete x d hx, hlower, hupper, hpred⟩)
        cases heq
        exact mem_map.mpr ⟨row, hrow, rfl⟩

/-! ## Coming back to the start vertex -/

/-- The depths at which the search finds its start vertex again. -/
def ReturnsAt (p : ShortestPathParams g) (v : VertexRecord) (c : Nat) : Prop :=
  (c = 1 ∧ ∃ s ∈ g.stepsFrom p.labels p.dir v, s.node = v) ∨
    (c = 2 ∧ (∃ s, s ∈ g.stepsFrom p.labels p.dir v) ∧
      ¬ ∃ s ∈ g.stepsFrom p.labels p.dir v, s.node = v)

theorem reaches_one {v : VertexRecord} :
    (g.stepGraph p.labels p.dir).Reaches v x 1 ↔
      ∃ s ∈ g.stepsFrom p.labels p.dir v, s.node = x := by
  rw [reaches_succ]
  simp only [reaches_zero, exists_eq_left]
  rfl

/-- A vertex with an edge is reached again over that edge. -/
theorem reaches_two (hdir : p.dir = .kBoth) {v : VertexRecord} {s : PathStep}
    (hs : s ∈ g.stepsFrom p.labels p.dir v) : (g.stepGraph p.labels p.dir).Reaches v v 2 := by
  obtain ⟨s', hs', hback⟩ := ReadGraph.exists_step_back (by rwa [hdir] at hs)
  rw [← hdir] at hs'
  have h := (reaches_one.mpr ⟨s, hs, rfl⟩).concat (G := g.stepGraph p.labels p.dir) hs'
  rwa [show (g.stepGraph p.labels p.dir).target s' = v from hback] at h

theorem isFirst_self_iff (hdir : p.dir = .kBoth) {v : VertexRecord} {c : Nat} :
    (g.stepGraph p.labels p.dir).IsFirst 1 v v c ↔ p.ReturnsAt v c := by
  constructor
  · rintro ⟨hpos, hreach, hmin⟩
    by_cases hloop : ∃ s ∈ g.stepsFrom p.labels p.dir v, s.node = v
    · refine .inl ⟨?_, hloop⟩
      by_contra hne
      exact hmin 1 le_rfl (by omega) (reaches_one.mpr hloop)
    · have hne : c ≠ 1 := by
        rintro rfl
        exact hloop (reaches_one.mp hreach)
      obtain ⟨w, hw, -, hlen⟩ := hreach
      cases w with
      | nil =>
        rw [length_nil] at hlen
        omega
      | cons s w =>
        refine .inr ⟨?_, ⟨s, hw.1⟩, hloop⟩
        by_contra hne'
        exact hmin 2 (by omega) (by omega) (reaches_two hdir hw.1)
  · rintro (⟨rfl, hloop⟩ | ⟨rfl, ⟨s, hs⟩, hloop⟩)
    · exact ⟨le_rfl, reaches_one.mpr hloop, fun k hk hlt => by omega⟩
    · refine ⟨by omega, reaches_two hdir hs, fun k hk hlt hreach => hloop ?_⟩
      obtain rfl : k = 1 := by omega
      exact reaches_one.mp hreach

/-- The start vertices that the single-triplet implementation serves.  For columns of another
label than the triplet's it walks the edges of another triplet, and must not find anything. -/
def ServesStart (p : ShortestPathParams g) (t : EdgeLabel) (v : VertexRecord) : Prop :=
  (v.label = t.src → ∀ c, p.ReturnsAt v c → p.hopLower ≤ c → c < p.hopUpper → p.pred v = false) ∧
    (v.label ≠ t.src → ∀ x d, p.FoundAt ⟨v.label, v.label, t.edge⟩ v x d → d = 0)

variable {t : EdgeLabel} {v : VertexRecord}

theorem isFirst_of_isDist {G : StepGraph VertexRecord PathStep} (h : G.IsDist v x d) :
    G.IsFirst (min 1 d) v x d :=
  ⟨Nat.min_le_right _ _, h.1, fun k _ hlt => h.2 k hlt⟩

/-- Away from the start vertex, levels are distances. -/
theorem isDist_of_isFirst {G : StepGraph VertexRecord PathStep} (h : G.IsFirst (min 1 d) v x d)
    (hne : x ≠ v) : G.IsDist v x d := by
  refine ⟨h.2.1, fun k hlt hreach => ?_⟩
  rcases Nat.eq_zero_or_pos k with rfl | hpos
  · exact hne (reaches_zero.mp hreach)
  · exact h.2.2 k (by omega) hlt hreach

section

variable (hlabels : p.labels = [t])
include hlabels

/-- Vertices without the label of the triplet have no steps. -/
theorem isDist_of_label_ne (hloop : t.src = t.dst)
    (hne : v.label ≠ t.src) : (g.stepGraph p.labels p.dir).IsDist v x d ↔ x = v ∧ d = 0 := by
  constructor
  · intro h
    cases d with
    | zero => exact ⟨isDist_zero.mp h, rfl⟩
    | succ d =>
      obtain ⟨w, hw, -, hlen⟩ := h.1
      cases w with
      | nil => simp at hlen
      | cons s w =>
        obtain ⟨-, -, hlabel⟩ := ReadGraph.mem_stepsFrom.mp hw.1
        rw [hlabels, mem_singleton] at hlabel
        unfold PathStep.edge at hlabel
        split at hlabel
        · exact absurd (congrArg EdgeLabel.dst hlabel) (hloop ▸ hne)
        · exact absurd (congrArg EdgeLabel.src hlabel) hne
  · rintro ⟨rfl, rfl⟩
    exact isDist_self x

/-- On vertices of the triplet's label, only the start vertex can be found wrongly. -/
theorem found_iff_servesStart (hdir : p.dir = .kBoth) (hlabel : v.label = t.src) :
    (∀ x d, p.FoundAt t v x d → (g.stepGraph p.labels p.dir).IsDist v x d) ↔ p.ServesStart t v := by
  simp only [FoundAt, ← hlabels]
  constructor
  · intro h
    refine ⟨fun _ c hc hlower hupper => ?_, fun hne => absurd hlabel hne⟩
    by_contra hpred
    have hfirst := (isFirst_self_iff hdir).mpr hc
    have hdist := h v c ⟨by rwa [Nat.min_eq_left hfirst.1], hlower, hupper, by simpa using hpred⟩
    have hpos := hfirst.1
    have := hdist.unique (isDist_self v)
    omega
  · rintro ⟨h, -⟩ x d ⟨hfirst, hlower, hupper, hpred⟩
    by_cases hx : x = v
    swap
    · exact isDist_of_isFirst hfirst hx
    subst hx
    rcases Nat.eq_zero_or_pos d with rfl | hpos
    · exact isDist_self x
    · rw [Nat.min_eq_left hpos] at hfirst
      have := h hlabel d ((isFirst_self_iff hdir).mp hfirst) hlower hupper
      rw [this] at hpred
      cases hpred

/-- On vertices of another label, nothing but the start vertex may be found. -/
theorem found_iff_servesStart_of_ne (hloop : t.src = t.dst) (hne : v.label ≠ t.src) :
    (∀ x d, p.FoundAt ⟨v.label, v.label, t.edge⟩ v x d →
      (g.stepGraph p.labels p.dir).IsDist v x d) ↔ p.ServesStart t v := by
  simp only [isDist_of_label_ne hlabels hloop hne]
  constructor
  · intro h
    exact ⟨fun hlabel => absurd hlabel hne, fun _ x d hx => (h x d hx).2⟩
  · rintro ⟨-, h⟩ x d hx
    obtain rfl := h hne x d hx
    exact ⟨isDist_zero.mp (isFirst_zero.mp hx.1), rfl⟩

theorem exists_startRows_iff (hloop : t.src = t.dst) (hdir : p.dir = .kBoth) (v : VertexRecord) :
    ∃ rows, (p.ssspSearch ⟨v.label, v.label, t.edge⟩).run v.vid = .ok rows ∧
      (p.StartRows v rows ↔ p.ServesStart t v) := by
  obtain ⟨rows, hrun, hpath, hfound⟩ := exists_run p v t.edge
  refine ⟨rows, hrun, ?_⟩
  by_cases hlabel : v.label = t.src
  · have ht : (⟨v.label, v.label, t.edge⟩ : EdgeLabel) = t := by
      obtain ⟨src, dst, edge⟩ := t
      cases hloop
      rw [hlabel]
    rw [ht] at hpath hfound
    rw [startRows_iff (fun row hrow => (hpath row hrow).2) hfound
      (fun row hrow _ => by rw [hlabels]; exact (hpath row hrow).1)
      (fun x d h => by rw [← hlabels]; exact isFirst_of_isDist h)]
    exact found_iff_servesStart hlabels hdir hlabel
  · rw [startRows_iff (fun row hrow => (hpath row hrow).2) hfound]
    · exact found_iff_servesStart_of_ne hlabels hloop hlabel
    · intro row hrow hdist
      obtain ⟨-, hlen⟩ := (isDist_of_label_ne hlabels hloop hlabel).mp hdist
      refine ⟨(hpath row hrow).1.1, ?_⟩
      rw [length_eq_zero_iff.mp hlen]
      trivial
    · intro x d hdist
      obtain ⟨rfl, rfl⟩ := (isDist_of_label_ne hlabels hloop hlabel).mp hdist
      exact isFirst_of_isDist (isDist_self x)

end

/-! ## All start rows -/

theorem eachStart_eq_ok {search : VertexRecord → Except ExecError (List (VertexRecord × Path))}
    {found : VertexRecord → List (VertexRecord × Path)} {starts : List VertexRecord}
    (h : ∀ v ∈ starts, search v = .ok (found v)) :
    eachStart search starts.zipIdx = .ok (tagged starts found) := by
  have hlist : ∀ l : List (VertexRecord × Nat), (∀ v ∈ l, search v.1 = .ok (found v.1)) →
      eachStart search l = .ok (l.flatMap fun v => (found v.1).map (Prod.mk v.2)) := by
    intro l hl
    induction l with
    | nil => rfl
    | cons v l ih =>
      obtain ⟨v, i⟩ := v
      rw [eachStart, hl (v, i) mem_cons_self, ih fun w hw => hl w (mem_cons_of_mem _ hw)]
      rfl
  refine hlist _ fun v hv => h v.1 ?_
  exact mem_of_getElem? (mem_zipIdx_iff_getElem?.mp hv)

structure ShortestRows (p : ShortestPathParams g) (col : VertexColumn Nat)
    (rows : List (Nat × VertexRecord × Path)) : Prop where
  minimal : ∀ row ∈ rows, ∃ v, col.starts[row.1]? = some v ∧
    g.IsPathFrom p.labels p.dir v row.2.2 ∧ row.2.2.endNode = row.2.1 ∧
    (g.stepGraph p.labels p.dir).IsDist v row.2.1 row.2.2.length
  dests : ExactlyOnce (rows.map fun row => (row.1, row.2.1)) fun row =>
    ∃ v, col.starts[row.1]? = some v ∧ p.toPathExpandParams.InRange v row.2 ∧ p.pred row.2 = true

theorem shortestRows_tagged_iff {found : VertexRecord → List (VertexRecord × Path)} :
    p.ShortestRows col (tagged col.starts found) ↔ ∀ v ∈ col.starts, p.StartRows v (found v) := by
  have hmap : (tagged col.starts found).map (fun row => (row.1, row.2.1)) =
      tagged col.starts fun v => (found v).map (·.1) := map_tagged Prod.fst _ _
  constructor
  · rintro ⟨hminimal, hdests⟩ v hv
    rw [hmap] at hdests
    have hexact := (exactlyOnce_tagged_iff
      (P := fun v x => p.toPathExpandParams.InRange v x ∧ p.pred x = true)).mp hdests v hv
    obtain ⟨i, hi⟩ := mem_iff_getElem?.mp hv
    refine ⟨fun row hrow => ?_, hexact⟩
    obtain ⟨v', hv', hrow'⟩ := hminimal (i, row) (mem_tagged.mpr ⟨v, hi, hrow⟩)
    obtain rfl : v = v' := Option.some.inj (hi.symm.trans hv')
    exact hrow'
  · intro h
    refine ⟨?_, ?_⟩
    · rintro ⟨i, row⟩ hrow
      obtain ⟨v, hv, hrow⟩ := mem_tagged.mp hrow
      exact ⟨v, hv, (h v (mem_of_getElem? hv)).minimal row hrow⟩
    · rw [hmap]
      exact exactlyOnce_tagged_iff.mpr fun v hv => (h v hv).dests

def ServesColumn (p : ShortestPathParams g) (col : VertexColumn Nat) : Prop :=
  match p.fastPath col with
  | some (t, label) => ⟨label, label, t.edge⟩ ∈ g.triplets ∧ ∀ v ∈ col.starts, p.ServesStart t v
  | none => col.starts = [] ∨ p.hopUpper = 0

theorem fastPath_eq_some (h : p.fastPath col = some (t, label)) :
    p.labels = [t] ∧ col.labelsSet = [label] ∧ t.src = t.dst ∧ p.dir = .kBoth := by
  unfold fastPath at h
  split at h
  next u l hlabels hset =>
    split at h
    next hcond =>
      cases h
      exact ⟨hlabels, hset, hcond⟩
    next => cases h
  next => cases h

theorem exists_impl_iff {col : StartColumn} (h : p.fastPath col.col = some (t, label)) :
    (∃ rows, p.singleSourceShortestPathImpl label t.edge col.col.starts = .ok rows ∧
        p.ShortestRows col.col rows) ↔
      ⟨label, label, t.edge⟩ ∈ g.triplets ∧ ∀ v ∈ col.col.starts, p.ServesStart t v := by
  obtain ⟨hlabels, hset, hloop, hdir⟩ := fastPath_eq_some h
  have hlabel : ∀ v ∈ col.col.starts, v.label = label := fun v hv => by
    simpa [hset] using col.label_mem v hv
  choose found hrun hrows using exists_startRows_iff hlabels hloop hdir
  unfold singleSourceShortestPathImpl
  by_cases htable : ⟨label, label, t.edge⟩ ∈ g.triplets
  swap
  · simp [htable]
  have hok : eachStart (fun v => (p.ssspSearch ⟨label, label, t.edge⟩).run v.vid)
      col.col.starts.zipIdx = .ok (tagged col.col.starts found) := by
    refine eachStart_eq_ok fun v hv => ?_
    have := hrun v
    rwa [hlabel v hv] at this
  rw [if_pos htable, hok]
  simp only [Except.ok.injEq, exists_eq_left', shortestRows_tagged_iff, hrows, htable, true_and]

theorem exists_default_iff :
    (∃ rows, eachStart p.defaultSearch col.starts.zipIdx = .ok rows ∧ p.ShortestRows col rows) ↔
      col.starts = [] ∨ p.hopUpper = 0 := by
  constructor
  · rintro ⟨rows, hrows, -⟩
    by_contra hne
    push Not at hne
    obtain ⟨v, starts, heq⟩ := exists_cons_of_ne_nil hne.1
    rw [heq, zipIdx_cons, eachStart, defaultSearch, if_pos (by omega)] at hrows
    cases hrows
  · intro h
    have hupper : ∀ v ∈ col.starts, ¬0 < p.hopUpper := fun v hv => by
      have := h.resolve_left (ne_nil_of_mem hv)
      omega
    refine ⟨tagged col.starts fun _ => [], eachStart_eq_ok fun v hv => if_neg (hupper v hv),
      shortestRows_tagged_iff.mpr fun v hv => ⟨by simp, nodup_nil, fun x => ?_⟩⟩
    simp only [map_nil, not_mem_nil, false_iff, not_and]
    rintro ⟨d, -, -, hlt⟩
    exact absurd (Nat.zero_lt_of_lt hlt) (hupper v hv)

theorem shortestRows_iff_servesColumn (p : ShortestPathParams g) (col : StartColumn) :
    (∃ rows, p.singleSourceShortestPath col.col = .ok rows ∧ p.ShortestRows col.col rows) ↔
      p.ServesColumn col.col := by
  unfold singleSourceShortestPath ServesColumn
  cases hfast : p.fastPath col.col with
  | none => exact exists_default_iff
  | some fast => exact exists_impl_iff hfast

end ShortestPathParams

def backAndForth : ShortestPathParams oneEdge :=
  { oneEdgeParams .kBoth 1 3 with pred := fun _ => true }

/-- Asked for vertices at distance one or two, the search also returns the start vertex, at
distance two. -/
theorem not_shortestRows_backAndForth :
    ¬ ∃ rows, backAndForth.singleSourceShortestPath (.single 0 [0]) = .ok rows ∧
      backAndForth.ShortestRows (.single 0 [0]) rows := by
  rintro ⟨rows, hrows, hshortest⟩
  have hrun : backAndForth.singleSourceShortestPath (.single 0 [0]) =
      .ok [(0, ⟨0, 1⟩, ⟨⟨0, 0⟩, [⟨0, .kOut, 0, ⟨0, 1⟩⟩]⟩),
        (0, ⟨0, 0⟩, ⟨⟨0, 0⟩, [⟨0, .kOut, 0, ⟨0, 1⟩⟩, ⟨0, .kIn, 0, ⟨0, 0⟩⟩]⟩)] := by decide
  cases hrows
  obtain ⟨v, hv, -, -, hdist⟩ := hshortest.minimal _ (mem_cons_of_mem _ mem_cons_self)
  obtain rfl : (⟨0, 0⟩ : VertexRecord) = v := Option.some.inj hv
  exact absurd (hdist.unique (isDist_self _)) (by decide)

end Neug.Execution
