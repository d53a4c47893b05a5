import Neug.Execution.SinglePairSelf

/-! # What the single-pair operator returns

Between two different vertices the operator is right.  From a vertex to itself it never returns
the empty path, and it may return a closed walk instead, or not end at all.
-/

namespace Neug.Execution

open Library SsspSearch
open Storage (EdgeLabel)

namespace SsspSearch

variable {S : SsspSearch} {g : ReadGraph} {t : EdgeLabel} {src dst : Nat}

theorem Serves.reversible (h : S.Serves g t .kBoth) : S.graph.Reversible := by
  intro a b hb
  obtain ⟨s, hs, hnode⟩ := (h.nbrs_iff a b).mp hb
  obtain ⟨s', hs', hback⟩ := ReadGraph.exists_step_back hs
  rw [hnode] at hs'
  exact ⟨a, (h.nbrs_iff b a).mpr ⟨s', hs', hback⟩, rfl⟩

theorem Serves.isDist_iff {dir : Direction} (h : S.Serves g t dir) {a d : Nat} {x : VertexRecord} :
    (g.stepGraph [t] dir).IsDist ⟨S.vLabel, a⟩ x d ↔
      x.label = S.vLabel ∧ S.graph.IsDist a x.vid d := by
  rw [← StepGraph.isFirst_zero, h.isFirst_iff, StepGraph.isFirst_zero]

theorem length_edgeSteps {ids : List Nat} {steps : List PathStep}
    (h : S.edgeSteps ids = .ok steps) :
    steps.length = ids.length - 1 := by
  induction ids generalizing steps with
  | nil =>
    cases h
    rfl
  | cons a ids ih =>
    cases ids with
    | nil =>
      cases h
      rfl
    | cons b ids =>
      rw [edgeSteps] at h
      cases hedge : S.edgeData a b with
      | none =>
        rw [hedge] at h
        cases h
      | some edge =>
        rw [hedge] at h
        cases hrest : S.edgeSteps (b :: ids) with
        | error e =>
          rw [hrest] at h
          cases h
        | ok rest =>
          rw [hrest] at h
          cases h
          simp [ih hrest]

theorem length_pathOfIds {ids : List Nat} {q : Path} (h : S.pathOfIds ids = .ok q) :
    q.length = ids.length - 1 := by
  cases ids with
  | nil => cases h
  | cons a ids =>
    unfold pathOfIds at h
    cases hsteps : S.edgeSteps (a :: ids) with
    | error e =>
      simp only [hsteps] at h
      cases h
    | ok steps =>
      simp only [hsteps] at h
      cases h
      exact length_edgeSteps hsteps

end SsspSearch

namespace ShortestPathParams

variable {g : ReadGraph} {p : ShortestPathParams g} {label edge src dst : Nat}

/-- What the search for a path between two vertices of the triplet's label should return. -/
structure ShortestPair (p : ShortestPathParams g) (t : EdgeLabel) (src dst : Nat)
    (result : Option Path) : Prop where
  found_iff : result.isSome = true ↔
    ∃ d, (g.stepGraph [t] .kBoth).IsDist ⟨t.src, src⟩ ⟨t.src, dst⟩ d ∧ p.hopLower ≤ d ∧
      d < p.hopUpper
  path : ∀ q ∈ result, g.IsPathFrom [t] .kBoth ⟨t.src, src⟩ q ∧ q.endNode = ⟨t.src, dst⟩ ∧
    (g.stepGraph [t] .kBoth).IsDist ⟨t.src, src⟩ ⟨t.src, dst⟩ q.length

/-- The pairs that the search serves: different vertices, and a vertex and itself if the empty
path is not asked for and no closed walk is taken for an answer. -/
def ServesPair (p : ShortestPathParams g) (t : EdgeLabel) (src dst : Nat) : Prop :=
  src ≠ dst ∨ (¬ (p.hopLower = 0 ∧ 0 < p.hopUpper) ∧ (p.pairSearch t).Quiet src)

theorem pairSearch_serves (p : ShortestPathParams g) (label edge : Nat) :
    (p.pairSearch ⟨label, label, edge⟩).Serves g ⟨label, label, edge⟩ .kBoth :=
  p.ssspBothDir_serves label edge

theorem pairSearch_isDist_iff {d : Nat} :
    (g.stepGraph [⟨label, label, edge⟩] .kBoth).IsDist ⟨label, src⟩ ⟨label, dst⟩ d ↔
      (p.pairSearch ⟨label, label, edge⟩).graph.IsDist src dst d := by
  have h := (p.pairSearch_serves label edge).isDist_iff (a := src) (x := ⟨label, dst⟩) (d := d)
  exact h.trans ⟨fun h => h.2, fun h => ⟨rfl, h⟩⟩

/-- Right ids give a right path. -/
theorem exists_shortestPair {answer : Bool × List Nat}
    (h : (p.pairSearch ⟨label, label, edge⟩).PairOutcome src dst answer) :
    ∃ result, (p.pairSearch ⟨label, label, edge⟩).pairPath answer = .ok result ∧
      p.ShortestPair ⟨label, label, edge⟩ src dst result := by
  have hserves := p.pairSearch_serves label edge
  obtain ⟨found, ids⟩ := answer
  cases found with
  | false =>
    refine ⟨none, rfl, ⟨nofun, fun hex => ?_⟩, nofun⟩
    simp only [pairSearch_isDist_iff (p := p)] at hex
    exact absurd (h.found_iff.mpr hex) nofun
  | true =>
    obtain ⟨w, rfl, hwalk, hfinish, hdist⟩ := h.path rfl
    obtain ⟨steps, hsteps, hwalk', hfinish', hlen⟩ := hserves.exists_edgeSteps hwalk
    refine ⟨some ⟨⟨label, src⟩, steps⟩, ?_, ⟨fun _ => ?_, fun _ => rfl⟩, ?_⟩
    · simp only [pairPath, pathOfIds, hsteps, if_true]
      rfl
    · simp only [pairSearch_isDist_iff (p := p)]
      exact h.found_iff.mp rfl
    · rintro q ⟨⟩
      refine ⟨⟨rfl, hwalk'⟩, ?_, ?_⟩
      · rw [Path.endNode_eq_finish g [⟨label, label, edge⟩] .kBoth]
        exact hfinish'.trans (by rw [hfinish]; rfl)
      · have hlength : Path.length ⟨⟨label, src⟩, steps⟩ = w.length := hlen
        rw [hlength, pairSearch_isDist_iff (p := p)]
        exact hdist

/-- From a vertex to itself only the empty path would be right, and it is never returned. -/
theorem pairPath_self_iff (p : ShortestPathParams g) (label edge src : Nat)
    {answer : Bool × List Nat} (hids : answer.1 = true → 2 ≤ answer.2.length) :
    (∃ result, (p.pairSearch ⟨label, label, edge⟩).pairPath answer = .ok result ∧
        p.ShortestPair ⟨label, label, edge⟩ src src result) ↔
      ¬ (p.hopLower = 0 ∧ 0 < p.hopUpper) ∧ answer.1 = false := by
  have hself := (g.stepGraph [⟨label, label, edge⟩] .kBoth).isDist_self ⟨label, src⟩
  obtain ⟨found, ids⟩ := answer
  cases found with
  | false =>
    constructor
    · rintro ⟨_, ⟨⟩, hfound, -⟩
      refine ⟨fun hzero => ?_, rfl⟩
      exact absurd (hfound.mpr ⟨0, hself, hzero.1.le, hzero.2⟩) nofun
    · rintro ⟨hzero, -⟩
      refine ⟨none, rfl, ⟨nofun, ?_⟩, nofun⟩
      rintro ⟨d, hd, hlower, hupper⟩
      obtain rfl := hd.unique hself
      exact absurd ⟨Nat.le_zero.mp hlower, hupper⟩ hzero
  | true =>
    refine iff_of_false ?_ fun h => absurd h.2 nofun
    rintro ⟨result, hresult, -, hpath⟩
    have hlen := hids rfl
    rw [pairPath, if_pos rfl] at hresult
    cases hq : (p.pairSearch ⟨label, label, edge⟩).pathOfIds ids with
    | error e =>
      rw [hq] at hresult
      cases hresult
    | ok q =>
      rw [hq] at hresult
      cases hresult
      have hzero := (hpath q rfl).2.2.unique hself
      have := length_pathOfIds hq
      simp only at hlen
      omega

theorem shortestPathTo_mono {t : EdgeLabel} {n m : Nat} {result : Except ExecError (Option Path)}
    (hle : n ≤ m) (h : p.shortestPathTo t n src dst = some result) :
    p.shortestPathTo t m src dst = some result := by
  obtain ⟨answer, hanswer, rfl⟩ := Option.map_eq_some_iff.mp h
  exact Option.map_eq_some_iff.mpr ⟨answer, (pairRounds_mono hle hanswer).1, rfl⟩

theorem shortestPair_iff_servesPair (p : ShortestPathParams g) (label edge src dst : Nat) :
    (∃ result, Returns (fun fuel => p.shortestPathTo ⟨label, label, edge⟩ fuel src dst)
      (.ok result) ∧
        p.ShortestPair ⟨label, label, edge⟩ src dst result) ↔
      p.ServesPair ⟨label, label, edge⟩ src dst := by
  have hrev := (p.pairSearch_serves label edge).reversible
  by_cases hne : src ≠ dst
  · refine iff_of_true ?_ (.inl hne)
    obtain ⟨fuel, answer, hanswer, houtcome⟩ := exists_singlePair _ hrev hne
    obtain ⟨result, hresult, hpair⟩ := exists_shortestPair houtcome
    exact ⟨result, ⟨fuel, Option.map_eq_some_iff.mpr ⟨answer, hanswer, hresult⟩⟩, hpair⟩
  · obtain rfl : src = dst := not_not.mp hne
    rw [ServesPair, ← endsWithout_iff_quiet hrev src]
    constructor
    · rintro ⟨result, ⟨fuel, hfuel⟩, hpair⟩
      obtain ⟨answer, hanswer, hresult⟩ := Option.map_eq_some_iff.mp hfuel
      have hself := p.pairPath_self_iff label edge src (pairRounds_mono le_rfl hanswer).2
      obtain ⟨hzero, hfalse⟩ := hself.mp ⟨result, hresult, hpair⟩
      exact .inr ⟨hzero, fuel, answer, hanswer, hfalse⟩
    · rintro (hne | ⟨hzero, fuel, answer, hanswer, hfalse⟩)
      · exact absurd rfl hne
      · have hself := p.pairPath_self_iff label edge src (pairRounds_mono le_rfl hanswer).2
        obtain ⟨result, hresult, hpair⟩ := hself.mpr ⟨hzero, hfalse⟩
        exact ⟨result, ⟨fuel, Option.map_eq_some_iff.mpr ⟨answer, hanswer, hresult⟩⟩, hpair⟩

end ShortestPathParams

/-- From a vertex to itself, at distance zero, the search returns a path of length two. -/
theorem not_shortestPair_backAndForth :
    ¬ ∃ result, Returns (fun fuel => backAndForth.shortestPathTo ⟨0, 0, 0⟩ fuel 0 0) (.ok result) ∧
      backAndForth.ShortestPair ⟨0, 0, 0⟩ 0 0 result := by
  rintro ⟨result, hresult, hfound, -⟩
  have hrun : backAndForth.shortestPathTo ⟨0, 0, 0⟩ 4 0 0 = some (.ok (some
      ⟨⟨0, 0⟩, [⟨0, .kOut, 0, ⟨0, 1⟩⟩, ⟨0, .kIn, 0, ⟨0, 0⟩⟩]⟩)) := by decide
  have heq := Returns.unique
    (fun n m c hle h => ShortestPathParams.shortestPathTo_mono hle h) hresult ⟨4, hrun⟩
  cases heq
  obtain ⟨d, hd, hlower, -⟩ := hfound.mp rfl
  rw [hd.unique (StepGraph.isDist_self _)] at hlower
  exact absurd hlower (by decide)

end Neug.Execution
