import Neug.Execution.Intersect
import Neug.Library.Fallible
import Mathlib.Data.Finset.Card

/-! # How often a common neighbour is returned

A common neighbour is to be returned once for each combination of one matching edge per side.
All implementations but one do so; the one for a single triplet on each side keeps a set of
ids of the first side and forgets how many edges lead to each.
-/

namespace Neug.Execution

open Library Function ReadGraph List
open Storage (EdgeLabel)

section ForEachRow

variable {β : Type*} {rowNum : Nat} {f : Nat → List β}

theorem filter_forEachRow (p : β → Bool) (i : Nat) :
    ((forEachRow rowNum f).filter fun row => row.1 = i && p row.2) =
      if i < rowNum then ((f i).filter p).map (Prod.mk i) else [] := by
  induction rowNum with
  | zero => rfl
  | succ n ih =>
    rw [forEachRow, range_succ, flatMap_append, filter_append, ← forEachRow, ih]
    rcases Nat.lt_trichotomy i n with hlt | rfl | hgt
    · have hne : n ≠ i := by omega
      rw [if_pos hlt, if_pos (by omega)]
      simp [filter_map, comp_def, hne]
    · simp [filter_map, comp_def]
    · have hne : n ≠ i := by omega
      rw [if_neg (by omega), if_neg (by omega)]
      simp [filter_map, comp_def, hne]

theorem count_forEachRow [DecidableEq β] (i : Nat) (x : β) :
    (forEachRow rowNum f).count (i, x) = if i < rowNum then (f i).count x else 0 := by
  have h := congrArg List.length (@filter_forEachRow β rowNum f (· == x) i)
  rw [List.count, countP_eq_length_filter]
  convert h using 2
  · refine filter_congr fun row _ => ?_
    rw [Bool.eq_iff_iff]
    simp [Prod.ext_iff]
  · split_ifs
    · rw [length_map, List.count, countP_eq_length_filter]
    · rfl

end ForEachRow

namespace ExpandSide

variable {g : ReadGraph}

/-! ## Combinations of edges -/

/-- The edge is one along which the vertex of row `i` is expanded to `x`. -/
def IsMatch (side : ExpandSide g) (i : Nat) (x : VertexRecord) (value : EdgeValue) : Prop :=
  ∃ s, g.IsStep side.labels side.dir (side.getVertex i) s ∧
    side.pred (side.getVertex i) s = true ∧ s.node = x ∧ side.edgeValue i s = value

def IsCombination (sides : List (ExpandSide g)) (i : Nat) (x : VertexRecord)
    (values : List EdgeValue) : Prop :=
  Forall₂ (fun value side => side.IsMatch i x value) values sides

def matchesTo (side : ExpandSide g) (i : Nat) (x : VertexRecord) : List EdgeValue :=
  ((side.matching i).filter (·.node = x)).map (side.edgeValue i)

def combinations (sides : List (ExpandSide g)) (i : Nat) (x : VertexRecord) :
    List (List EdgeValue) :=
  (sides.map fun side => side.matchesTo i x).sections

variable {side : ExpandSide g} {sides : List (ExpandSide g)} {i : Nat} {x : VertexRecord}

theorem edgeValue_injective : Injective (side.edgeValue i) := by
  rintro ⟨el, dir, data, ⟨nl, nv⟩⟩ ⟨el', dir', data', ⟨nl', nv'⟩⟩ heq
  simp only [edgeValue, Prod.mk.injEq] at heq
  obtain ⟨hedge, rfl⟩ := heq
  cases dir with
  | kIn | kOut | kBoth => simp_all [PathStep.edge]

theorem mem_matchesTo {value : EdgeValue} : value ∈ side.matchesTo i x ↔
    side.IsMatch i x value := by
  simp only [matchesTo, matching, mem_map, mem_filter, decide_eq_true_eq, IsMatch,
    mem_stepsFrom, and_assoc]

theorem nodup_matchesTo : (side.matchesTo i x).Nodup :=
  (((nodup_stepsFrom side.nodup_labels).filter _).filter _).map edgeValue_injective

theorem exactlyOnce_combinations :
    ExactlyOnce (combinations sides i x) (IsCombination sides i x) := by
  refine ⟨nodup_sections ?_, fun values => ?_⟩
  · intro l hl
    obtain ⟨side, -, rfl⟩ := mem_map.mp hl
    exact nodup_matchesTo
  · rw [combinations, mem_sections, forall₂_map_right_iff, IsCombination]
    simp only [mem_matchesTo]

theorem count_neighborsAt : (side.neighborsAt i).count x = (side.matchesTo i x).length := by
  rw [neighborsAt, matchesTo, length_map, List.count, countP_map, countP_eq_length_filter]
  rfl

theorem length_combinations : (combinations sides i x).length =
      (sides.map fun side => (side.neighborsAt i).count x).prod := by
  simp only [combinations, length_sections, map_map, count_neighborsAt]
  rfl

/-! ## What is to be returned -/

/-- Each common neighbour is returned once for each combination. -/
def CountsCombinations (rowNum : Nat) (sides : List (ExpandSide g))
    (rows : List (Nat × VertexRecord)) : Prop :=
  ∀ i x, ∃ all, ExactlyOnce all (fun values => i < rowNum ∧ IsCombination sides i x values) ∧
    rows.count (i, x) = all.length

/-- Each combination is returned once, with the edges that have an alias. -/
def ReturnsCombinations (rowNum : Nat) (sides : List (ExpandSide g))
    (rows : List (Nat × VertexRecord × List (Option EdgeValue))) : Prop :=
  ∀ i x, ∃ all, ExactlyOnce all (fun values => i < rowNum ∧ IsCombination sides i x values) ∧
    ((rows.filter fun row => row.1 = i && row.2.1 = x).map (·.2.2)).Perm
      (all.map (returned sides))

variable {rowNum : Nat}

theorem exactlyOnce_combinations_of_row :
    ExactlyOnce (if i < rowNum then combinations sides i x else [])
      (fun values => i < rowNum ∧ IsCombination sides i x values) := by
  split_ifs with hi
  · exact exactlyOnce_combinations.congr fun _ => (and_iff_right hi).symm
  · exact ⟨nodup_nil, fun _ => by simp [hi]⟩

theorem countsCombinations_iff {rows : List (Nat × VertexRecord)} :
    CountsCombinations rowNum sides rows ↔ ∀ i x, rows.count (i, x) = if i < rowNum then
        (sides.map fun side => (side.neighborsAt i).count x).prod else 0 := by
  refine forall₂_congr fun i x => ?_
  have hlength : (if i < rowNum then combinations sides i x else []).length =
      if i < rowNum then (sides.map fun side => (side.neighborsAt i).count x).prod else 0 := by
    split_ifs
    · exact length_combinations
    · rfl
  rw [← hlength]
  constructor
  · rintro ⟨all, hall, hcount⟩
    rw [hcount]
    exact (hall.perm_of exactlyOnce_combinations_of_row).length_eq
  · intro hcount
    exact ⟨_, exactlyOnce_combinations_of_row, hcount⟩

/-- Rows made one input row after the other count the combinations if those of each do. -/
theorem countsCombinations_forEachRow {f : Nat → List VertexRecord} :
    CountsCombinations rowNum sides (forEachRow rowNum f) ↔ ∀ i < rowNum, ∀ x,
      (f i).count x = (sides.map fun side => (side.neighborsAt i).count x).prod := by
  rw [countsCombinations_iff]
  simp only [count_forEachRow]
  constructor
  · intro h i hi x
    simpa [hi] using h i x
  · intro h i x
    split_ifs with hi
    · exact h i hi x
    · rfl

theorem returnsCombinations_forEachRow {f : Nat → List (VertexRecord × List (Option EdgeValue))}
    (h : ∀ i x, (((f i).filter (·.1 = x)).map (·.2)).Perm
      ((combinations sides i x).map (returned sides))) :
    ReturnsCombinations rowNum sides (forEachRow rowNum f) := by
  intro i x
  refine ⟨_, exactlyOnce_combinations_of_row, ?_⟩
  rw [filter_forEachRow fun row : VertexRecord × List (Option EdgeValue) => decide (row.1 = x)]
  split_ifs
  · rw [map_map]
    exact h i x
  · exact Perm.refl _

/-! ## Counting maps -/

variable {first second : ExpandSide g} {others : List (ExpandSide g)}

theorem valueAt_countUp_neighborsAt :
    valueAt 0 (countUp (fun _ => some 1) (first.neighborsAt i)) x =
      (first.neighborsAt i).count x := by
  rw [valueAt_countUp]
  simp

theorem count_intersectCounted : (first.intersectCounted second i).count x =
      (first.neighborsAt i).count x * (second.neighborsAt i).count x := by
  have hrow : first.intersectCounted second i = (second.neighborsAt i).flatMap fun rcd =>
      replicate ((first.neighborsAt i).count rcd) rcd := by
    refine flatMap_congr fun rcd _ => ?_
    rw [← valueAt_countUp_neighborsAt, valueAt]
    cases (countUp (fun _ => some 1) (first.neighborsAt i)).lookup rcd <;> rfl
  rw [hrow]
  induction second.neighborsAt i with
  | nil => simp
  | cons rcd l ih =>
    rw [flatMap_cons, count_append, ih, count_replicate, count_cons]
    by_cases h : rcd = x
    · subst h
      simp [Nat.mul_add, Nat.add_comm]
    · simp [h]

theorem valueAt_narrow (vertexSet : AList fun _ : VertexRecord => Nat) :
    valueAt 0 (narrow i vertexSet others) x =
      valueAt 0 vertexSet x * (others.map fun side => (side.neighborsAt i).count x).prod := by
  induction others generalizing vertexSet with
  | nil => simp [narrow]
  | cons side others ih =>
    have hstep : valueAt 0 (countUp (fun rcd => vertexSet.lookup rcd) (side.neighborsAt i)) x =
        (side.neighborsAt i).count x * valueAt 0 vertexSet x := valueAt_countUp _ _ _
    rw [narrow, map_cons, prod_cons, ← Nat.mul_assoc, Nat.mul_comm (valueAt 0 vertexSet x), ← hstep]
    split_ifs with hempty
    · rw [valueAt_of_isEmpty hempty, Nat.zero_mul]
    · exact ih _

theorem count_multipleIntersect (first : ExpandSide g) (others : List (ExpandSide g)) :
    CountsCombinations rowNum (first :: others) (first.multipleIntersect others rowNum) := by
  refine countsCombinations_forEachRow.mpr fun i _ x => ?_
  rw [count_writeOut, valueAt_narrow, valueAt_countUp_neighborsAt]
  rfl

theorem count_binaryIntersectML (first second : ExpandSide g) :
    CountsCombinations rowNum [first, second] (first.binaryIntersectML second rowNum) := by
  refine countsCombinations_forEachRow.mpr fun i _ x => ?_
  rw [count_intersectCounted]
  simp

/-! ## Maps of combinations -/

/-- The combinations gathered so far, with each edge of one more side. -/
def extend (acc : List (List EdgeValue)) (values : List EdgeValue) : List (List EdgeValue) :=
  values.flatMap fun value => acc.map (· ++ [value])

theorem foldl_extend_nil (L : List (List EdgeValue)) : L.foldl extend [] = [] := by
  induction L with
  | nil => rfl
  | cons l L ih =>
    rw [foldl_cons, show extend [] l = [] from flatMap_eq_nil_iff.mpr fun _ _ => rfl]
    exact ih

theorem valueAt_firstMatches :
    valueAt [] (first.firstMatches i) x = extend [[]] (first.matchesTo i x) := by
  rw [firstMatches, valueAt_foldl_append (·.node) (fun s => [[first.edgeValue i s]])
    fun _ _ _ => valueAt_amend]
  simp [extend, matchesTo, flatMap_map]

theorem valueAt_addEdgeMatches (previous : EdgeCombinations) :
    valueAt [] (side.addEdgeMatches i previous) x =
      extend (valueAt [] previous x) (side.matchesTo i x) := by
  rw [addEdgeMatches, valueAt_foldl_append (·.node)
    (fun s => (valueAt [] previous s.node).map (· ++ [side.edgeValue i s]))]
  · rw [valueAt_empty, nil_append, extend, matchesTo, flatMap_map]
    refine flatMap_congr fun s hs => ?_
    rw [show s.node = x by simpa using (mem_filter.mp hs).2]
  · intro m s k
    unfold valueAt
    cases hlookup : previous.lookup s.node with
    | none => simp
    | some values => exact valueAt_amend

theorem valueAt_narrowWithEdge (vertexSet : EdgeCombinations) :
    valueAt [] (narrowWithEdge i vertexSet others) x =
      (others.map fun side => side.matchesTo i x).foldl extend (valueAt [] vertexSet x) := by
  induction others generalizing vertexSet with
  | nil => rfl
  | cons side others ih =>
    rw [narrowWithEdge, map_cons, foldl_cons, ← valueAt_addEdgeMatches]
    split_ifs with hempty
    · rw [valueAt_of_isEmpty hempty, foldl_extend_nil]
    · exact ih _

/-- The map left at the end holds the combinations. -/
theorem valueAt_narrowWithEdge_perm :
    (valueAt [] (narrowWithEdge i (first.firstMatches i) others) x).Perm
      (combinations (first :: others) i x) := by
  rw [valueAt_narrowWithEdge, valueAt_firstMatches]
  have h := foldl_extend_perm_sections ((first :: others).map fun side => side.matchesTo i x) [[]]
  rw [flatMap_singleton] at h
  simp only [nil_append, map_id_fun', id] at h
  exact h

theorem returns_multipleIntersectWithEdge (first : ExpandSide g) (others : List (ExpandSide g)) :
    ReturnsCombinations rowNum (first :: others)
      (first.multipleIntersectWithEdge others rowNum) := by
  refine returnsCombinations_forEachRow fun i x => ?_
  have hrows := filter_flatMap_entries (narrowWithEdge i (first.firstMatches i) others)
    (fun k values => values.map fun v => (k, returned (first :: others) v))
    (fun row => decide (row.1 = x)) x fun k values row hrow => by
      obtain ⟨v, -, rfl⟩ := mem_map.mp hrow
      exact decide_eq_true_iff
  beta_reduce at hrows
  rw [hrows]
  refine Perm.trans (Perm.of_eq ?_) (valueAt_narrowWithEdge_perm.map _)
  unfold valueAt
  cases (narrowWithEdge i (first.firstMatches i) others).lookup x with
  | none => rfl
  | some values => simp [comp_def]

/-- Looking the positions of the chosen elements up in the list gives the elements. -/
theorem flatMap_positions {α β : Type*} (l : List α) (p : α → Bool) (f : α → β) :
    (((l.zipIdx.filter fun a => p a.1).map (·.2)).flatMap fun n => (l.map f)[n]?.toList) =
      (l.filter p).map f := by
  have hfst : l.filter p = (l.zipIdx.filter fun a => p a.1).map (·.1) := by
    conv_lhs => rw [← zipIdx_map_fst 0 l]
    rw [filter_map]
    rfl
  rw [hfst, map_map, flatMap_map]
  conv_rhs => rw [map_eq_flatMap]
  refine flatMap_congr ?_
  rintro ⟨a, n⟩ ha
  have hn := mem_zipIdx_iff_getElem?.mp (mem_of_mem_filter ha)
  simp [hn]

theorem valueAt_edgePositions : valueAt [] (first.edgePositions i) x =
      ((first.matching i).zipIdx.filter fun s => s.1.node = x).map (·.2) := by
  rw [edgePositions, valueAt_foldl_append (fun s => s.1.node) (fun s => [s.2])
    fun _ _ _ => valueAt_amend]
  simp [map_eq_flatMap]

theorem rowsOfEdge_eq (s : PathStep) :
    first.rowsOfEdge second i s = (first.matchesTo i s.node).map fun edge =>
      (s.node, returned [first, second] [edge, second.edgeValue i s]) := by
  have h := flatMap_positions (first.matching i) (fun t => t.node = s.node) (first.edgeValue i)
  rw [← valueAt_edgePositions] at h
  rw [matchesTo, ← h, map_flatMap, valueAt, rowsOfEdge]
  cases (first.edgePositions i).lookup s.node <;> rfl

theorem filter_flatMap_rowsOfEdge (l : List PathStep) :
    (l.flatMap (first.rowsOfEdge second i)).filter (·.1 = x) =
      (l.filter (·.node = x)).flatMap fun s => (first.matchesTo i x).map fun edge =>
        (x, returned [first, second] [edge, second.edgeValue i s]) := by
  induction l with
  | nil => rfl
  | cons s l ih =>
    rw [flatMap_cons, filter_append, ih, rowsOfEdge_eq]
    by_cases h : s.node = x
    · subst h
      simp [filter_map, comp_def]
    · simp [filter_map, comp_def, h]

theorem returns_binaryIntersectWithEdge (first second : ExpandSide g) :
    ReturnsCombinations rowNum [first, second] (first.binaryIntersectWithEdge second rowNum) := by
  refine returnsCombinations_forEachRow fun i x => Perm.of_eq ?_
  rw [filter_flatMap_rowsOfEdge]
  have hsecond : second.matchesTo i x =
      ((second.matching i).filter (·.node = x)).map (second.edgeValue i) := rfl
  simp [combinations, sections, map_flatMap, flatMap_map, comp_def, hsecond]

/-! ## One triplet on each side -/

/-- The entries that are read for row `i`, if the edge tables exist. -/
def entries (side : ExpandSide g) (t : EdgeLabel) (label i : Nat) : List Nat :=
  side.acceptedIds t label i .kOut (if side.dir = .kOut ∨ side.dir = .kBoth then
      g.outgoing ⟨(side.getVertex i).label, t.dst, t.edge⟩ (side.getVertex i).vid else []) ++
    side.acceptedIds t label i .kIn (if side.dir = .kIn ∨ side.dir = .kBoth then
      g.incoming ⟨t.src, (side.getVertex i).label, t.edge⟩ (side.getVertex i).vid else [])

def Readable (side : ExpandSide g) (t : EdgeLabel) (i : Nat) : Prop :=
  (side.dir = .kOut ∨ side.dir = .kBoth → ⟨(side.getVertex i).label, t.dst, t.edge⟩ ∈ g.triplets) ∧
    (side.dir = .kIn ∨ side.dir = .kBoth → ⟨t.src, (side.getVertex i).label, t.edge⟩ ∈ g.triplets)

/-- The vertex of row `i` has the label at which the triplet starts, or ends, or both. -/
def Fits (side : ExpandSide g) (t : EdgeLabel) (i : Nat) : Prop :=
  (side.dir = .kOut ∨ side.dir = .kBoth → (side.getVertex i).label = t.src) ∧
    (side.dir = .kIn ∨ side.dir = .kBoth → (side.getVertex i).label = t.dst)

variable {t t0 t1 : EdgeLabel} {label : Nat}

theorem readIds_eq_ok_iff {ids : List Nat} : side.readIds t label i = .ok ids ↔
    side.Readable t i ∧ ids = side.entries t label i := by
  unfold readIds readOutgoing readIncoming genericOutgoing genericIncoming Readable entries
  split_ifs with hout hmem hin hmem' hin
  all_goals simp_all [bind, Except.bind, pure, Except.pure, eq_comm]

/-- One row of the single-triplet implementation, if the edge tables exist. -/
def sharedIds (first second : ExpandSide g) (t0 t1 : EdgeLabel) (i : Nat) : List VertexRecord :=
  ((second.entries t1 (first.nbrLabel t0) i).filter
    (· ∈ first.entries t0 (first.nbrLabel t0) i)).map (VertexRecord.mk (first.nbrLabel t0))

theorem mem_foldl_insert {l set : List Nat} {vid : Nat} :
    vid ∈ l.foldl (fun set vid => set.insert vid) set ↔ vid ∈ l ∨ vid ∈ set := by
  induction l generalizing set with
  | nil => simp
  | cons a l ih =>
    rw [foldl_cons, ih, mem_insert_iff, mem_cons]
    tauto

theorem intersectIds_eq_ok_iff {row : List VertexRecord} :
    first.intersectIds second t0 t1 i = .ok row ↔ (first.Readable t0 i ∧ second.Readable t1 i) ∧
      row = first.sharedIds second t0 t1 i := by
  simp only [intersectIds, bind_eq_ok, readIds_eq_ok_iff]
  constructor
  · rintro ⟨ids0, ⟨h0, rfl⟩, ids1, ⟨h1, rfl⟩, hrow⟩
    cases hrow
    simp [h0, h1, sharedIds, mem_foldl_insert]
  · rintro ⟨⟨h0, h1⟩, rfl⟩
    refine ⟨_, ⟨h0, rfl⟩, _, ⟨h1, rfl⟩, ?_⟩
    simp [sharedIds, mem_foldl_insert, pure, Except.pure]

theorem binaryIntersectSL_eq_ok_iff {rows : List (Nat × VertexRecord)} :
    first.binaryIntersectSL second t0 t1 rowNum = .ok rows ↔
      (∀ i < rowNum, first.Readable t0 i ∧ second.Readable t1 i) ∧
        rows = forEachRow rowNum (first.sharedIds second t0 t1) := by
  induction rowNum generalizing rows with
  | zero => simp [binaryIntersectSL, forEachRow, eq_comm]
  | succ n ih =>
    simp only [binaryIntersectSL, bind_eq_ok, ih, intersectIds_eq_ok_iff, Nat.forall_lt_succ_right]
    constructor
    · rintro ⟨_, ⟨h, rfl⟩, _, ⟨hn, rfl⟩, hrows⟩
      cases hrows
      exact ⟨⟨h, hn⟩, by simp [forEachRow, range_succ]⟩
    · rintro ⟨⟨h, hn⟩, rfl⟩
      refine ⟨_, ⟨h, rfl⟩, _, ⟨hn, rfl⟩, ?_⟩
      simp [forEachRow, range_succ, pure, Except.pure]

/-- Every row has vertices of the labels of the triplets, and the neighbours on both sides
have the same label. -/
def Conforms (first second : ExpandSide g) (t0 t1 : EdgeLabel) (i : Nat) : Prop :=
  first.Fits t0 i ∧ second.Fits t1 i ∧ second.nbrLabel t1 = first.nbrLabel t0

theorem Fits.readable (h : side.Fits t i) (hlabels : side.labels = [t]) : side.Readable t i := by
  have ht : t ∈ g.triplets := side.labels_valid t (by simp [hlabels])
  refine ⟨fun hdir => ?_, fun hdir => ?_⟩
  · rw [h.1 hdir]
    exact ht
  · rw [h.2 hdir]
    exact ht

theorem Fits.neighborsAt (h : side.Fits t i) (hlabels : side.labels = [t]) :
    side.neighborsAt i =
      (side.entries t (side.nbrLabel t) i).map (VertexRecord.mk (side.nbrLabel t)) := by
  obtain ⟨hout, hin⟩ := h
  obtain ⟨src, dst, edge⟩ := t
  unfold ExpandSide.neighborsAt matching entries nbrLabel acceptedIds
  rw [hlabels]
  cases hdir : side.dir with
  | kOut =>
    have hsrc := hout (.inl hdir)
    simp [stepsFrom, outSteps, outLabelsMap, hsrc, filter_map, comp_def]
  | kIn =>
    have hdst := hin (.inl hdir)
    simp [stepsFrom, inSteps, inLabelsMap, hdst, filter_map, comp_def]
  | kBoth =>
    have hsrc := hout (.inr hdir)
    have hdst := hin (.inr hdir)
    obtain rfl : dst = src := hdst.symm.trans hsrc
    simp [stepsFrom, inSteps, inLabelsMap, outSteps,
      outLabelsMap, hsrc, filter_map, filter_append, comp_def]

theorem count_sharedIds : (first.sharedIds second t0 t1 i).count x =
      if x.label = first.nbrLabel t0 ∧ x.vid ∈ first.entries t0 (first.nbrLabel t0) i then
        (second.entries t1 (first.nbrLabel t0) i).count x.vid else 0 := by
  obtain ⟨label, vid⟩ := x
  unfold sharedIds
  split_ifs with h
  · obtain ⟨rfl, hvid⟩ := h
    rw [count_map_of_injective _ _ fun a b hab => (VertexRecord.mk.inj hab).2]
    exact count_filter (by simpa using hvid)
  · refine count_eq_zero.mpr fun hmem => h ?_
    obtain ⟨vid', hvid', heq⟩ := mem_map.mp hmem
    cases heq
    exact ⟨rfl, by simpa using (mem_filter.mp hvid').2⟩

/-- On a conforming row the ids read are the neighbours. -/
theorem Conforms.count_sharedIds (h : first.Conforms second t0 t1 i) (h0 : first.labels = [t0])
    (h1 : second.labels = [t1]) : (first.sharedIds second t0 t1 i).count x =
      if x ∈ first.neighborsAt i then (second.neighborsAt i).count x else 0 := by
  obtain ⟨hfirst, hsecond, hlabel⟩ := h
  rw [ExpandSide.count_sharedIds, hfirst.neighborsAt h0, hsecond.neighborsAt h1, hlabel]
  obtain ⟨label, vid⟩ := x
  by_cases heq : label = first.nbrLabel t0
  · subst heq
    rw [count_map_of_injective _ _ fun a b hab => (VertexRecord.mk.inj hab).2]
    simp
  · have hne : ¬ first.nbrLabel t0 = label := fun h => heq h.symm
    simp [heq, hne]

/-- No two matching edges of the first side lead to one common neighbour. -/
def NoParallelEdges (first second : ExpandSide g) (i : Nat) : Prop :=
  ∀ s ∈ first.matching i, ∀ s' ∈ first.matching i,
    s.node = s'.node → s.node ∈ second.neighborsAt i → s = s'

theorem length_le_one_iff {α : Type*} {l : List α} (hnodup : l.Nodup) :
    l.length ≤ 1 ↔ ∀ a ∈ l, ∀ b ∈ l, a = b := by
  classical
  have hcard := @Finset.card_le_one _ l.toFinset
  simpa only [toFinset_card_of_nodup hnodup, mem_toFinset] using hcard

theorem noParallelEdges_iff : first.NoParallelEdges second i ↔
      ∀ x ∈ second.neighborsAt i, (first.neighborsAt i).count x ≤ 1 := by
  have hcount : ∀ x, (first.neighborsAt i).count x ≤ 1 ↔
      ∀ s ∈ first.matching i, ∀ s' ∈ first.matching i, s.node = x → s'.node = x → s = s' := by
    intro x
    have hnodup : ((first.matching i).filter (·.node = x)).Nodup :=
      ((nodup_stepsFrom first.nodup_labels).filter _).filter _
    rw [count_neighborsAt, matchesTo, length_map, length_le_one_iff hnodup]
    simp only [mem_filter, decide_eq_true_eq]
    constructor
    · intro h s hs s' hs' heq heq'
      exact h s ⟨hs, heq⟩ s' ⟨hs', heq'⟩
    · intro h s hs s' hs'
      exact h s hs.1 s' hs'.1 hs.2 hs'.2
  simp only [hcount]
  constructor
  · intro h x hx s hs s' hs' heq heq'
    exact h s hs s' hs' (heq.trans heq'.symm) (heq ▸ hx)
  · intro h s hs s' hs' heq hmem
    exact h s.node hmem s hs s' hs' rfl heq.symm

/-- Keeping only whether a neighbour is there gives the product exactly without parallel
edges. -/
theorem product_iff_noParallelEdges :
    (∀ x, (if x ∈ first.neighborsAt i then (second.neighborsAt i).count x else 0) =
        (first.neighborsAt i).count x * (second.neighborsAt i).count x) ↔
      first.NoParallelEdges second i := by
  rw [noParallelEdges_iff]
  refine forall_congr' fun x => ?_
  by_cases h0 : x ∈ first.neighborsAt i
  swap
  · rw [if_neg h0, count_eq_zero.mpr h0]
    simp
  rw [if_pos h0]
  have hpos : 0 < (first.neighborsAt i).count x := count_pos_iff.mpr h0
  by_cases h1 : x ∈ second.neighborsAt i
  swap
  · rw [count_eq_zero.mpr h1]
    simp [h1]
  have hpos' : 0 < (second.neighborsAt i).count x := count_pos_iff.mpr h1
  constructor
  · intro h _
    have hone : (first.neighborsAt i).count x = 1 :=
      Nat.eq_of_mul_eq_mul_right hpos' (h.symm.trans (Nat.one_mul _).symm)
    exact Nat.le_of_eq hone
  · intro h
    have hone : (first.neighborsAt i).count x = 1 := by
      have := h h1
      omega
    rw [hone, Nat.one_mul]

/-- On a row whose labels do not conform, edge tables other than the triplets' are read.  They
have to exist, and what is read has to amount to the right number of rows by chance. -/
def MisreadAgrees (first second : ExpandSide g) (t0 t1 : EdgeLabel) (i : Nat) : Prop :=
  first.Readable t0 i ∧ second.Readable t1 i ∧ ∀ x : VertexRecord,
    (if x.label = first.nbrLabel t0 ∧ x.vid ∈ first.entries t0 (first.nbrLabel t0) i then
        (second.entries t1 (first.nbrLabel t0) i).count x.vid
      else 0) = (combinations [first, second] i x).length

/-- The rows that the single-triplet implementation serves. -/
def ServesRow (first second : ExpandSide g) (t0 t1 : EdgeLabel) (i : Nat) : Prop :=
  (first.Conforms second t0 t1 i → first.NoParallelEdges second i) ∧
    (¬ first.Conforms second t0 t1 i → first.MisreadAgrees second t0 t1 i)

theorem servesRow_iff (h0 : first.labels = [t0]) (h1 : second.labels = [t1]) :
    first.ServesRow second t0 t1 i ↔ (first.Readable t0 i ∧ second.Readable t1 i) ∧ ∀ x,
        (first.sharedIds second t0 t1 i).count x =
          (first.neighborsAt i).count x * (second.neighborsAt i).count x := by
  by_cases hconf : first.Conforms second t0 t1 i
  · have hread := And.intro (hconf.1.readable h0) (hconf.2.1.readable h1)
    simp only [ServesRow, hconf, hread, hconf.count_sharedIds h0 h1, product_iff_noParallelEdges,
      not_true, true_imp_iff, false_imp_iff, and_true, true_and]
  · simp only [ServesRow, hconf, MisreadAgrees, count_sharedIds, length_combinations, not_false_iff,
      true_imp_iff, false_imp_iff, true_and, and_assoc]
    simp

theorem binaryIntersectSL_iff (h0 : first.labels = [t0]) (h1 : second.labels = [t1]) :
    (∃ rows, first.binaryIntersectSL second t0 t1 rowNum = .ok rows ∧
        CountsCombinations rowNum [first, second] rows) ↔
      ∀ i < rowNum, first.ServesRow second t0 t1 i := by
  simp only [servesRow_iff h0 h1, binaryIntersectSL_eq_ok_iff, and_assoc, exists_and_left,
    exists_eq_left, countsCombinations_forEachRow, map_cons, map_nil, prod_cons, prod_nil,
    Nat.mul_one, forall_and]

/-- All implementations return each common neighbour once for each combination of edges; the
two-way ones take two sides only. -/
def Intersects (rowNum : Nat) (first second : ExpandSide g) (rest : List (ExpandSide g)) : Prop :=
  CountsCombinations rowNum (first :: second :: rest)
      (first.multipleIntersect (second :: rest) rowNum) ∧
    ReturnsCombinations rowNum (first :: second :: rest)
      (first.multipleIntersectWithEdge (second :: rest) rowNum) ∧
    (rest = [] →
      CountsCombinations rowNum [first, second] (first.binaryIntersectML second rowNum) ∧
      ReturnsCombinations rowNum [first, second] (first.binaryIntersectWithEdge second rowNum) ∧
      ∃ rows, first.binaryIntersect second rowNum = .ok rows ∧
        CountsCombinations rowNum [first, second] rows)

theorem intersects_iff_servesRow (rowNum : Nat) (first second : ExpandSide g)
    (rest : List (ExpandSide g)) : Intersects rowNum first second rest ↔
      (rest = [] → ∀ t0 t1, first.labels = [t0] → second.labels = [t1] →
        ∀ i < rowNum, first.ServesRow second t0 t1 i) := by
  constructor
  · rintro ⟨-, -, hbinary⟩ hrest t0 t1 h0 h1
    obtain ⟨-, -, rows, hrows, hcount⟩ := hbinary hrest
    rw [binaryIntersect, h0, h1] at hrows
    exact (binaryIntersectSL_iff h0 h1).mp ⟨rows, hrows, hcount⟩
  · intro h
    refine ⟨count_multipleIntersect first (second :: rest),
      returns_multipleIntersectWithEdge first (second :: rest), fun hrest => ?_⟩
    refine ⟨count_binaryIntersectML first second, returns_binaryIntersectWithEdge first second, ?_⟩
    unfold binaryIntersect
    split
    next t0 t1 h0 h1 => exact (binaryIntersectSL_iff h0 h1).mpr (h hrest t0 t1 h0 h1)
    next => exact ⟨_, rfl, count_binaryIntersectML first second⟩

/-! ## Two parallel edges -/

def parallelEdges : ReadGraph :=
  ofEdges [⟨0, 0, 0⟩]
    [⟨⟨0, 0, 0⟩, 0, 2, 0⟩, ⟨⟨0, 0, 0⟩, 0, 2, 1⟩, ⟨⟨0, 0, 0⟩, 1, 2, 2⟩] (by simp) (by simp)

def parallelSide (vid : Nat) : ExpandSide parallelEdges :=
  ⟨fun _ => ⟨0, vid⟩, [⟨0, 0, 0⟩], .kOut, fun _ _ => true, none, nodup_label_zero,
    by simp [parallelEdges, ofEdges]⟩

/-- The common neighbour of vertices 0 and 1 is returned once although there are two
combinations of edges. -/
theorem not_intersects_parallelEdges : ¬ Intersects 1 (parallelSide 0) (parallelSide 1) [] := by
  rintro ⟨-, -, hbinary⟩
  obtain ⟨-, -, rows, hrows, hcount⟩ := hbinary rfl
  have hrun : (parallelSide 0).binaryIntersect (parallelSide 1) 1 = .ok [(0, ⟨0, 2⟩)] := by decide
  cases hrows
  have hproduct := countsCombinations_iff.mp hcount 0 ⟨0, 2⟩
  revert hproduct
  decide

end ExpandSide

end Neug.Execution
