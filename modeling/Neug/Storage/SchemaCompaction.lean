import Mathlib.Data.List.GetD
import Neug.Storage.GraphSchema

/-! # Compaction of the schema

As long as not all values of a `label_t` are used, compaction of a well-formed schema succeeds.
The labels are numbered by their positions among the valid ones, and the edge types are the same
under the ids that follow from the new numbers.
-/

namespace Neug.Storage

open Library NamedSlots List

namespace Schema

variable {V E : Type} {s s' : Schema V E}

theorem foldlM_addLabel (duplicate : String → CompactError) {ix : LabelIndexer}
    {names : List String} (hfree : ix.free = []) (hnodup : (ix.keys ++ names).Nodup)
    (hroom : ix.keys.length + names.length ≤ kLabelNum) :
    ∃ ix', names.foldlM (addLabel duplicate) ix = .ok ix' ∧ ix'.keys = ix.keys ++ names ∧
      ix'.free = [] := by
  induction names generalizing ix with
  | nil => exact ⟨ix, rfl, (append_nil _).symm, hfree⟩
  | cons name rest ih =>
    have hnew : name ∉ ix.keys := fun hmem =>
      (nodup_append.mp hnodup).2.2 name hmem name mem_cons_self rfl
    rw [length_cons] at hroom
    obtain ⟨mid, hadd, hkeys, hmid⟩ :=
      @add_of_free_nil _ ix name kLabelNum _ hfree hnew (by omega)
    have hnone : ix.index name = none := by
      cases hindex : ix.index name with
      | none => rfl
      | some i => exact absurd (mem_of_getElem? ((ix.index_iff name i).mp hindex).1) hnew
    have hround : addLabel duplicate ix name = .ok mid := by
      unfold addLabel
      rw [hnone, hadd]
      rfl
    have hsplit : mid.keys ++ rest = ix.keys ++ name :: rest := by
      rw [hkeys, append_assoc]
      rfl
    obtain ⟨ix', hrest, hkeys', hfree'⟩ := ih hmid (hsplit ▸ hnodup)
      (by rw [hkeys, length_append, length_singleton]; omega)
    refine ⟨ix', ?_, hkeys'.trans hsplit, hfree'⟩
    rw [foldlM_cons, hround]
    exact hrest

theorem mem_validLabels {bound label : Nat} {tomb : Nat → Bool} :
    label ∈ validLabels bound tomb ↔ label < bound ∧ tomb label = false := by
  unfold validLabels
  rw [mem_filter, mem_range, Bool.not_eq_true']

theorem validLabels_nodup (bound : Nat) (tomb : Nat → Bool) : (validLabels bound tomb).Nodup :=
  nodup_range.filter _

theorem length_validLabels_le (bound : Nat) (tomb : Nat → Bool) :
    (validLabels bound tomb).length ≤ bound :=
  (length_filter_le _ _).trans_eq length_range

/-- `ix'` numbers the labels of `ix` by their positions among the valid ones. -/
structure Positions (ix : LabelIndexer) (tomb : Nat → Bool) (ix' : LabelIndexer) : Prop where
  index_iff : ∀ name p, ix'.index name = some p ↔
    ∃ label, (validLabels ix.keys.length tomb)[p]? = some label ∧ ix.index name = some label
  free_nil : ix'.free = []
  length_eq : ix'.keys.length = (validLabels ix.keys.length tomb).length

/-- The name of a valid label finds it. -/
theorem index_eq_iff_of_valid {ix : LabelIndexer} {tomb : Nat → Bool}
    (htomb : ∀ label, tomb label = true ↔ label ∈ ix.free) {label : Nat}
    (hvalid : label ∈ validLabels ix.keys.length tomb) (name : String) :
    keyOf ix label = name ↔ ix.index name = some label := by
  obtain ⟨hlt, hnot⟩ := mem_validLabels.mp hvalid
  have hfree : label ∉ ix.free := by
    rw [← htomb, hnot]
    exact Bool.false_ne_true
  obtain ⟨key, -, hkey⟩ := exists_index hlt hfree
  constructor
  · intro h
    rw [← h, index_keyOf hkey, hkey]
  · exact index_keyOf

/-- The loops over labels succeed when there is room. -/
theorem compactLabels_positions (duplicate : String → CompactError) {ix : LabelIndexer}
    {tomb : Nat → Bool} (hroom : ix.keys.length < kLabelNum)
    (htomb : ∀ label, tomb label = true ↔ label ∈ ix.free) :
    ∃ ix', compactLabels duplicate ix ix.keys.length tomb = .ok ix' ∧ Positions ix tomb ix' := by
  have hlength := length_validLabels_le ix.keys.length tomb
  have hnodup : ((validLabels ix.keys.length tomb).map (keyOf ix)).Nodup := by
    refine (validLabels_nodup _ _).map_on fun label hlabel label' hlabel' heq => ?_
    have hindex := (index_eq_iff_of_valid htomb hlabel _).mp rfl
    rw [heq, (index_eq_iff_of_valid htomb hlabel' _).mp rfl] at hindex
    exact (Option.some.inj hindex).symm
  obtain ⟨ix', hfold, hkeys, hfree⟩ := @foldlM_addLabel duplicate .empty
    ((validLabels ix.keys.length tomb).map (keyOf ix)) rfl hnodup
    (by simp [NamedSlots.empty]; omega)
  refine ⟨ix', ?_, ⟨?_, hfree, ?_⟩⟩
  · unfold compactLabels
    simp only [if_pos hroom]
    exact hfold
  · intro name p
    rw [ix'.index_iff, hkeys, hfree]
    simp only [NamedSlots.empty, nil_append, getElem?_map, not_mem_nil,
      not_false_eq_true, and_true, Option.map_eq_some_iff]
    constructor
    · rintro ⟨label, hp, hkey⟩
      exact ⟨label, hp, (index_eq_iff_of_valid htomb (mem_of_getElem? hp) name).mp hkey⟩
    · rintro ⟨label, hp, hindex⟩
      exact ⟨label, hp, (index_eq_iff_of_valid htomb (mem_of_getElem? hp) name).mpr hindex⟩
  · rw [hkeys]
    simp [NamedSlots.empty]

namespace Positions

variable {ix ix' : LabelIndexer} {tomb : Nat → Bool}

variable {name : String}

section

variable (h : Positions ix tomb ix')
include h

theorem exists_position (htomb : ∀ label, tomb label = true ↔ label ∈ ix.free) {label : Nat}
    (hindex : ix.index name = some label) :
    ∃ p, (validLabels ix.keys.length tomb)[p]? = some label ∧ ix'.index name = some p := by
  have hvalid : label ∈ validLabels ix.keys.length tomb := by
    refine mem_validLabels.mpr ⟨lt_of_index hindex, ?_⟩
    rw [← Bool.not_eq_true, htomb]
    exact notMem_free_of_index hindex
  obtain ⟨p, hp⟩ := mem_iff_getElem?.mp hvalid
  exact ⟨p, hp, (h.index_iff name p).mpr ⟨label, hp, hindex⟩⟩

theorem index_eq_none (hnone : ix.index name = none) : ix'.index name = none := by
  cases hindex : ix'.index name with
  | none => rfl
  | some p =>
    obtain ⟨label, -, hsome⟩ := (h.index_iff name p).mp hindex
    rw [hnone] at hsome
    cases hsome

theorem index_inj {name' : String} {p : Nat}
    (hname : ix'.index name = some p) (hname' : ix'.index name' = some p) :
    ix.index name = ix.index name' := by
  obtain ⟨label, hlabel, hindex⟩ := (h.index_iff name p).mp hname
  obtain ⟨label', hlabel', hindex'⟩ := (h.index_iff name' p).mp hname'
  rw [hlabel] at hlabel'
  cases hlabel'
  rw [hindex, hindex']

theorem renumber_eq
    (htomb : ∀ label, tomb label = true ↔ label ∈ ix.free) (missing : String → CompactError)
    {label : Nat} (hindex : ix.index name = some label) :
    ∃ p, renumber missing ix ix' label = .ok p ∧ ix'.index name = some p := by
  obtain ⟨p, -, hp⟩ := h.exists_position htomb hindex
  refine ⟨p, ?_, hp⟩
  unfold renumber
  rw [index_keyOf hindex, hp]

end

end Positions

def typeIndex (vlabels elabels : LabelIndexer) (e : EdgeType E) : Nat :=
  generateEdgeLabel ((vlabels.index e.srcLabelName).getD 0) ((vlabels.index e.dstLabelName).getD 0)
    ((elabels.index e.edgeLabelName).getD 0)

variable {p : Nat × EdgeType E} {Q : CompactError → Prop}

theorem TypeIds.index_eq_typeIndex {src dst edge : Nat} (h : s.TypeIds p src dst edge) :
    p.1 = typeIndex s.vlabelIndexer s.elabelIndexer p.2 := by
  rw [h.index_eq, typeIndex, h.src_eq, h.dst_eq, h.edge_eq]
  rfl

structure Renumbered (s s' : Schema V E) : Prop where
  vLabels : Positions s.vlabelIndexer s.vlabelTomb s'.vlabelIndexer
  eLabels : Positions s.elabelIndexer s.elabelTomb s'.elabelIndexer
  types : s'.eSchemas = s.eSchemas.map fun p =>
    (typeIndex s'.vlabelIndexer s'.elabelIndexer p.2, p.2)
  wellFormed : s'.WellFormed

section

variable (h : s.WellFormed)
include h

theorem WellFormed.keepsEdgeType (hp : p ∈ s.eSchemas) : s.keepsEdgeType p = true := by
  obtain ⟨src, dst, edge, hids⟩ := h.types p hp
  have hsrc := h.vTomb_of_index hids.src_eq
  have hdst := h.vTomb_of_index hids.dst_eq
  have hedge := h.eTomb_of_index hids.edge_eq
  have hvalid : s.isEdgeTripletValid src dst edge = true := by
    rw [h.isEdgeTripletValid_iff, ← hids.index_eq]
    exact mem_map_of_mem hp
  unfold Schema.keepsEdgeType
  rw [hids.index_eq, parseEdgeLabel_generateEdgeLabel (h.vertex_lt hids.src_eq)
    (h.vertex_lt hids.dst_eq) (h.edge_lt hids.edge_eq)]
  simp [hsrc, hdst, hedge, hvalid]

section

variable {vlabels elabels : LabelIndexer} (hv : Positions s.vlabelIndexer s.vlabelTomb vlabels)
  (he : Positions s.elabelIndexer s.elabelTomb elabels)
include hv he

theorem WellFormed.renumberEdgeType_eq (hp : p ∈ s.eSchemas) :
    s.renumberEdgeType vlabels elabels p = .ok (typeIndex vlabels elabels p.2, p.2) := by
  obtain ⟨src, dst, edge, hids⟩ := h.types p hp
  obtain ⟨src', hsrc, hsrcIndex⟩ := hv.renumber_eq h.vTomb .getVertexLabel hids.src_eq
  obtain ⟨dst', hdst, hdstIndex⟩ := hv.renumber_eq h.vTomb .getVertexLabel hids.dst_eq
  obtain ⟨edge', hedge, hedgeIndex⟩ := he.renumber_eq h.eTomb .getEdgeLabel hids.edge_eq
  unfold renumberEdgeType
  rw [hids.index_eq, parseEdgeLabel_generateEdgeLabel (h.vertex_lt hids.src_eq)
    (h.vertex_lt hids.dst_eq) (h.edge_lt hids.edge_eq)]
  simp only [hsrc, hdst, hedge]
  rw [typeIndex, hsrcIndex, hdstIndex, hedgeIndex]
  rfl

theorem WellFormed.exists_newIds (hp : p ∈ s.eSchemas) :
    ∃ a b c, vlabels.index p.2.srcLabelName = some a ∧ vlabels.index p.2.dstLabelName = some b ∧
      elabels.index p.2.edgeLabelName = some c ∧
      typeIndex vlabels elabels p.2 = generateEdgeLabel a b c := by
  obtain ⟨src, dst, edge, hids⟩ := h.types p hp
  obtain ⟨a, -, ha⟩ := hv.exists_position h.vTomb hids.src_eq
  obtain ⟨b, -, hb⟩ := hv.exists_position h.vTomb hids.dst_eq
  obtain ⟨c, -, hc⟩ := he.exists_position h.eTomb hids.edge_eq
  refine ⟨a, b, c, ha, hb, hc, ?_⟩
  rw [typeIndex, ha, hb, hc]
  rfl

theorem WellFormed.typeIndex_inj {q : Nat × EdgeType E} (hp : p ∈ s.eSchemas) (hq : q ∈ s.eSchemas)
    (heq : typeIndex vlabels elabels p.2 = typeIndex vlabels elabels q.2) : p = q := by
  have hvRoom : vlabels.keys.length < kLabelNum :=
    hv.length_eq.trans_lt ((length_validLabels_le _ _).trans_lt h.roomy.vertex)
  have heRoom : elabels.keys.length < kLabelNum :=
    he.length_eq.trans_lt ((length_validLabels_le _ _).trans_lt h.roomy.edge)
  obtain ⟨src, dst, edge, hids⟩ := h.types p hp
  obtain ⟨src₂, dst₂, edge₂, hids₂⟩ := h.types q hq
  obtain ⟨a, b, c, ha, hb, hc, hnew⟩ := h.exists_newIds hv he hp
  obtain ⟨a₂, b₂, c₂, ha₂, hb₂, hc₂, hnew₂⟩ := h.exists_newIds hv he hq
  rw [hnew, hnew₂] at heq
  obtain ⟨hsrc, hdst, hedge⟩ := generateEdgeLabel_inj
    ((lt_of_index hb).trans hvRoom) ((lt_of_index hc).trans heRoom)
    ((lt_of_index hb₂).trans hvRoom) ((lt_of_index hc₂).trans heRoom) heq
  have hsame : p.1 = q.1 := by
    rw [hids.index_eq_typeIndex, hids₂.index_eq_typeIndex, typeIndex, typeIndex,
      hv.index_inj ha (hsrc ▸ ha₂), hv.index_inj hb (hdst ▸ hb₂), he.index_inj hc (hedge ▸ hc₂)]
  exact inj_on_of_nodup_map h.eKeys hp hq hsame

end

theorem WellFormed.compact : ∃ s', s.compact = .ok s' ∧ s.Renumbered s' := by
  obtain ⟨vlabels, hvlabels, hv⟩ :=
    compactLabels_positions .addVertexLabel h.roomy.vertex h.vTomb
  obtain ⟨elabels, helabels, he⟩ := compactLabels_positions .addEdgeLabel h.roomy.edge h.eTomb
  have hkept : s.eSchemas.filter s.keepsEdgeType = s.eSchemas :=
    filter_eq_self.mpr fun p hp => h.keepsEdgeType hp
  have htypes : s.eSchemas.mapM (s.renumberEdgeType vlabels elabels) =
      .ok (s.eSchemas.map fun p => (typeIndex vlabels elabels p.2, p.2)) := by
    rw [mapM_eq_ok, forall₂_map_right_iff]
    exact forall₂_same.mpr fun p hp => h.renumberEdgeType_eq hv he hp
  refine ⟨⟨vlabels, elabels, (validLabels s.vSchemas.length s.vlabelTomb).map fun label =>
    (s.vSchemas[label]?).join, s.eSchemas.map fun p => (typeIndex vlabels elabels p.2, p.2),
    fun _ => false, fun _ => false, fun _ => false⟩, ?_, ?_⟩
  · unfold Schema.compact
    rw [← h.vSlots] at hvlabels
    rw [hvlabels, helabels, hkept]
    simp only [bind, Except.bind, htypes]
  · have hnodup : ((s.eSchemas.map fun p => (typeIndex vlabels elabels p.2, p.2)).map
        Prod.fst).Nodup := by
      rw [map_map]
      exact h.eKeys.of_map.map_on fun p hp q hq heq => h.typeIndex_inj hv he hp hq heq
    refine ⟨hv, he, rfl, ⟨⟨?_, ?_⟩, ?_, ?_, ?_, hnodup, ?_⟩⟩
    · exact hv.length_eq.trans_lt ((length_validLabels_le _ _).trans_lt h.roomy.vertex)
    · exact he.length_eq.trans_lt ((length_validLabels_le _ _).trans_lt h.roomy.edge)
    · intro label
      simp [hv.free_nil]
    · intro label
      simp [he.free_nil]
    · rw [length_map, h.vSlots]
      exact hv.length_eq.symm
    · intro p' hp'
      obtain ⟨p, hp, rfl⟩ := mem_map.mp hp'
      obtain ⟨a, b, c, ha, hb, hc, hnew⟩ := h.exists_newIds hv he hp
      exact ⟨a, b, c, ha, hb, hc, hnew, rfl⟩

end

/-! ### Compaction that fails -/

/-- A property of errors that the loops over labels can end with. -/
structure LabelErrors (Q : CompactError → Prop) : Prop where
  addVertexLabel : ∀ name, Q (.addVertexLabel name)
  addEdgeLabel : ∀ name, Q (.addEdgeLabel name)
  labelOverflow : Q .labelOverflow
  endless : Q .endless

section

variable {duplicate : String → CompactError} (hduplicate : ∀ name, Q (duplicate name))
  (hoverflow : Q .labelOverflow)
include hduplicate hoverflow

theorem error_of_addLabel {ix : LabelIndexer}
    {name : String} {e : CompactError} (h : addLabel duplicate ix name = .error e) : Q e := by
  unfold addLabel at h
  split at h
  · cases h
    exact hduplicate name
  · split at h
    · cases h
      exact hoverflow
    · cases h

/-- The loops over labels fail in few ways, and always when there is no room. -/
theorem error_of_compactLabels
    (hendless : Q .endless) (ix : LabelIndexer) (bound : Nat) (tomb : Nat → Bool) :
    (∃ e, compactLabels duplicate ix bound tomb = .error e ∧ Q e) ∨
      bound < kLabelNum ∧ ∃ ix', compactLabels duplicate ix bound tomb = .ok ix' := by
  have hround : ∀ {names : List String} {e},
      names.foldlM (addLabel duplicate) .empty = .error e → Q e := by
    intro names e hfold
    obtain ⟨ix, name, hadd⟩ := exists_error_of_foldlM hfold
    exact error_of_addLabel hduplicate hoverflow hadd
  unfold compactLabels
  simp only
  split
  next hbound =>
    cases hfold : ((validLabels bound tomb).map (keyOf ix)).foldlM (addLabel duplicate) .empty with
    | error e => exact .inl ⟨e, rfl, hround hfold⟩
    | ok ix' => exact .inr ⟨hbound, ix', rfl⟩
  next =>
    cases hfold : ((validLabels bound tomb).map (keyOf ix) ++
        (validLabels bound tomb).map (keyOf ix)).foldlM (addLabel duplicate) .empty with
    | error e => exact .inl ⟨e, rfl, hround hfold⟩
    | ok ix' => exact .inl ⟨_, rfl, hendless⟩

end

theorem error_of_not_roomy (hQ : LabelErrors Q)
    (hslots : s.vSchemas.length = s.vlabelIndexer.keys.length) (hroomy : ¬s.Roomy) :
    ∃ e, s.compact = .error e ∧ Q e := by
  unfold Schema.compact
  rcases error_of_compactLabels hQ.addVertexLabel hQ.labelOverflow hQ.endless s.vlabelIndexer
    s.vSchemas.length s.vlabelTomb with ⟨e, herror, he⟩ | ⟨hv, vlabels, hvlabels⟩
  · exact ⟨e, by rw [herror]; rfl, he⟩
  rcases error_of_compactLabels hQ.addEdgeLabel hQ.labelOverflow hQ.endless s.elabelIndexer
    s.elabelIndexer.keys.length s.elabelTomb with ⟨e, herror, he⟩ | ⟨he, -⟩
  · exact ⟨e, by rw [hvlabels, herror]; rfl, he⟩
  · exact absurd ⟨hslots ▸ hv, he⟩ hroomy

end Schema

end Neug.Storage
