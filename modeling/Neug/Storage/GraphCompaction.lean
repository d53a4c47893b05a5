import Neug.Library.DistinctKeys
import Neug.Storage.PropertyGraphDrops

/-! # Compaction of a graph

Compaction first renumbers the labels, which moves the tables to other ids, and then compacts
the tables that changed.  By name, every table is what compaction of it makes of it.
-/

namespace Neug.Storage

open Library Schema List Attempt

namespace PropertyGraph

variable {V E VT ET : Type} {g g' : PropertyGraph V E VT ET}

/-- The flags say nothing about where tables stand. -/
theorem Aligned.withFlags (h : g.Aligned) (dirty uncompacted : DirtyTracker) :
    ({ g with dirty := dirty, uncompactedModules := uncompacted } :
      PropertyGraph V E VT ET).Aligned :=
  ⟨h.schema, h.slots, h.vTotal, h.eTotal, h.vertices, h.edges⟩

/-! ### Compaction of the schema -/

theorem Aligned.liveLabels_eq (h : g.Aligned) :
    g.liveLabels = validLabels g.schema.vlabelIndexer.keys.length g.schema.vlabelTomb := by
  unfold liveLabels validLabels
  rw [h.vTotal]
  refine filter_congr fun label hlabel => ?_
  simp [isVertexLabelValid, mem_range.mp hlabel]

/-- The triplets that are left are the edge types. -/
theorem Aligned.mem_liveTriplets (h : g.Aligned) {t : Nat × Nat × Nat} :
    t ∈ g.liveTriplets ↔ ∃ p ∈ g.schema.eSchemas, g.schema.TypeIds p t.1 t.2.1 t.2.2 := by
  obtain ⟨src, dst, edge⟩ := t
  unfold liveTriplets
  rw [mem_filter, pair_mem_product, pair_mem_product, mem_range, h.eTotal,
    h.liveLabels_eq, Bool.and_eq_true, h.schema.isEdgeTripletValid_iff]
  constructor
  · rintro ⟨⟨-, hdst, hedge⟩, -, htriplet⟩
    obtain ⟨p, hp, hkey⟩ := mem_map.mp htriplet
    have hdst' := (mem_validLabels.mp hdst).1.trans h.schema.roomy.vertex
    have hids := @Schema.WellFormed.typeIds_of_mem _ _ _ h.schema src dst edge p.2 hdst'
      (hedge.trans h.schema.roomy.edge) (hkey ▸ hp)
    exact ⟨p, hp, hids.src_eq, hids.dst_eq, hids.edge_eq, hkey, hkey ▸ hids.valid⟩
  · rintro ⟨p, hp, hids⟩
    have hlive : ∀ {name label}, g.schema.vlabelIndexer.index name = some label →
        label ∈ validLabels g.schema.vlabelIndexer.keys.length g.schema.vlabelTomb := by
      intro name label hlabel
      exact mem_validLabels.mpr
        ⟨NamedSlots.lt_of_index hlabel, h.schema.vTomb_of_index hlabel⟩
    have hedge := NamedSlots.lt_of_index hids.edge_eq
    have htomb := h.schema.eTomb_of_index hids.edge_eq
    refine ⟨⟨hlive hids.src_eq, hlive hids.dst_eq, hedge⟩, ?_, ?_⟩
    · simp [isEdgeLabelValid, hedge, htomb]
    · rw [← hids.index_eq]
      exact mem_map_of_mem hp

variable {schema : Schema V E}

section

variable (h : g.Aligned) (hnew : g.schema.Renumbered schema)
include h hnew

theorem Aligned.moveVertexTables :
    ∃ vertices, g.liveLabels.mapM (g.moveVertexTable schema) = .ok vertices := by
  refine exists_mapM_ok fun label hlabel => ?_
  rw [h.liveLabels_eq] at hlabel
  have hname := (index_eq_iff_of_valid h.schema.vTomb hlabel _).mp rfl
  obtain ⟨p, hrenumber, -⟩ := hnew.vLabels.renumber_eq h.schema.vTomb .getVertexLabel hname
  unfold moveVertexTable
  rw [hrenumber]
  exact ⟨_, rfl⟩

theorem Aligned.moveEdgeTable
    {t : Nat × Nat × Nat} {p : Nat × EdgeType E} (hp : p ∈ g.schema.eSchemas)
    (hids : g.schema.TypeIds p t.1 t.2.1 t.2.2) :
    ∃ table dirty, g.edgeTables p.1 = some table ∧ g.moveEdgeTable schema t =
      .ok (typeIndex schema.vlabelIndexer schema.elabelIndexer p.2, table, dirty) := by
  obtain ⟨src, hsrc, hsrcIndex⟩ :=
    hnew.vLabels.renumber_eq h.schema.vTomb .getVertexLabel hids.src_eq
  obtain ⟨dst, hdst, hdstIndex⟩ :=
    hnew.vLabels.renumber_eq h.schema.vTomb .getVertexLabel hids.dst_eq
  obtain ⟨edge, hedge, hedgeIndex⟩ :=
    hnew.eLabels.renumber_eq h.schema.eTomb .getEdgeLabel hids.edge_eq
  obtain ⟨table, htable⟩ :=
    Option.isSome_iff_exists.mp ((h.edges p.1).mpr (mem_map_of_mem hp))
  refine ⟨table, g.dirty.isEdgeDirty p.1, htable, ?_⟩
  unfold PropertyGraph.moveEdgeTable
  rw [hids.index_eq] at htable
  simp only [hsrc, hdst, hedge, bind, Except.bind, htable]
  rw [typeIndex, hsrcIndex, hdstIndex, hedgeIndex, hids.index_eq]
  rfl

/-- Where the edge tables stand after they were moved. -/
theorem Aligned.movedTables : ∃ edges, g.liveTriplets.mapM (g.moveEdgeTable schema) = .ok edges ∧
      (∀ p ∈ g.schema.eSchemas, PropertyGraph.movedTables edges
        (typeIndex schema.vlabelIndexer schema.elabelIndexer p.2) = g.edgeTables p.1) ∧
      ∀ index, (PropertyGraph.movedTables edges index).isSome ↔
        index ∈ schema.eSchemas.map Prod.fst := by
  have hmove : ∀ t ∈ g.liveTriplets, ∃ b, g.moveEdgeTable schema t = .ok b := by
    intro t ht
    obtain ⟨p, hp, hids⟩ := h.mem_liveTriplets.mp ht
    obtain ⟨table, dirty, -, hmoved⟩ := h.moveEdgeTable hnew hp hids
    exact ⟨_, hmoved⟩
  obtain ⟨edges, hedges⟩ := exists_mapM_ok hmove
  -- every table that was moved is that of an edge type
  have hfrom : ∀ m ∈ edges, ∃ p ∈ g.schema.eSchemas,
      m.1 = typeIndex schema.vlabelIndexer schema.elabelIndexer p.2 ∧
        g.edgeTables p.1 = some m.2.1 := by
    intro m hm
    obtain ⟨t, ht, hmoved⟩ := (mem_iff_of_mapM hedges).mp hm
    obtain ⟨p, hp, hids⟩ := h.mem_liveTriplets.mp ht
    obtain ⟨table, dirty, htable, hmoved'⟩ := h.moveEdgeTable hnew hp hids
    rw [hmoved'] at hmoved
    cases hmoved
    exact ⟨p, hp, rfl, htable⟩
  have hto : ∀ p ∈ g.schema.eSchemas, ∃ m ∈ edges,
      m.1 = typeIndex schema.vlabelIndexer schema.elabelIndexer p.2 ∧
        g.edgeTables p.1 = some m.2.1 := by
    intro p hp
    obtain ⟨src, dst, edge, hids⟩ := h.schema.types p hp
    obtain ⟨table, dirty, htable, hmoved⟩ :=
      @Aligned.moveEdgeTable _ _ _ _ g schema h hnew (src, dst, edge) p hp hids
    refine ⟨_, (mem_iff_of_mapM hedges).mpr ⟨_, ?_, hmoved⟩, rfl, htable⟩
    exact h.mem_liveTriplets.mpr ⟨p, hp, hids⟩
  have hsame : ∀ m ∈ edges, ∀ m' ∈ edges, m.1 = m'.1 → some m.2.1 = some m'.2.1 := by
    intro m hm m' hm' hkey
    obtain ⟨p, hp, hindex, htable⟩ := hfrom m hm
    obtain ⟨q, hq, hindex', htable'⟩ := hfrom m' hm'
    have hpq : p = q := h.schema.typeIndex_inj hnew.vLabels hnew.eLabels hp hq
      (hindex.symm.trans (hkey.trans hindex'))
    rw [← htable, ← htable', hpq]
  have hmem : ∀ m ∈ edges, PropertyGraph.movedTables edges m.1 = some m.2.1 := fun m hm =>
    foldl_update_of_mem Prod.fst (fun m : Nat × ET × Bool => some m.2.1) hsame hm
  refine ⟨edges, hedges, ?_, ?_⟩
  · intro p hp
    obtain ⟨m, hm, hindex, htable⟩ := hto p hp
    rw [← hindex, hmem m hm, htable]
  · intro index
    rw [hnew.types, map_map, mem_map]
    constructor
    · intro hsome
      by_contra hnot
      have hnone : index ∉ edges.map Prod.fst := by
        intro hin
        obtain ⟨m, hm, rfl⟩ := mem_map.mp hin
        obtain ⟨p, hp, hindex, -⟩ := hfrom m hm
        exact hnot ⟨p, hp, hindex.symm⟩
      have hempty : PropertyGraph.movedTables edges index = none :=
        foldl_update_of_notMem Prod.fst (fun m : Nat × ET × Bool => some m.2.1) hnone
      rw [hempty] at hsome
      cases hsome
    · rintro ⟨p, hp, rfl⟩
      obtain ⟨m, hm, hindex, -⟩ := hto p hp
      change (PropertyGraph.movedTables edges
        (typeIndex schema.vlabelIndexer schema.elabelIndexer p.2)).isSome = true
      rw [← hindex, hmem m hm]
      rfl

end

/-- Compaction of the schema gets through and changes nothing by name. -/
theorem Aligned.compactSchema (h : g.Aligned) :
    ∃ g', g.compactSchema = .ok g' ∧ g'.Aligned ∧ g'.named = g.named := by
  obtain ⟨schema, hschema, hnew⟩ := h.schema.compact
  obtain ⟨vertices, hvertices⟩ := h.moveVertexTables hnew
  obtain ⟨edges, hedges, htables, hsome⟩ := h.movedTables hnew
  have hlive := h.liveLabels_eq
  refine ⟨⟨schema, g.liveLabels.map g.tableAt, PropertyGraph.movedTables edges,
    schema.vertexLabelFrontier, schema.edgeLabelFrontier,
    movedDirty g.dirty.schema vertices edges, g.uncompactedModules⟩, ?_, ?_⟩
  · unfold PropertyGraph.compactSchema
    rw [hschema]
    simp only [bind, Except.bind, hvertices, hedges]
  generalize hg' : (⟨schema, g.liveLabels.map g.tableAt, PropertyGraph.movedTables edges,
    schema.vertexLabelFrontier, schema.edgeLabelFrontier,
    movedDirty g.dirty.schema vertices edges, g.uncompactedModules⟩ :
      PropertyGraph V E VT ET) = g'
  have hs : g'.schema = schema := by rw [← hg']
  have ht : g'.edgeTables = PropertyGraph.movedTables edges := by rw [← hg']
  have hat : ∀ {p label : Nat}, g.liveLabels[p]? = some label →
      g'.tableAt p = g.tableAt label := by
    intro p label hp
    rw [← hg', tableAt, getElem?_map, hp]
    rfl
  have haligned : g'.Aligned := by
    refine ⟨hs ▸ hnew.wellFormed, ?_, ?_, ?_, ?_, ?_⟩
    · rw [hs, hnew.vLabels.length_eq, ← hlive, ← hg']
      exact length_map _
    · rw [hs, ← hg']
      exact Nat.mod_eq_of_lt hnew.wellFormed.roomy.vertex
    · rw [hs, ← hg']
      exact Nat.mod_eq_of_lt hnew.wellFormed.roomy.edge
    · intro name p hp
      rw [hs] at hp
      obtain ⟨label, hlabel, hindex⟩ := (hnew.vLabels.index_iff name p).mp hp
      rw [hat (hlive ▸ hlabel)]
      exact h.vertices name label hindex
    · intro index
      rw [ht, hs]
      exact hsome index
  refine ⟨haligned, ?_⟩
  have hvertex : g'.vertexTable = g.vertexTable := by
    funext name
    rw [haligned.vertexTable_eq, h.vertexTable_eq, hs]
    cases hindex : g.schema.vlabelIndexer.index name with
    | none => rw [hnew.vLabels.index_eq_none hindex]; rfl
    | some label =>
      obtain ⟨p, hp, hp'⟩ := hnew.vLabels.exists_position h.schema.vTomb hindex
      rw [hp']
      exact hat (hlive ▸ hp)
  have hedge : g'.edgeTable = g.edgeTable := by
    refine haligned.edgeTable_ext (fun p' hp' => ?_) fun name hnone => ?_
    · rw [hs, hnew.types] at hp'
      obtain ⟨p, hp, rfl⟩ := mem_map.mp hp'
      rw [ht, htables p hp, h.edgeTable_of_mem hp]
    · rw [hs, hnew.types, forall_mem_map] at hnone
      exact h.edgeTable_eq_none hnone
  rw [named, hvertex, hedge]
  rfl

/-! ### Compaction of the tables -/

section Tables

variable {compactVertex : VT → VT} {compactEdge : E → ET → Attempt CompactError ET}
  {P : NamedTables VT ET → Prop} {Q : CompactError → Prop}

/-- Compaction of one table keeps `P`, and fails only with errors that meet `Q`. -/
structure TablesMeet (compactVertex : VT → VT) (compactEdge : E → ET → Attempt CompactError ET)
    (P : NamedTables VT ET → Prop) (Q : CompactError → Prop) : Prop where
  vertex : ∀ n label table, P n → n.vertex label = some table →
    P (n.setVertex label (compactVertex table))
  edge : ∀ n name info table, P n → n.edge name = some table →
    (compactEdge info table).Meets (fun table' => P (n.setEdge name table')) Q

section

variable (h : g.Aligned) (hkeeps : TablesMeet compactVertex compactEdge P Q)
include h hkeeps

theorem Aligned.compactVertexTable
    {label : Nat} (hvalid : g.schema.isVertexLabelValid label = true) (hP : P g.named) :
    (g.compactVertexTable compactVertex label).Aligned ∧
      P (g.compactVertexTable compactVertex label).named := by
  unfold PropertyGraph.compactVertexTable
  split
  next table htable =>
    split
    · unfold isVertexLabelValid at hvalid
      rw [Bool.and_eq_true, decide_eq_true_eq, Bool.not_eq_true'] at hvalid
      have hlive := mem_validLabels.mpr hvalid
      have hindex := (index_eq_iff_of_valid h.schema.vTomb hlive _).mp rfl
      have hnamed : g.named.vertex (keyOf g.schema.vlabelIndexer label) = some table := by
        change g.vertexTable _ = _
        rw [h.vertexTable_eq, hindex]
        exact htable
      obtain ⟨haligned, heq⟩ := h.setVertexTable hindex (compactVertex table) false
      refine ⟨haligned, ?_⟩
      rw [heq]
      exact hkeeps.vertex _ _ table hP hnamed
    · exact ⟨h, hP⟩
  next => exact ⟨h, hP⟩

theorem Aligned.compactEdgeTable (t : Nat × Nat × Nat) (hP : P g.named) :
    (g.compactEdgeTable compactEdge t).Meets (fun g' => g'.Aligned ∧ P g'.named) Q := by
  unfold PropertyGraph.compactEdgeTable
  simp only
  split
  next type table htype htable =>
    split
    · exact meets_done ⟨h, hP⟩
    · have hmem := (edgeSchema_eq_some_iff h.schema.eKeys).mp htype
      have hnamed : g.named.edge type.name = some table :=
        (h.edgeTable_of_mem hmem).trans htable
      have hmeets := hkeeps.edge _ _ type.info table hP hnamed
      have hset := fun table' => h.setEdgeTable hmem table' false
      cases hcompact : compactEdge type.info table with
      | done table' =>
        rw [hcompact] at hmeets
        refine meets_done ⟨(hset table').1, ?_⟩
        rw [(hset table').2]
        exact hmeets.1
      | failed e table' =>
        rw [hcompact] at hmeets
        refine meets_failed ⟨(hset table').1, ?_⟩ (hmeets.2 e table' rfl)
        rw [(hset table').2]
        exact hmeets.1
  next => exact meets_done ⟨h, hP⟩

theorem Aligned.compactFrom (src : Nat) (hP : P g.named) :
    (g.compactFrom compactVertex compactEdge src).Meets (fun g' => g'.Aligned ∧ P g'.named) Q := by
  unfold PropertyGraph.compactFrom
  split
  next hsrc =>
    have hvalid : g.schema.isVertexLabelValid src = true := (Bool.and_eq_true_iff.mp hsrc).1
    refine meets_forEach (fun g t _ hg => ?_) (h.compactVertexTable hkeeps hvalid hP)
    split
    · exact hg.1.compactEdgeTable hkeeps (src, t) hg.2
    · exact meets_done hg
  next => exact meets_done ⟨h, hP⟩

/-- Compaction of a graph keeps what compaction of its tables keeps, whether or not it gets
through. -/
theorem Aligned.compact (hP : P g.named) :
    (g.compact compactVertex compactEdge).Meets (fun g' => g'.Aligned ∧ P g'.named) Q := by
  have hmerged := h.withFlags (g.dirty.mergeFrom g.uncompactedModules) g.uncompactedModules
  obtain ⟨compacted, hcompacted, haligned, hnamed⟩ := hmerged.compactSchema
  have hstart : P compacted.named := by
    rw [hnamed]
    exact hP
  unfold PropertyGraph.compact
  simp only [hcompacted]
  refine (meets_forEach (fun g src _ hg => hg.1.compactFrom hkeeps src hg.2)
    ⟨haligned, hstart⟩).andThen fun g hg => ?_
  exact meets_done ⟨hg.1.withFlags _ _, hg.2⟩

end

/-- A graph whose labels are used up is not compacted: only the flags are merged. -/
theorem compact_of_not_roomy (hQ : Schema.LabelErrors Q)
    (hslots : g.schema.vSchemas.length = g.schema.vlabelIndexer.keys.length)
    (hroomy : ¬g.schema.Roomy) : ∃ e, g.compact compactVertex compactEdge =
      .failed e { g with dirty := g.dirty.mergeFrom g.uncompactedModules } ∧ Q e := by
  obtain ⟨e, hcompact, he⟩ := error_of_not_roomy hQ hslots hroomy
  refine ⟨e, ?_, he⟩
  unfold compact compactSchema
  simp only [hcompact]
  rfl

end Tables

end PropertyGraph

end Neug.Storage
