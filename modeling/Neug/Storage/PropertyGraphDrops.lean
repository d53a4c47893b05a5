import Neug.Storage.PropertyGraphNames

/-! # Dropping types

Dropping an edge type removes its table.  Dropping a vertex type first drops the edge types that
have its label, in a loop over the other vertex labels and the edge labels; an edge label that
loses its last edge type is given up on the way.
-/

namespace Neug.Storage

open Library Function List NamedSlots

namespace PropertyGraph

variable {V E VT ET : Type} {g g' : PropertyGraph V E VT ET}

theorem eraseEdgeTable_edgeTables (g : PropertyGraph V E VT ET) (index : Nat) :
    (g.eraseEdgeTable index).edgeTables = update g.edgeTables index none := by
  unfold eraseEdgeTable
  split
  · rfl
  next hnone =>
    rw [Option.not_isSome_iff_eq_none] at hnone
    rw [← hnone, update_eq_self]

theorem eraseEdgeTable_frame (g : PropertyGraph V E VT ET) (index : Nat) :
    (g.eraseEdgeTable index).schema = g.schema ∧
      (g.eraseEdgeTable index).vertexTables = g.vertexTables ∧
      (g.eraseEdgeTable index).vertexLabelTotalCount = g.vertexLabelTotalCount ∧
      (g.eraseEdgeTable index).edgeLabelTotalCount = g.edgeLabelTotalCount := by
  unfold eraseEdgeTable
  split
  · exact ⟨rfl, rfl, rfl, rfl⟩
  · exact ⟨rfl, rfl, rfl, rfl⟩

/-- Only edge types that meet a condition were dropped. -/
structure Thinned (gone : Nat → Prop) (g g' : PropertyGraph V E VT ET) : Prop where
  aligned : g'.Aligned
  vLabels : g'.schema.vlabelIndexer = g.schema.vlabelIndexer
  vertexTables : g'.vertexTables = g.vertexTables
  vTotal : g'.vertexLabelTotalCount = g.vertexLabelTotalCount
  eTotal : g'.edgeLabelTotalCount = g.edgeLabelTotalCount
  types : ∀ p ∈ g'.schema.eSchemas, p ∈ g.schema.eSchemas
  others : ∀ p ∈ g.schema.eSchemas, ¬gone p.1 → p ∈ g'.schema.eSchemas
  tables : ∀ p ∈ g'.schema.eSchemas, g'.edgeTables p.1 = g.edgeTables p.1

namespace Thinned

variable {gone : Nat → Prop} {g'' : PropertyGraph V E VT ET}

theorem refl (h : g.Aligned) : Thinned gone g g :=
  ⟨h, rfl, rfl, rfl, rfl, fun _ hp => hp, fun _ hp _ => hp, fun _ _ => rfl⟩

section

variable (h : Thinned gone g g')
include h

theorem trans (h' : Thinned gone g' g'') : Thinned gone g g'' where
  aligned := h'.aligned
  vLabels := h'.vLabels.trans h.vLabels
  vertexTables := h'.vertexTables.trans h.vertexTables
  vTotal := h'.vTotal.trans h.vTotal
  eTotal := h'.eTotal.trans h.eTotal
  types p hp := h.types p (h'.types p hp)
  others p hp hgone := h'.others p (h.others p hp hgone) hgone
  tables p hp := (h'.tables p hp).trans (h.tables p (h'.types p hp))

/-- An edge type that is not there does not come back. -/
theorem notMem {index : Nat} (habsent : index ∉ g.schema.eSchemas.map Prod.fst) :
    index ∉ g'.schema.eSchemas.map Prod.fst := by
  intro hmem
  obtain ⟨p, hp, hkey⟩ := mem_map.mp hmem
  exact habsent (mem_map.mpr ⟨p, h.types p hp, hkey⟩)

theorem tableAt_eq : g'.tableAt = g.tableAt := by
  funext label
  rw [tableAt, tableAt, h.vertexTables]

theorem vertexTable_eq (haligned : g.Aligned) : g'.vertexTable = g.vertexTable := by
  funext label
  rw [h.aligned.vertexTable_eq, haligned.vertexTable_eq, h.vLabels, h.tableAt_eq]

theorem edgeTable_of_mem (haligned : g.Aligned) {p : Nat × EdgeType E}
    (hp : p ∈ g'.schema.eSchemas) : g'.edgeTables p.1 = g.edgeTable p.2.name := by
  rw [h.tables p hp, haligned.edgeTable_of_mem (h.types p hp)]

end

end Thinned

theorem Aligned.deleteEdgeTypeAt (h : g.Aligned) {src dst edge : Nat} (hdst : dst < kLabelNum)
    (hedge : edge < kLabelNum) :
    Thinned (· = generateEdgeLabel src dst edge) g (g.deleteEdgeTypeAt src dst edge) ∧
      generateEdgeLabel src dst edge ∉
        (g.deleteEdgeTypeAt src dst edge).schema.eSchemas.map Prod.fst := by
  have htables := eraseEdgeTable_edgeTables
    { g with schema := g.schema.deleteEdgeLabel src dst edge } (generateEdgeLabel src dst edge)
  obtain ⟨hschema, hvertex, hvTotal, heTotal⟩ := eraseEdgeTable_frame
    { g with schema := g.schema.deleteEdgeLabel src dst edge } (generateEdgeLabel src dst edge)
  have htypes := g.schema.deleteEdgeLabel_eSchemas src dst edge
  unfold PropertyGraph.deleteEdgeTypeAt
  generalize ({ g with schema := g.schema.deleteEdgeLabel src dst edge } :
    PropertyGraph V E VT ET).eraseEdgeTable (generateEdgeLabel src dst edge) = g' at *
  have hmem : ∀ p, p ∈ g'.schema.eSchemas ↔
      p ∈ g.schema.eSchemas ∧ p.1 ≠ generateEdgeLabel src dst edge := by
    intro p
    rw [hschema, htypes, mem_filter, decide_eq_true_eq]
  have hlabels : g'.schema.vlabelIndexer = g.schema.vlabelIndexer := by
    rw [hschema]
    exact g.schema.deleteEdgeLabel_vlabelIndexer src dst edge
  have hgone : generateEdgeLabel src dst edge ∉ g'.schema.eSchemas.map Prod.fst := by
    intro hin
    obtain ⟨p, hp, hkey⟩ := mem_map.mp hin
    exact ((hmem p).mp hp).2 hkey
  refine ⟨⟨⟨?_, ?_, ?_, ?_, ?_, ?_⟩, hlabels, hvertex, hvTotal, heTotal,
    fun p hp => ((hmem p).mp hp).1, fun p hp hne => (hmem p).mpr ⟨hp, hne⟩, ?_⟩, hgone⟩
  · rw [hschema]
    exact h.schema.deleteEdgeLabel hdst hedge
  · rw [hvertex, hlabels]
    exact h.slots
  · rw [hvTotal, hlabels]
    exact h.vTotal
  · rw [heTotal, hschema, g.schema.deleteEdgeLabel_eSlots]
    exact h.eTotal
  · intro name id hid
    rw [hlabels] at hid
    rw [tableAt, hvertex]
    exact h.vertices name id hid
  · intro index
    rw [htables]
    by_cases hindex : index = generateEdgeLabel src dst edge
    · rw [hindex, update_self]
      simp [hgone]
    · rw [update_of_ne hindex]
      refine (h.edges index).trans ?_
      rw [mem_map, mem_map]
      constructor
      · rintro ⟨p, hp, hkey⟩
        exact ⟨p, (hmem p).mpr ⟨hp, hkey ▸ hindex⟩, hkey⟩
      · rintro ⟨p, hp, hkey⟩
        exact ⟨p, ((hmem p).mp hp).1, hkey⟩
  · intro p hp
    rw [htables, update_of_ne ((hmem p).mp hp).2]

/-- `DeleteEdgeType` drops a table, or changes nothing. -/
theorem Aligned.deleteEdgeType (h : g.Aligned) (name : EdgeName) :
    (∃ e, g.deleteEdgeType name = .failed e g) ∨
      ∃ g', g.deleteEdgeType name = .done g' ∧ g'.Aligned ∧ g'.named = g.named.dropEdge name := by
  unfold PropertyGraph.deleteEdgeType
  cases hsrc : g.schema.vlabelIndexer.index name.1 with
  | none => exact .inl ⟨_, rfl⟩
  | some src =>
  cases hdst : g.schema.vlabelIndexer.index name.2.1 with
  | none => exact .inl ⟨_, rfl⟩
  | some dst =>
  cases hedge : g.schema.elabelIndexer.index name.2.2 with
  | none => exact .inl ⟨_, rfl⟩
  | some edge =>
  obtain ⟨hthinned, hgone⟩ := @Aligned.deleteEdgeTypeAt _ _ _ _ g h src dst edge
    (h.schema.vertex_lt hdst) (h.schema.edge_lt hedge)
  refine .inr ⟨_, rfl, hthinned.aligned, ?_⟩
  have hname : ∀ p ∈ g.schema.eSchemas,
      p.2.name = name ↔ p.1 = generateEdgeLabel src dst edge :=
    fun p hp => h.name_eq_iff hp hsrc hdst hedge
  have hedges : (g.deleteEdgeTypeAt src dst edge).edgeTable =
      update g.edgeTable name none := by
    refine hthinned.aligned.edgeTable_ext (fun p hp => ?_) fun other hnone => ?_
    · rw [update_of_ne, hthinned.edgeTable_of_mem h hp]
      intro hpname
      exact hgone (mem_map.mpr ⟨p, hp, (hname p (hthinned.types p hp)).mp hpname⟩)
    · by_cases hother : other = name
      · rw [hother, update_self]
      · rw [update_of_ne hother, h.edgeTable_eq_none]
        intro p hp hpname
        refine hnone p (hthinned.others p hp fun hkey => ?_) hpname
        exact hother (hpname.symm.trans ((hname p hp).mpr hkey))
  rw [named, hthinned.vertexTable_eq h, hedges]
  rfl

/-- The ids of the edge types between a vertex label and another one. -/
def Incident (label : Nat) (round : Nat × Nat) (index : Nat) : Prop :=
  index = generateEdgeLabel label round.1 round.2 ∨ index = generateEdgeLabel round.1 label round.2

theorem Thinned.mono {gone gone' : Nat → Prop} (h : Thinned gone g g')
    (hle : ∀ index, gone index → gone' index) : Thinned gone' g g' :=
  { h with others := fun p hp hgone => h.others p hp fun hindex => hgone (hle _ hindex) }

section

variable (h : g.Aligned)
include h

theorem Aligned.dropTriplet {src dst edge : Nat} (hdst : dst < kLabelNum)
    (hedge : edge < kLabelNum) :
    Thinned (· = generateEdgeLabel src dst edge) g (g.dropTriplet src dst edge) ∧
      generateEdgeLabel src dst edge ∉
        (g.dropTriplet src dst edge).schema.eSchemas.map Prod.fst := by
  unfold PropertyGraph.dropTriplet
  split
  · exact h.deleteEdgeTypeAt hdst hedge
  next hinvalid =>
    rw [h.schema.isEdgeTripletValid_iff] at hinvalid
    exact ⟨.refl h, hinvalid⟩

/-- A round drops the edge types between the two labels. -/
theorem Aligned.dropBetween {label : Nat} {round : Nat × Nat}
    (hlabel : label < kLabelNum) (hother : round.1 < kLabelNum) (hedge : round.2 < kLabelNum) :
    Thinned (Incident label round) g (g.dropBetween label round) ∧
      ∀ index, Incident label round index →
        index ∉ (g.dropBetween label round).schema.eSchemas.map Prod.fst := by
  unfold PropertyGraph.dropBetween
  split
  · obtain ⟨hfirst, hfirstGone⟩ := @Aligned.dropTriplet _ _ _ _ g h label round.1 round.2 hother
      hedge
    obtain ⟨hsecond, hsecondGone⟩ :=
      @Aligned.dropTriplet _ _ _ _ _ hfirst.aligned round.1 label round.2 hlabel hedge
    refine ⟨(hfirst.mono fun _ => .inl).trans (hsecond.mono fun _ => .inr), ?_⟩
    rintro index (rfl | rfl)
    · exact hsecond.notMem hfirstGone
    · exact hsecondGone
  next hinvalid =>
    refine ⟨.refl h, fun index hincident hmem => hinvalid ?_⟩
    obtain ⟨p, hp, rfl⟩ := mem_map.mp hmem
    obtain ⟨src, dst, edge, hids⟩ := h.schema.types p hp
    have hvalid : ∀ {name id}, g.schema.vlabelIndexer.index name = some id →
        g.schema.isVertexLabelValid id = true := by
      intro name id hid
      simp [Schema.isVertexLabelValid, h.schema.vTomb_of_index hid, lt_of_index hid]
    have hvalidEdge : g.schema.isEdgeLabelValid edge = true := by
      simp [Schema.isEdgeLabelValid, h.schema.eTomb_of_index hids.edge_eq,
        lt_of_index hids.edge_eq]
    rw [Bool.and_eq_true]
    rcases hincident with hindex | hindex
    · obtain ⟨-, rfl, rfl⟩ := h.schema.ids_eq hids hother hedge hindex
      exact ⟨hvalid hids.dst_eq, hvalidEdge⟩
    · obtain ⟨rfl, -, rfl⟩ := h.schema.ids_eq hids hlabel hedge hindex
      exact ⟨hvalid hids.src_eq, hvalidEdge⟩

theorem Aligned.foldl_dropBetween {label : Nat} (hlabel : label < kLabelNum)
    {rounds : List (Nat × Nat)}
    (hrounds : ∀ round ∈ rounds, round.1 < kLabelNum ∧ round.2 < kLabelNum) :
    Thinned (fun index => ∃ round ∈ rounds, Incident label round index) g
        (rounds.foldl (PropertyGraph.dropBetween label) g) ∧
      ∀ round ∈ rounds, ∀ index, Incident label round index →
        index ∉ (rounds.foldl (PropertyGraph.dropBetween label) g).schema.eSchemas.map
          Prod.fst := by
  induction rounds generalizing g with
  | nil => exact ⟨.refl h, fun _ hround => absurd hround not_mem_nil⟩
  | cons round rest ih =>
    rw [forall_mem_cons] at hrounds
    obtain ⟨hstep, hgone⟩ := h.dropBetween hlabel hrounds.1.1 hrounds.1.2
    obtain ⟨hrest, hrestGone⟩ := ih hstep.aligned hrounds.2
    refine ⟨(hstep.mono ?_).trans (hrest.mono ?_), ?_⟩
    · exact fun index hindex => ⟨round, mem_cons_self, hindex⟩
    · rintro index ⟨other, hother, hindex⟩
      exact ⟨other, mem_cons_of_mem _ hother, hindex⟩
    · exact forall_mem_cons.mpr ⟨fun index hindex => hrest.notMem (hgone index hindex), hrestGone⟩

section

variable {label : String} {id : Nat} (hid : g.schema.vlabelIndexer.index label = some id)
include hid

/-- After the loops no edge type has the label. -/
theorem Aligned.dropIncident : ∃ gone : Nat → Prop, Thinned gone g (g.dropIncident id) ∧
      (∀ p ∈ g.schema.eSchemas, gone p.1 → p.2.srcLabelName = label ∨ p.2.dstLabelName = label) ∧
      ∀ p ∈ (g.dropIncident id).schema.eSchemas,
        p.2.srcLabelName ≠ label ∧ p.2.dstLabelName ≠ label := by
  have hbounds : ∀ round ∈ (range g.vertexLabelTotalCount).product
      (range g.edgeLabelTotalCount), round.1 < kLabelNum ∧ round.2 < kLabelNum := by
    rintro ⟨other, edge⟩ hround
    obtain ⟨hother, hedge⟩ := pair_mem_product.mp hround
    rw [mem_range, h.vTotal] at hother
    rw [mem_range, h.eTotal] at hedge
    exact ⟨hother.trans h.schema.roomy.vertex, hedge.trans h.schema.roomy.edge⟩
  have hlabel := h.schema.vertex_lt hid
  obtain ⟨hthinned, hgone⟩ := h.foldl_dropBetween hlabel hbounds
  refine ⟨_, hthinned, ?_, ?_⟩
  · rintro p hp ⟨round, hround, hincident⟩
    obtain ⟨hother, hedge⟩ := hbounds round hround
    obtain ⟨src, dst, edge, hids⟩ := h.schema.types p hp
    rcases hincident with hindex | hindex
    · obtain ⟨rfl, -, -⟩ := h.schema.ids_eq hids hother hedge hindex
      exact .inl (eq_of_index hids.src_eq hid)
    · obtain ⟨-, rfl, -⟩ := h.schema.ids_eq hids hlabel hedge hindex
      exact .inr (eq_of_index hids.dst_eq hid)
  · intro p hp
    have hold := hthinned.types p hp
    obtain ⟨src, dst, edge, hids⟩ := h.schema.types p hold
    have hround : ∀ {name other}, g.schema.vlabelIndexer.index name = some other →
        (other, edge) ∈ (range g.vertexLabelTotalCount).product
          (range g.edgeLabelTotalCount) := by
      intro name other hother
      refine pair_mem_product.mpr ⟨?_, ?_⟩
      · rw [mem_range, h.vTotal]
        exact lt_of_index hother
      · rw [mem_range, h.eTotal]
        exact lt_of_index hids.edge_eq
    constructor
    · rintro rfl
      obtain rfl : src = id := Option.some.inj (hids.src_eq.symm.trans hid)
      exact hgone _ (hround hids.dst_eq) p.1 (.inl hids.index_eq) (mem_map_of_mem hp)
    · rintro rfl
      obtain rfl : dst = id := Option.some.inj (hids.dst_eq.symm.trans hid)
      exact hgone _ (hround hids.src_eq) p.1 (.inr hids.index_eq) (mem_map_of_mem hp)

theorem Aligned.deleteVertexLabel
    (hunused : ∀ p ∈ g.schema.eSchemas, p.2.srcLabelName ≠ label ∧ p.2.dstLabelName ≠ label)
    {g' : PropertyGraph V E VT ET} (hschema : g'.schema = g.schema.deleteVertexLabel id)
    (hvertices : g'.vertexTables = g.vertexTables.set id none)
    (hedges : g'.edgeTables = g.edgeTables)
    (hvTotal : g'.vertexLabelTotalCount = g.vertexLabelTotalCount)
    (heTotal : g'.edgeLabelTotalCount = g.edgeLabelTotalCount) :
    g'.Aligned ∧ g'.vertexTable = update g.vertexTable label none ∧ g'.edgeTable = g.edgeTable := by
  have hindex := h.schema.deleteVertexLabel_index hid
  have hkeys : (g.schema.deleteVertexLabel id).vlabelIndexer.keys = g.schema.vlabelIndexer.keys ∧
      (g.schema.deleteVertexLabel id).elabelIndexer = g.schema.elabelIndexer ∧
      (g.schema.deleteVertexLabel id).eSchemas = g.schema.eSchemas := by
    unfold Schema.deleteVertexLabel
    split
    · exact ⟨rfl, rfl, rfl⟩
    · exact ⟨remove_keys _ _, rfl, rfl⟩
  rw [← hschema] at hindex hkeys
  refine h.changeVertex (hschema ▸ h.schema.deleteVertexLabel hid hunused) ?_ ?_ ?_ hkeys.2.2 hedges
    (fun name hname => ?_) (fun name hname other hother => ?_) ?_ fun other hother => ?_
  · rw [hvertices, length_set, hkeys.1]
    exact h.slots
  · rw [hvTotal, hkeys.1]
    exact h.vTotal
  · rw [heTotal, hkeys.2.1]
    exact h.eTotal
  · rw [hindex, update_of_ne hname]
  · have hne : id ≠ other := by
      rintro rfl
      exact hname (eq_of_index hother hid)
    rw [tableAt, tableAt, hvertices, getElem?_set_ne hne]
  · rw [hindex, update_self]
    rfl
  · rw [hindex, update_self] at hother
    cases hother

end

/-- `DeleteVertexType` drops the tables of the label and of its edge types, or changes
nothing. -/
theorem Aligned.deleteVertexType (label : String) : (∃ e, g.deleteVertexType label = .failed e g) ∨
      ∃ g', g.deleteVertexType label = .done g' ∧ g'.Aligned ∧
        g'.named = g.named.dropVertex label := by
  unfold PropertyGraph.deleteVertexType
  cases hid : g.schema.vlabelIndexer.index label with
  | none => exact .inl ⟨_, rfl⟩
  | some id =>
    obtain ⟨gone, hthinned, hgone, hleft⟩ := h.dropIncident hid
    have hid' : (g.dropIncident id).schema.vlabelIndexer.index label = some id := by
      rw [hthinned.vLabels]
      exact hid
    generalize hdrop : g.dropIncident id = mid at *
    simp only [hdrop]
    refine .inr ⟨_, rfl, ?_⟩
    obtain ⟨haligned, hvertex, hedge⟩ := @Aligned.deleteVertexLabel _ _ _ _ mid
      hthinned.aligned label id hid' hleft
      { mid with
        schema := mid.schema.deleteVertexLabel id
        vertexTables := mid.vertexTables.set id none
        dirty := mid.dirty.setVertex id false } rfl rfl rfl rfl rfl
    refine ⟨haligned, ?_⟩
    have hedges : mid.edgeTable = (g.named.dropVertex label).edge := by
      refine hthinned.aligned.edgeTable_ext (fun p hp => ?_) fun name hnone => ?_
      · exact (hthinned.edgeTable_of_mem h hp).trans
          (if_neg (not_or.mpr (hleft p hp) : ¬(p.2.name.1 = label ∨ p.2.name.2.1 = label))).symm
      · change (if name.1 = label ∨ name.2.1 = label then none else g.edgeTable name) = none
        split
        · rfl
        next hname =>
          refine h.edgeTable_eq_none fun p hp hpname => ?_
          subst hpname
          exact hnone p (hthinned.others p hp fun hin => hname (hgone p hp hin)) rfl
    rw [named, hvertex, hedge, hedges, hthinned.vertexTable_eq h]
    rfl

end

/-! ### Slots are never given back -/

section

variable (g : PropertyGraph V E VT ET)

theorem slotsLe_deleteEdgeTypeAt (src dst edge : Nat) :
    g.schema.SlotsLe (g.deleteEdgeTypeAt src dst edge).schema := by
  unfold deleteEdgeTypeAt
  rw [(eraseEdgeTable_frame _ _).1]
  exact g.schema.slotsLe_deleteEdgeLabel src dst edge

variable {g} in
/-- What dropping an edge type keeps, the loops of `DeleteVertexType` keep. -/
theorem dropIncident_keeps {P : PropertyGraph V E VT ET → Prop}
    (hdrop : ∀ g src dst edge, P g → P (g.deleteEdgeTypeAt src dst edge)) (hg : P g)
    (label : Nat) : P (g.dropIncident label) := by
  have htriplet : ∀ g src dst edge, P g → P (g.dropTriplet src dst edge) := by
    intro g src dst edge hg
    unfold dropTriplet
    split
    · exact hdrop g src dst edge hg
    · exact hg
  refine foldlRecOn _ _ hg fun g hg round _ => ?_
  unfold dropBetween
  split
  · exact htriplet _ _ _ _ (htriplet _ _ _ _ hg)
  · exact hg

theorem slotsLe_deleteVertexType (label : String) :
    g.schema.SlotsLe (g.deleteVertexType label).state.schema := by
  unfold deleteVertexType
  split
  · exact .refl _
  next id hid =>
    have hdrop := dropIncident_keeps (P := fun g' => g.schema.SlotsLe g'.schema)
      (fun g' src dst edge hle => hle.trans (g'.slotsLe_deleteEdgeTypeAt src dst edge)) (.refl _) id
    exact hdrop.trans (Schema.slotsLe_deleteVertexLabel _ id)

theorem slotsLe_deleteEdgeType (name : EdgeName) :
    g.schema.SlotsLe (g.deleteEdgeType name).state.schema := by
  unfold deleteEdgeType
  split
  · exact .refl _
  · exact .refl _
  · exact .refl _
  · exact g.slotsLe_deleteEdgeTypeAt _ _ _

theorem slotsLe_createVertexType (fresh : VT) (label : String) (temporary : Bool) (info : V) :
    g.schema.SlotsLe (g.createVertexType fresh label temporary info).state.schema := by
  unfold createVertexType
  split
  · exact .refl _
  split
  · exact .refl _
  next schema id hadd => exact Schema.slotsLe_addVertexLabel hadd

theorem slotsLe_createEdgeType (fresh : Option VT → Option VT → ET)
    (name : EdgeName) (temporary : Bool) (info : E) :
    g.schema.SlotsLe (g.createEdgeType fresh name temporary info).state.schema := by
  unfold createEdgeType
  split
  · exact .refl _
  · exact .refl _
  split
  · exact .refl _
  split
  · exact .refl _
  split
  · exact .refl _
  next schema index hadd =>
    have hle := Schema.slotsLe_addEdgeLabel hadd
    unfold withEdgeType
    split
    · exact hle
    · exact hle

end

end PropertyGraph

end Neug.Storage
