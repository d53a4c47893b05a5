import Neug.Storage.PropertyGraph

/-! # Property graphs by names

Inside a graph the tables stand under ids, which are given up, used again and renumbered.  Seen
through the names of the labels, creating a type adds a table, dropping one removes tables, and
compaction of the schema changes nothing.
-/

namespace Neug.Storage

open Library Function List

def EdgeType.name {E : Type} (e : EdgeType E) : EdgeName :=
  (e.srcLabelName, e.dstLabelName, e.edgeLabelName)

namespace PropertyGraph

variable {V E VT ET : Type} {g g' : PropertyGraph V E VT ET}

structure Aligned (g : PropertyGraph V E VT ET) : Prop where
  schema : g.schema.WellFormed
  slots : g.vertexTables.length = g.schema.vlabelIndexer.keys.length
  vTotal : g.vertexLabelTotalCount = g.schema.vlabelIndexer.keys.length
  eTotal : g.edgeLabelTotalCount = g.schema.elabelIndexer.keys.length
  vertices : ∀ name id, g.schema.vlabelIndexer.index name = some id → (g.tableAt id).isSome
  edges : ∀ index, (g.edgeTables index).isSome ↔ index ∈ g.schema.eSchemas.map Prod.fst

theorem aligned_empty : (empty : PropertyGraph V E VT ET).Aligned where
  schema := {
    roomy := ⟨(by decide : 0 < kLabelNum), (by decide : 0 < kLabelNum)⟩
    vTomb := fun _ => by simp [empty, Schema.empty, NamedSlots.empty]
    eTomb := fun _ => by simp [empty, Schema.empty, NamedSlots.empty]
    vSlots := rfl
    eKeys := nodup_nil
    types := fun _ hp => absurd hp not_mem_nil }
  slots := rfl
  vTotal := rfl
  eTotal := rfl
  vertices := fun _ _ h => by cases h
  edges := fun _ => by simp [empty, Schema.empty]

/-! ### Lookups -/

namespace Aligned

theorem vertexTable_eq (h : g.Aligned) (label : String) :
    g.vertexTable label = (g.schema.vlabelIndexer.index label).bind g.tableAt := by
  rw [vertexTable, h.schema.getVertexLabelId_eq]

theorem vertexTable_isSome_iff (h : g.Aligned) (label : String) :
    (g.vertexTable label).isSome ↔ (g.schema.vlabelIndexer.index label).isSome := by
  rw [h.vertexTable_eq]
  cases hindex : g.schema.vlabelIndexer.index label with
  | none => rfl
  | some id => simp [h.vertices label id hindex]

variable {name : EdgeName}

section

variable (h : g.Aligned)
include h

/-- The names of an edge type and the ids of its labels lead to each other. -/
theorem name_eq_iff {p : Nat × EdgeType E} (hp : p ∈ g.schema.eSchemas)
    {src dst edge : Nat} (hsrc : g.schema.vlabelIndexer.index name.1 = some src)
    (hdst : g.schema.vlabelIndexer.index name.2.1 = some dst)
    (hedge : g.schema.elabelIndexer.index name.2.2 = some edge) :
    p.2.name = name ↔ p.1 = generateEdgeLabel src dst edge := by
  obtain ⟨src', dst', edge', hids⟩ := h.schema.types p hp
  constructor
  · rintro rfl
    rw [hids.index_eq]
    obtain rfl : src' = src := Option.some.inj (hids.src_eq.symm.trans hsrc)
    obtain rfl : dst' = dst := Option.some.inj (hids.dst_eq.symm.trans hdst)
    obtain rfl : edge' = edge := Option.some.inj (hids.edge_eq.symm.trans hedge)
    rfl
  · intro hindex
    obtain ⟨rfl, rfl, rfl⟩ := h.schema.ids_eq hids (h.schema.vertex_lt hdst)
      (h.schema.edge_lt hedge) hindex
    rw [EdgeType.name, NamedSlots.eq_of_index hids.src_eq hsrc,
      NamedSlots.eq_of_index hids.dst_eq hdst, NamedSlots.eq_of_index hids.edge_eq hedge]

theorem edgeIndex_eq_some_iff {index : Nat} :
    g.edgeIndex name = some index ↔ ∃ p ∈ g.schema.eSchemas, p.2.name = name ∧ p.1 = index := by
  unfold edgeIndex
  simp only [h.schema.getVertexLabelId_eq, h.schema.getEdgeLabelId_eq, Option.bind_eq_bind,
    Option.bind_eq_some_iff]
  constructor
  · rintro ⟨src, hsrc, dst, hdst, edge, hedge, hvalid⟩
    split at hvalid
    next htriplet =>
      rw [h.schema.isEdgeTripletValid_iff] at htriplet
      obtain ⟨p, hp, hkey⟩ := mem_map.mp htriplet
      refine ⟨p, hp, (h.name_eq_iff hp hsrc hdst hedge).mpr hkey, ?_⟩
      rw [hkey]
      exact Option.some.inj hvalid
    next => cases hvalid
  · rintro ⟨p, hp, rfl, rfl⟩
    obtain ⟨src, dst, edge, hids⟩ := h.schema.types p hp
    refine ⟨src, hids.src_eq, dst, hids.dst_eq, edge, hids.edge_eq, ?_⟩
    have hvalid : g.schema.isEdgeTripletValid src dst edge = true := by
      rw [h.schema.isEdgeTripletValid_iff, ← hids.index_eq]
      exact mem_map_of_mem hp
    rw [if_pos hvalid, hids.index_eq]

theorem edgeTable_of_mem {p : Nat × EdgeType E} (hp : p ∈ g.schema.eSchemas) :
    g.edgeTable p.2.name = g.edgeTables p.1 := by
  rw [edgeTable, h.edgeIndex_eq_some_iff.mpr ⟨p, hp, rfl, rfl⟩]
  rfl

theorem edgeTable_eq_none (hnone : ∀ p ∈ g.schema.eSchemas, p.2.name ≠ name) :
    g.edgeTable name = none := by
  cases hindex : g.edgeIndex name with
  | none => rw [edgeTable, hindex]; rfl
  | some index =>
    obtain ⟨p, hp, hname, -⟩ := h.edgeIndex_eq_some_iff.mp hindex
    exact absurd hname (hnone p hp)

/-- The edge tables by name, when those of the edge types are known. -/
theorem edgeTable_ext {tables : EdgeName → Option ET}
    (htypes : ∀ p ∈ g.schema.eSchemas, g.edgeTables p.1 = tables p.2.name)
    (hnone : ∀ name, (∀ p ∈ g.schema.eSchemas, p.2.name ≠ name) → tables name = none) :
    g.edgeTable = tables := by
  funext name
  by_cases hname : ∀ p ∈ g.schema.eSchemas, p.2.name ≠ name
  · rw [h.edgeTable_eq_none hname, hnone name hname]
  · push Not at hname
    obtain ⟨p, hp, rfl⟩ := hname
    rw [h.edgeTable_of_mem hp, htypes p hp]

theorem eq_of_name {p q : Nat × EdgeType E} (hp : p ∈ g.schema.eSchemas)
    (hq : q ∈ g.schema.eSchemas) (hname : q.2.name = p.2.name) : q = p := by
  have hp' := h.edgeIndex_eq_some_iff.mpr ⟨p, hp, rfl, rfl⟩
  have hq' := h.edgeIndex_eq_some_iff.mpr ⟨q, hq, hname, rfl⟩
  exact inj_on_of_nodup_map h.schema.eKeys hq hp (Option.some.inj (hq'.symm.trans hp'))

/-- An edge type has the tables of its ends. -/
theorem ends_isSome {table : ET} (htable : g.edgeTable name = some table) :
    (g.vertexTable name.1).isSome ∧ (g.vertexTable name.2.1).isSome := by
  obtain ⟨index, hindex, -⟩ := Option.bind_eq_some_iff.mp htable
  obtain ⟨p, hp, rfl, -⟩ := h.edgeIndex_eq_some_iff.mp hindex
  obtain ⟨src, dst, edge, hids⟩ := h.schema.types p hp
  rw [h.vertexTable_isSome_iff, h.vertexTable_isSome_iff]
  exact ⟨Option.isSome_iff_exists.mpr ⟨src, hids.src_eq⟩,
    Option.isSome_iff_exists.mpr ⟨dst, hids.dst_eq⟩⟩

theorem edgeTable_congr (h' : g'.Aligned) (htypes : g'.schema.eSchemas = g.schema.eSchemas)
    (htables : g'.edgeTables = g.edgeTables) : g'.edgeTable = g.edgeTable := by
  refine h'.edgeTable_ext (fun p hp => ?_) fun name hnone => ?_
  · rw [htables, h.edgeTable_of_mem (htypes ▸ hp)]
  · exact h.edgeTable_eq_none (htypes ▸ hnone)

/-- A graph in which only the vertex table of one label is another. -/
theorem changeVertex {label : String} {value : Option VT} (hwf : g'.schema.WellFormed)
    (hslots : g'.vertexTables.length = g'.schema.vlabelIndexer.keys.length)
    (hvTotal : g'.vertexLabelTotalCount = g'.schema.vlabelIndexer.keys.length)
    (heTotal : g'.edgeLabelTotalCount = g'.schema.elabelIndexer.keys.length)
    (htypes : g'.schema.eSchemas = g.schema.eSchemas) (htables : g'.edgeTables = g.edgeTables)
    (hindex : ∀ name ≠ label,
      g'.schema.vlabelIndexer.index name = g.schema.vlabelIndexer.index name)
    (htable : ∀ name ≠ label, ∀ id, g.schema.vlabelIndexer.index name = some id →
      g'.tableAt id = g.tableAt id)
    (hself : (g'.schema.vlabelIndexer.index label).bind g'.tableAt = value)
    (hvalue : ∀ id, g'.schema.vlabelIndexer.index label = some id → value.isSome) :
    g'.Aligned ∧ g'.vertexTable = update g.vertexTable label value ∧
      g'.edgeTable = g.edgeTable := by
  have haligned : g'.Aligned := by
    refine ⟨hwf, hslots, hvTotal, heTotal, fun name id hid => ?_, ?_⟩
    · by_cases hname : name = label
      · subst hname
        have hsome := hvalue id hid
        rwa [← hself, hid] at hsome
      · rw [hindex name hname] at hid
        rw [htable name hname id hid]
        exact h.vertices name id hid
    · rw [htables, htypes]
      exact h.edges
  refine ⟨haligned, funext fun name => ?_, h.edgeTable_congr haligned htypes htables⟩
  rw [haligned.vertexTable_eq]
  by_cases hname : name = label
  · rw [hname, update_self, hself]
  · rw [update_of_ne hname, hindex name hname, h.vertexTable_eq]
    cases hid : g.schema.vlabelIndexer.index name with
    | none => rfl
    | some id => exact htable name hname id hid

/-- A graph in which only the edge table of one type is another. -/
theorem changeEdge {p : Nat × EdgeType E} {table : ET} (hwf : g'.schema.WellFormed)
    (hlabels : g'.schema.vlabelIndexer = g.schema.vlabelIndexer)
    (hvertices : g'.vertexTables = g.vertexTables)
    (hvTotal : g'.vertexLabelTotalCount = g.vertexLabelTotalCount)
    (heTotal : g'.edgeLabelTotalCount = g'.schema.elabelIndexer.keys.length)
    (htables : g'.edgeTables = update g.edgeTables p.1 (some table))
    (htypes : ∀ q, q ∈ g'.schema.eSchemas ↔ q ∈ g.schema.eSchemas ∨ q = p)
    (hother : ∀ q ∈ g.schema.eSchemas, q = p ∨ q.1 ≠ p.1 ∧ q.2.name ≠ p.2.name) :
    g'.Aligned ∧ g'.named = g.named.setEdge p.2.name table := by
  have htableAt : g'.tableAt = g.tableAt := by
    funext label
    rw [tableAt, tableAt, hvertices]
  have haligned : g'.Aligned := by
    refine ⟨hwf, ?_, ?_, heTotal, ?_, fun index => ?_⟩
    · rw [hvertices, hlabels]
      exact h.slots
    · rw [hvTotal, hlabels]
      exact h.vTotal
    · rw [hlabels, htableAt]
      exact h.vertices
    · simp only [htables, mem_map, htypes, or_and_right, exists_or, exists_eq_left]
      by_cases hindex : index = p.1
      · simp [hindex]
      · simp [update_of_ne hindex, h.edges, Ne.symm hindex]
  refine ⟨haligned, ?_⟩
  have hvertex : g'.vertexTable = g.vertexTable := by
    funext label
    rw [haligned.vertexTable_eq, h.vertexTable_eq, hlabels, htableAt]
  have hedge : g'.edgeTable = update g.edgeTable p.2.name (some table) := by
    refine haligned.edgeTable_ext (fun q hq => ?_) fun name hnone => ?_
    · rw [htables]
      by_cases hqp : q = p
      · rw [hqp, update_self, update_self]
      · have hold := ((htypes q).mp hq).resolve_right hqp
        obtain ⟨hkey, hname⟩ := (hother q hold).resolve_left hqp
        rw [update_of_ne hkey, update_of_ne hname, h.edgeTable_of_mem hold]
    · simp only [htypes, or_imp, forall_and, forall_eq] at hnone
      rw [update_of_ne hnone.2.symm, h.edgeTable_eq_none hnone.1]
  rw [named, hvertex, hedge]
  rfl

end

end Aligned

/-! ### Writes of tables -/

theorem tableAt_setVertexTable (g : PropertyGraph V E VT ET) {label : Nat} (table : VT)
    (mark : Bool) (hlabel : label < g.vertexTables.length) (other : Nat) :
    (g.setVertexTable label table mark).tableAt other =
      if other = label then some table else g.tableAt other := by
  unfold tableAt setVertexTable
  by_cases hother : other = label
  · subst hother
    simp [getElem?_set_self hlabel]
  · simp [hother, getElem?_set_ne (Ne.symm hother)]

variable {id : Nat}

section

variable (h : g.Aligned)
include h

theorem Aligned.setVertexTable {label : String}
    (hid : g.schema.vlabelIndexer.index label = some id) (table : VT) (mark : Bool) :
    (g.setVertexTable id table mark).Aligned ∧
      (g.setVertexTable id table mark).named = g.named.setVertex label table := by
  have hlt : id < g.vertexTables.length := h.slots ▸ NamedSlots.lt_of_index hid
  have htable := g.tableAt_setVertexTable table mark hlt
  have hself : (g.schema.vlabelIndexer.index label).bind
      (g.setVertexTable id table mark).tableAt = some table := by
    rw [hid]
    exact (htable id).trans (if_pos rfl)
  obtain ⟨haligned, hvertex, hedge⟩ := @Aligned.changeVertex _ _ _ _ g
    (g.setVertexTable id table mark) h label (some table) h.schema
    ((length_set ..).trans h.slots) h.vTotal h.eTotal rfl rfl (fun _ _ => rfl)
    (fun name hname other hother => by
      rw [htable, if_neg]
      rintro rfl
      exact hname (NamedSlots.eq_of_index hother hid))
    hself fun _ _ => rfl
  refine ⟨haligned, ?_⟩
  rw [named, hedge, hvertex]
  rfl

theorem Aligned.setEdgeTable {p : Nat × EdgeType E} (hp : p ∈ g.schema.eSchemas)
    (table : ET) (mark : Bool) : (g.setEdgeTable p.1 table mark).Aligned ∧
      (g.setEdgeTable p.1 table mark).named = g.named.setEdge p.2.name table := by
  refine h.changeEdge h.schema rfl rfl rfl h.eTotal rfl (fun q => ⟨.inl, ?_⟩) fun q hq => ?_
  · rintro (hq | rfl)
    · exact hq
    · exact hp
  · by_cases hqp : q = p
    · exact .inl hqp
    · exact .inr ⟨fun hkey => hqp (inj_on_of_nodup_map h.schema.eKeys hq hp hkey),
        fun hname => hqp (h.eq_of_name hp hq hname)⟩

/-! ### Creating types -/

omit h in
/-- A table placed in its slot, or behind the last one. -/
theorem getElem?_place {α : Type} {tables : List (Option α)} (table : α)
    (hid : id ≤ tables.length) (other : Nat) :
    ((if id < tables.length then tables.set id (some table)
      else tables ++ [some table])[other]?).join
      = if other = id then some table else (tables[other]?).join := by
  by_cases hlt : id < tables.length
  · rw [if_pos hlt]
    by_cases hother : other = id
    · subst hother
      simp [getElem?_set_self hlt]
    · simp [hother, getElem?_set_ne (Ne.symm hother)]
  · obtain rfl : id = tables.length := Nat.le_antisymm hid (Nat.le_of_not_lt hlt)
    rw [if_neg hlt]
    rcases Nat.lt_trichotomy other tables.length with hother | rfl | hother
    · rw [getElem?_append_left hother, if_neg (Nat.ne_of_lt hother)]
    · simp
    · rw [if_neg (Nat.ne_of_gt hother), getElem?_eq_none (Nat.le_of_lt hother),
        getElem?_eq_none (by simp; omega)]

theorem Aligned.withVertexType {schema : Schema V E} {label : String} (hwf : schema.WellFormed)
    (hadded : NamedSlots.Added g.schema.vlabelIndexer schema.vlabelIndexer label id)
    (hedges : schema.elabelIndexer = g.schema.elabelIndexer)
    (htypes : schema.eSchemas = g.schema.eSchemas)
    (hnone : g.schema.vlabelIndexer.index label = none) (fresh : VT) :
    (g.withVertexType schema id fresh).Aligned ∧
      (g.withVertexType schema id fresh).named = g.named.setVertex label fresh := by
  have hfresh : ∀ name, g.schema.vlabelIndexer.index name ≠ some id := by
    rcases hadded.fresh with hsome | ⟨-, hfresh⟩
    · rw [hnone] at hsome
      cases hsome
    · exact hfresh
  have hplace := @getElem?_place id _ g.vertexTables fresh (h.slots ▸ hadded.le_length)
  have hslots : (g.withVertexType schema id fresh).vertexTables.length =
      schema.vlabelIndexer.keys.length := by
    unfold PropertyGraph.withVertexType
    have hle := hadded.le_length
    rw [hadded.length_eq]
    simp only [h.slots]
    split
    next hlt =>
      rw [length_set, h.slots]
      omega
    next hlt =>
      rw [length_append, length_singleton, h.slots]
      omega
  have hself : (schema.vlabelIndexer.index label).bind
      (g.withVertexType schema id fresh).tableAt = some fresh := by
    rw [hadded.index_self]
    exact (hplace id).trans (if_pos rfl)
  obtain ⟨haligned, hvertex, hedge⟩ := @Aligned.changeVertex _ _ _ _ g
    (g.withVertexType schema id fresh) h label (some fresh) hwf hslots
    (Nat.mod_eq_of_lt hwf.roomy.vertex) (h.eTotal.trans (by rw [← hedges]; rfl)) htypes rfl
    (fun name hname => hadded.index_of_ne hname)
    (fun name _ other hother =>
      (hplace other).trans (if_neg fun (heq : other = id) => hfresh name (heq ▸ hother)))
    hself fun _ _ => rfl
  refine ⟨haligned, ?_⟩
  rw [named, hvertex, hedge]
  rfl

/-- `CreateVertexType` adds a table, or changes nothing. -/
theorem Aligned.createVertexType (fresh : VT) (label : String) (temporary : Bool) (info : V) :
    (∃ e, g.createVertexType fresh label temporary info = .failed e g) ∨
      g.vertexTable label = none ∧
        ((g.createVertexType fresh label temporary info).state.schema.Roomy →
          ∃ g', g.createVertexType fresh label temporary info = .done g' ∧ g'.Aligned ∧
            g'.named = g.named.setVertex label fresh) := by
  unfold PropertyGraph.createVertexType
  rw [h.schema.getVertexLabelId_eq]
  split
  · exact .inl ⟨_, rfl⟩
  next hnew =>
    have hnone : g.schema.vlabelIndexer.index label = none := by simpa using hnew
    cases hadd : g.schema.addVertexLabel label temporary info with
    | error e => exact .inl ⟨e, rfl⟩
    | ok r =>
      refine .inr ⟨by rw [h.vertexTable_eq, hnone]; rfl, fun hroomy => ⟨_, rfl, ?_⟩⟩
      have hwf := h.schema.addVertexLabel hadd hroomy
      obtain ⟨ix, hix, hschema⟩ := Schema.addVertexLabel_eq_ok hadd
      rw [hschema] at hwf ⊢
      exact h.withVertexType hwf (NamedSlots.add_added hix) rfl rfl hnone fresh

theorem Aligned.withEdgeType {schema : Schema V E} {index : Nat}
    {type : EdgeType E} (hwf : schema.WellFormed)
    (hlabels : schema.vlabelIndexer = g.schema.vlabelIndexer)
    (htypes : schema.eSchemas = g.schema.eSchemas ++ [(index, type)])
    (hnew : index ∉ g.schema.eSchemas.map Prod.fst)
    (hname : ∀ p ∈ g.schema.eSchemas, p.2.name ≠ type.name) (fresh : ET) :
    ∃ g', g.withEdgeType schema index fresh = .done g' ∧ g'.Aligned ∧
      g'.named = g.named.setEdge type.name fresh := by
  have hfree : g.edgeTables index = none := by
    rw [← Option.not_isSome_iff_eq_none, h.edges]
    exact hnew
  have hnone : ¬(g.edgeTables index).isSome = true := by simp [hfree]
  unfold PropertyGraph.withEdgeType
  simp only [if_neg hnone]
  refine ⟨_, rfl, h.changeEdge (p := (index, type)) hwf hlabels rfl rfl
    (Nat.mod_eq_of_lt hwf.roomy.edge) rfl (fun q => ?_) fun q hq => ?_⟩
  · change q ∈ schema.eSchemas ↔ _
    rw [htypes, mem_append, mem_singleton]
  · exact .inr ⟨fun hkey => hnew (mem_map.mpr ⟨q, hq, hkey⟩), hname q hq⟩

/-- `CreateEdgeType` adds a table made for the tables of its ends, or changes nothing. -/
theorem Aligned.createEdgeType (fresh : Option VT → Option VT → ET)
    (name : EdgeName) (temporary : Bool) (info : E) :
    (∃ e, g.createEdgeType fresh name temporary info = .failed e g) ∨
      ((g.createEdgeType fresh name temporary info).state.schema.Roomy →
        ∃ g', g.createEdgeType fresh name temporary info = .done g' ∧ g'.Aligned ∧
          g'.named = g.named.setEdge name
            (fresh (g.vertexTable name.1) (g.vertexTable name.2.1))) := by
  unfold PropertyGraph.createEdgeType
  rw [h.schema.getVertexLabelId_eq, h.schema.getVertexLabelId_eq, h.vertexTable_eq,
    h.vertexTable_eq]
  cases hsrc : g.schema.vlabelIndexer.index name.1 with
  | none => exact .inl ⟨_, rfl⟩
  | some src =>
  cases hdst : g.schema.vlabelIndexer.index name.2.1 with
  | none => exact .inl ⟨_, rfl⟩
  | some dst =>
  simp only
  split
  · exact .inl ⟨_, rfl⟩
  next habsent =>
  split
  · exact .inl ⟨_, rfl⟩
  cases hadd : g.schema.addEdgeLabel name.1 name.2.1 name.2.2 temporary info with
  | error e => exact .inl ⟨e, rfl⟩
  | ok r =>
    obtain ⟨schema, index⟩ := r
    have hnew := h.schema.addEdgeLabel_new hsrc hdst habsent hadd
    have hname : ∀ p ∈ g.schema.eSchemas, p.2.name ≠ name := by
      rintro p hp rfl
      obtain ⟨src', dst', edge, hids⟩ := h.schema.types p hp
      refine habsent ((h.schema.hasEdgeTriplet_iff hsrc hdst hids.edge_eq).mpr ?_)
      rw [← (h.name_eq_iff hp hsrc hdst hids.edge_eq).mp rfl]
      exact mem_map_of_mem hp
    refine .inr fun hroomy => ?_
    have hschema : schema.Roomy := by
      revert hroomy
      unfold PropertyGraph.withEdgeType
      simp only
      split
      · exact id
      · exact id
    obtain ⟨hwf, hlabels, htypes⟩ := h.schema.addEdgeLabel hsrc hdst hadd hnew hschema
    exact h.withEdgeType hwf hlabels htypes hnew hname _

end

end PropertyGraph

end Neug.Storage
