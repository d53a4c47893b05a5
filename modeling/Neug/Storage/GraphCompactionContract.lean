import Neug.Storage.GraphCompaction
import Neug.Storage.TableCompaction

/-! # What compaction keeps

The tables of a graph are changed by creating and dropping types, by the operations of vertex and
edge tables, and by compaction.  In every graph that is reached, the timestamps of vertex tables are
such that leading entries may go, and the counters of edge tables are exact.  Compaction then
keeps what every reader sees, brings nothing back, and never finds a counter to be wrong.
-/

namespace Neug.Storage

open Library

/-- A graph; of an edge type the schema has the sort key. -/
abbrev StoredGraph := PropertyGraph Unit (Option String) VertexTable CountedTable

/-- The room that a graph makes for the vertices of a table. -/
def vertexRoom (table : Option VertexTable) : Nat :=
  max ((table.map fun vt => vt.indexer.capacity).getD 0) 4096

/-- The edge table that `CreateEdgeType` makes. -/
def freshEdgeTable (outType inType : CsrType) (properties : List DataType) (table : List Column)
    (capacity : Nat) (src dst : Option VertexTable) : CountedTable :=
  let reserved := (EdgeTable.created outType inType properties).reserveVertices
    (vertexRoom src) (vertexRoom dst)
  ⟨{ reserved with table := table, capacity := capacity }, 0, 0⟩

/-- `Compact` of the edge table, with an order when there is a sort key. -/
def compactStored (order : NbrSort) (sortKey : Option String) (t : CountedTable) :
    Attempt CompactError CountedTable :=
  t.compact (sortKey.map fun _ => order)

namespace StoredGraph

def compact (g : StoredGraph) (order : NbrSort) : Attempt CompactError StoredGraph :=
  PropertyGraph.compact VertexTable.compact (compactStored order) g

/-- The changes of a graph.  An operation of the graph that writes several tables is several
steps, and one that fails half way is those before the failure. -/
inductive Step : StoredGraph → StoredGraph → Prop where
  | createVertexType (g : StoredGraph) (fresh : VertexTable) (label : String) (temporary : Bool)
      (hfresh : fresh.vts.removed = ∅) :
      Step g (g.createVertexType fresh label temporary ()).state
  | createEdgeType (g : StoredGraph) (outType inType : CsrType) (properties : List DataType)
      (table : List Column) (capacity : Nat) (name : EdgeName) (temporary : Bool)
      (sortKey : Option String) :
      Step g (g.createEdgeType (freshEdgeTable outType inType properties table capacity) name
        temporary sortKey).state
  | deleteVertexType (g : StoredGraph) (label : String) : Step g (g.deleteVertexType label).state
  | deleteEdgeType (g : StoredGraph) (name : EdgeName) : Step g (g.deleteEdgeType name).state
  | writeVertices (g : StoredGraph) (label : String) (id : Nat) (vt : VertexTable)
      (ops : List VertexOp) (mark : Bool) (hid : g.schema.getVertexLabelId label = some id)
      (htable : g.tableAt id = some vt) :
      Step g (g.setVertexTable id (ops.foldl VertexOp.run vt) mark)
  /-- Calls of an operation of an edge table; the ends of new edges are vertices. -/
  | writeEdges (g : StoredGraph) (name : EdgeName) (index : Nat) (t t' : CountedTable)
      (src dst : VertexTable) (mark : Bool)
      (hindex : g.edgeIndex name = some index) (htable : g.edgeTables index = some t)
      (hsrc : g.vertexTable name.1 = some src) (hdst : g.vertexTable name.2.1 = some dst)
      (hwritten : t.Written src.indexer.capacity dst.indexer.capacity t') :
      Step g (g.setEdgeTable index t' mark)
  | compact (g : StoredGraph) (order : NbrSort) : Step g (g.compact order).state

def Reached : StoredGraph → Prop :=
  Reachable (fun g => g = PropertyGraph.empty) Step

end StoredGraph

/-! ### Tables in order -/

structure NamedTables.InOrder (n : NamedTables VertexTable CountedTable) : Prop where
  separated : ∀ label vt, n.vertex label = some vt → vt.vts.Separated
  exact : ∀ name t src dst, n.edge name = some t → n.vertex name.1 = some src →
    n.vertex name.2.1 = some dst → t.Exact src.indexer.capacity dst.indexer.capacity

namespace NamedTables

variable {n n' : NamedTables VertexTable CountedTable}

variable {vt : VertexTable} {label : String}

section

variable (h : n.InOrder)
include h

/-- A table with at least the room of the one before, unless no edge type has the label. -/
theorem InOrder.setVertex (hvt : vt.vts.Separated)
    (hold : ∀ name t, n.edge name = some t → label = name.1 ∨ label = name.2.1 →
      ∃ old, n.vertex label = some old ∧ old.indexer.capacity ≤ vt.indexer.capacity) :
    (n.setVertex label vt).InOrder := by
  constructor
  · intro other vt' hother
    by_cases hlabel : other = label
    · rw [hlabel, setVertex_self] at hother
      cases hother
      exact hvt
    · rw [setVertex_of_ne _ hlabel] at hother
      exact h.separated other vt' hother
  · intro name t src dst ht hsrc hdst
    have hbefore : ∀ {other vt'}, other = name.1 ∨ other = name.2.1 →
        (n.setVertex label vt).vertex other = some vt' → ∃ before,
          n.vertex other = some before ∧ before.indexer.capacity ≤ vt'.indexer.capacity := by
      intro other vt' hend hother
      by_cases hlabel : other = label
      · rw [hlabel, setVertex_self] at hother
        cases hother
        exact hlabel ▸ hold name t ht (hlabel ▸ hend)
      · rw [setVertex_of_ne _ hlabel] at hother
        exact ⟨vt', hother, le_rfl⟩
    obtain ⟨src', hsrc', hsrcLe⟩ := hbefore (.inl rfl) hsrc
    obtain ⟨dst', hdst', hdstLe⟩ := hbefore (.inr rfl) hdst
    exact (h.exact name t src' dst' ht hsrc' hdst').mono hsrcLe hdstLe

theorem InOrder.setEdge {name : EdgeName} {t : CountedTable}
    (ht : ∀ src dst, n.vertex name.1 = some src → n.vertex name.2.1 = some dst →
      t.Exact src.indexer.capacity dst.indexer.capacity) : (n.setEdge name t).InOrder := by
  refine ⟨h.separated, fun other t' src dst hother hsrc hdst => ?_⟩
  by_cases hname : other = name
  · rw [hname, setEdge_self] at hother
    cases hother
    rw [hname] at hsrc hdst
    exact ht src dst hsrc hdst
  · rw [setEdge_of_ne _ hname] at hother
    exact h.exact other t' src dst hother hsrc hdst

theorem InOrder.dropEdge (name : EdgeName) : (n.dropEdge name).InOrder := by
  refine ⟨h.separated, fun other t src dst hother hsrc hdst => ?_⟩
  by_cases hname : other = name
  · rw [hname, dropEdge_self] at hother
    cases hother
  · rw [dropEdge_of_ne _ hname] at hother
    exact h.exact other t src dst hother hsrc hdst

theorem InOrder.dropVertex (label : String) : (n.dropVertex label).InOrder := by
  have hleft : ∀ {other vt}, (n.dropVertex label).vertex other = some vt →
      n.vertex other = some vt := by
    intro other vt hother
    by_cases hlabel : other = label
    · rw [hlabel, dropVertex_self] at hother
      cases hother
    · rwa [dropVertex_of_ne _ hlabel] at hother
  refine ⟨fun other vt hother => h.separated other vt (hleft hother), ?_⟩
  intro name t src dst ht hsrc hdst
  unfold NamedTables.dropVertex at ht
  simp only at ht
  split at ht
  · cases ht
  · exact h.exact name t src dst ht (hleft hsrc) (hleft hdst)

end

/-- The same labels have tables; every reader of a table sees what it saw before, and the same
is not deleted. -/
structure KeptBy (n n' : NamedTables VertexTable CountedTable) : Prop where
  vertex : ∀ label, Option.Rel VertexTable.KeptBy (n.vertex label) (n'.vertex label)
  edge : ∀ name, Option.Rel (fun t t' => t.edges.KeptBy t'.edges) (n.edge name) (n'.edge name)

theorem KeptBy.refl (n : NamedTables VertexTable CountedTable) : n.KeptBy n := by
  constructor
  · intro label
    cases n.vertex label with
    | none => exact .none
    | some vt => exact .some (.refl vt)
  · intro name
    cases n.edge name with
    | none => exact .none
    | some t => exact .some (.refl t.edges)

theorem KeptBy.setVertex (h : n.KeptBy n') {old : VertexTable} (hold : n'.vertex label = some old)
    (hvt : old.KeptBy vt) : n.KeptBy (n'.setVertex label vt) := by
  refine ⟨fun other => ?_, h.edge⟩
  have hother := h.vertex other
  by_cases hlabel : other = label
  · subst hlabel
    rw [hold] at hother
    obtain ⟨first, hfirst, hkept⟩ := exists_of_rel_some hother
    rw [setVertex_self, hfirst]
    exact .some (hkept.trans hvt)
  · rw [setVertex_of_ne _ hlabel]
    exact hother

theorem KeptBy.setEdge (h : n.KeptBy n') {name : EdgeName} {old t : CountedTable}
    (hold : n'.edge name = some old) (ht : old.edges.KeptBy t.edges) :
    n.KeptBy (n'.setEdge name t) := by
  refine ⟨h.vertex, fun other => ?_⟩
  have hother := h.edge other
  by_cases hname : other = name
  · subst hname
    rw [hold] at hother
    obtain ⟨first, hfirst, hkept⟩ := exists_of_rel_some hother
    rw [setEdge_self, hfirst]
    exact .some (hkept.trans ht)
  · rw [setEdge_of_ne _ hname]
    exact hother

end NamedTables

namespace StoredGraph

open PropertyGraph

variable {g g' : StoredGraph}

/-- The error does not say that an edge count is wrong. -/
def NoEdgeCount (e : CompactError) : Prop :=
  ∀ expected actual, e ≠ .inconsistentEdgeCount expected actual

theorem labelErrors_noEdgeCount : Schema.LabelErrors NoEdgeCount where
  addVertexLabel _ _ _ h := by cases h
  addEdgeLabel _ _ _ h := by cases h
  labelOverflow _ _ h := by cases h
  endless _ _ h := by cases h

/-! ### One table -/

/-- A structure without entries, with room for some vertices. -/
theorem exact_reserved (type : CsrType) (vnum bound other : Nat) : CountedCsr.Exact bound other
      ⟨if (⟨type, 0, fun _ => []⟩ : Csr).size < vnum then
        (⟨type, 0, fun _ => []⟩ : Csr).resize vnum else ⟨type, 0, fun _ => []⟩, 0⟩ := by
  have hempty : CountedCsr.Exact 0 0 ⟨⟨type, 0, fun _ => []⟩, 0⟩ := by
    have hedges := Csr.edges_cleared ⟨type, 0, fun _ => []⟩
    refine ⟨⟨fun _ _ => rfl, fun _ _ => Nat.zero_le _⟩, fun e he => ?_, fun _ => ?_⟩
    · exact absurd he (Multiset.notMem_zero e)
    · rfl
  split
  · have hresized := @CountedCsr.Exact.run _ _ 0 0 hempty (.resize vnum) (Nat.zero_le _) rfl
    exact hresized.mono (Nat.zero_le _) (Nat.zero_le _)
  · exact hempty.mono (Nat.zero_le _) (Nat.zero_le _)

theorem exact_freshEdgeTable (outType inType : CsrType) (properties : List DataType)
    (table : List Column) (capacity : Nat) (src dst : Option VertexTable)
    (srcBound dstBound : Nat) :
    (freshEdgeTable outType inType properties table capacity src dst).Exact srcBound dstBound := by
  have hcsrs : (EdgeTable.created outType inType properties).outCsr = ⟨outType, 0, fun _ => []⟩ ∧
      (EdgeTable.created outType inType properties).inCsr = ⟨inType, 0, fun _ => []⟩ := by
    unfold EdgeTable.created
    simp only
    split
    · exact ⟨rfl, rfl⟩
    · exact ⟨rfl, rfl⟩
  unfold freshEdgeTable EdgeTable.reserveVertices
  simp only [hcsrs.1, hcsrs.2]
  exact ⟨exact_reserved outType _ _ _, exact_reserved inType _ _ _⟩

/-- Compaction of the tables keeps them in order and keeps what readers see. -/
theorem tablesMeet (n : NamedTables VertexTable CountedTable) (order : NbrSort) :
    TablesMeet VertexTable.compact (compactStored order)
      (fun n' => n'.InOrder ∧ n.KeptBy n' ∧
        ∀ name t, n'.edge name = some t → (n'.vertex name.1).isSome ∧ (n'.vertex name.2.1).isSome)
      NoEdgeCount where
  vertex n' label vt h hvt := by
    obtain ⟨horder, hkept, hends⟩ := h
    have hsep := horder.separated label vt hvt
    refine ⟨horder.setVertex hsep.compact fun _ _ _ _ => ⟨vt, hvt, le_rfl⟩,
      hkept.setVertex hvt (VertexTable.keptBy_compact hsep), fun name t ht => ?_⟩
    have hsome : ∀ other, (n'.vertex other).isSome →
        ((n'.setVertex label vt.compact).vertex other).isSome := by
      intro other hother
      by_cases hlabel : other = label
      · rw [hlabel, NamedTables.setVertex_self]
        rfl
      · rwa [NamedTables.setVertex_of_ne _ hlabel]
    exact ⟨hsome _ (hends name t ht).1, hsome _ (hends name t ht).2⟩
  edge n' name sortKey t h ht := by
    obtain ⟨horder, hkept, hends⟩ := h
    obtain ⟨hsrc, hdst⟩ := hends name t ht
    obtain ⟨src, hsrc⟩ := Option.isSome_iff_exists.mp hsrc
    obtain ⟨dst, hdst⟩ := Option.isSome_iff_exists.mp hdst
    obtain ⟨hkeptTable, hexact, herror⟩ :=
      (horder.exact name t src dst ht hsrc hdst).compact (sortKey.map fun _ => order)
    refine ⟨⟨?_, hkept.setEdge ht hkeptTable, fun other t' ht' => ?_⟩, ?_⟩
    · refine horder.setEdge fun src' dst' hsrc' hdst' => ?_
      rw [hsrc] at hsrc'
      rw [hdst] at hdst'
      cases hsrc'
      cases hdst'
      exact hexact
    · by_cases hname : other = name
      · rw [hname]
        exact hends name t ht
      · rw [NamedTables.setEdge_of_ne _ hname] at ht'
        exact hends other t' ht'
    · intro e t' hfailed expected actual hcount
      rw [herror e t' hfailed] at hcount
      cases hcount

/-! ### Reached graphs -/

/-- What holds of every graph that is reached.  Once the values of a `label_t` are used up,
nothing is said about the tables: compaction leaves such a graph alone. -/
structure Sound (g : StoredGraph) : Prop where
  vSlots : g.schema.vSchemas.length = g.schema.vlabelIndexer.keys.length
  aligned : g.schema.Roomy → g.Aligned ∧ g.named.InOrder

theorem Sound.of_slotsLe (h : g.Sound) (hle : g.schema.SlotsLe g'.schema)
    (hstep : g.Aligned → g.named.InOrder → g'.schema.Roomy → g'.Aligned ∧ g'.named.InOrder) :
    g'.Sound := by
  refine ⟨hle.vSlots h.vSlots, fun hroomy => ?_⟩
  obtain ⟨haligned, horder⟩ := h.aligned (hroomy.of_slotsLe hle)
  exact hstep haligned horder hroomy

theorem inOrder_of_outcome {result : Attempt SchemaError StoredGraph}
    {n : NamedTables VertexTable CountedTable} (haligned : g.Aligned) (horder : g.named.InOrder)
    (h : (∃ e, result = .failed e g) ∨ ∃ g', result = .done g' ∧ g'.Aligned ∧ g'.named = n)
    (hn : n.InOrder) : result.state.Aligned ∧ result.state.named.InOrder := by
  rcases h with ⟨e, rfl⟩ | ⟨g', rfl, haligned', rfl⟩
  · exact ⟨haligned, horder⟩
  · exact ⟨haligned', hn⟩

/-- Compaction of a graph that is sound. -/
theorem Sound.compact (h : g.Sound) (order : NbrSort) :
    (g.compact order).state.Sound ∧ g.named.KeptBy (g.compact order).state.named ∧
      ∀ e g', g.compact order = .failed e g' → NoEdgeCount e := by
  unfold StoredGraph.compact
  by_cases hroomy : g.schema.Roomy
  · obtain ⟨haligned, horder⟩ := h.aligned hroomy
    obtain ⟨⟨haligned', horder', hkept, -⟩, herror⟩ := haligned.compact (tablesMeet g.named order)
      ⟨horder, .refl _, fun _ _ ht => haligned.ends_isSome ht⟩
    exact ⟨⟨haligned'.schema.vSlots, fun _ => ⟨haligned', horder'⟩⟩, hkept, herror⟩
  · obtain ⟨e, hcompact, he⟩ := @compact_of_not_roomy _ _ _ _ g VertexTable.compact
      (compactStored order) NoEdgeCount labelErrors_noEdgeCount h.vSlots hroomy
    rw [hcompact]
    refine ⟨⟨h.vSlots, fun hroomy' => absurd hroomy' hroomy⟩, .refl _, fun e' g' hfailed => ?_⟩
    cases hfailed
    exact he

theorem Sound.step (h : g.Sound) (hstep : Step g g') : g'.Sound := by
  cases hstep with
  | createVertexType fresh label temporary hfresh =>
    refine h.of_slotsLe (g.slotsLe_createVertexType ..) fun haligned horder hroomy => ?_
    rcases haligned.createVertexType fresh label temporary () with hfailed | ⟨hnone, hnext⟩
    · exact inOrder_of_outcome haligned horder (.inl hfailed) horder
    · refine inOrder_of_outcome haligned horder (.inr (hnext hroomy))
        (horder.setVertex (fun v hv => ?_) fun name t ht hend => ?_)
      · rw [hfresh] at hv
        exact absurd hv (Finset.notMem_empty v)
      · obtain ⟨hsrc, hdst⟩ := haligned.ends_isSome ht
        have hsome : (g.vertexTable label).isSome := by
          rcases hend with rfl | rfl
          · exact hsrc
          · exact hdst
        rw [hnone] at hsome
        cases hsome
  | createEdgeType outType inType properties table capacity name temporary sortKey =>
    refine h.of_slotsLe (g.slotsLe_createEdgeType ..) fun haligned horder hroomy => ?_
    have houtcome := haligned.createEdgeType
      (freshEdgeTable outType inType properties table capacity) name temporary sortKey
    exact inOrder_of_outcome haligned horder (houtcome.imp_right fun hnext => hnext hroomy)
      (horder.setEdge fun _ _ _ _ => exact_freshEdgeTable ..)
  | deleteVertexType label =>
    refine h.of_slotsLe (g.slotsLe_deleteVertexType label) fun haligned horder _ => ?_
    exact inOrder_of_outcome haligned horder (haligned.deleteVertexType label)
      (horder.dropVertex label)
  | deleteEdgeType name =>
    refine h.of_slotsLe (g.slotsLe_deleteEdgeType name) fun haligned horder _ => ?_
    exact inOrder_of_outcome haligned horder (haligned.deleteEdgeType name) (horder.dropEdge name)
  | writeVertices label id vt ops mark hid htable =>
    refine h.of_slotsLe (.refl _) fun haligned horder _ => ?_
    rw [haligned.schema.getVertexLabelId_eq] at hid
    obtain ⟨haligned', hnamed⟩ := haligned.setVertexTable hid (ops.foldl VertexOp.run vt) mark
    have hold : g.named.vertex label = some vt := by
      change g.vertexTable label = _
      rw [haligned.vertexTable_eq, hid]
      exact htable
    have hkeeps := vt.keeps_runs ops
    refine ⟨haligned', ?_⟩
    rw [hnamed]
    exact horder.setVertex (hkeeps.separated (horder.separated label vt hold)) fun _ _ _ _ =>
      ⟨vt, hold, hkeeps.capacity⟩
  | writeEdges name index t t' src dst mark hindex htable hsrc hdst hwritten =>
    refine h.of_slotsLe (.refl _) fun haligned horder _ => ?_
    obtain ⟨p, hp, rfl, rfl⟩ := haligned.edgeIndex_eq_some_iff.mp hindex
    obtain ⟨haligned', hnamed⟩ := haligned.setEdgeTable hp t' mark
    have hold : g.named.edge p.2.name = some t :=
      (haligned.edgeTable_of_mem hp).trans htable
    refine ⟨haligned', ?_⟩
    rw [hnamed]
    refine horder.setEdge fun src' dst' hsrc' hdst' => ?_
    obtain rfl : src = src' := Option.some.inj (hsrc.symm.trans hsrc')
    obtain rfl : dst = dst' := Option.some.inj (hdst.symm.trans hdst')
    exact (horder.exact _ t src dst hold hsrc hdst).written hwritten
  | compact order => exact (h.compact order).1

theorem Reached.sound (h : Reached g) : g.Sound := by
  refine Reachable.invariant Sound ?_ (fun s s' _ hs hstep => hs.step hstep) h
  rintro g rfl
  refine ⟨rfl, fun _ => ⟨aligned_empty, ⟨fun label vt hvt => ?_, fun name t src dst ht => ?_⟩⟩⟩
  · cases hvt
  · cases ht

/-- An operation of an edge table that gets through is a step, with some counters after it. -/
theorem Reached.edgeOp (h : Reached g) (hroomy : g.schema.Roomy) {name : EdgeName} {index : Nat}
    {t : CountedTable} {src dst : VertexTable} (hindex : g.edgeIndex name = some index)
    (htable : g.edgeTables index = some t) (hsrc : g.vertexTable name.1 = some src)
    (hdst : g.vertexTable name.2.1 = some dst) {op : EdgeOp}
    (hwithin : op.Within src.indexer.capacity dst.indexer.capacity) {et' : EdgeTable}
    (hrun : op.run t.edges = .ok et') (mark : Bool) :
    ∃ t', t'.edges = et' ∧ Step g (g.setEdgeTable index t' mark) := by
  obtain ⟨haligned, horder⟩ := h.sound.aligned hroomy
  have hold : g.named.edge name = some t := by
    obtain ⟨p, hp, rfl, rfl⟩ := haligned.edgeIndex_eq_some_iff.mp hindex
    exact (haligned.edgeTable_of_mem hp).trans htable
  obtain ⟨t', hedges, hwritten⟩ :=
    (horder.exact name t src dst hold hsrc hdst).exists_written hwithin hrun
  exact ⟨t', hedges, .writeEdges g name index t t' src dst mark hindex htable hsrc hdst hwritten⟩

/-- Compaction of a graph reached by any changes, whether or not it gets through.  The same
labels have tables; every vertex and edge that a reader sees is still seen, with the same ids,
ends and property values; what is seen after it was not deleted before; and it never fails for
a wrong edge count. -/
theorem compact_keeps_visible (h : Reached g) (order : NbrSort) : (∀ label, Option.Rel
      (fun vt vt' => ∀ ts, vt.visible ts ⊆ vt'.visible ts ∧ vt'.visible ts ⊆ vt.undeleted)
      (g.vertexTable label) ((g.compact order).state.vertexTable label)) ∧ (∀ name, Option.Rel
      (fun t t' => ∀ ts < kDeletedTimestamp, t.edges.outgoing ts ≤ t'.edges.outgoing ts ∧
        t'.edges.outgoing ts ≤ t.edges.undeletedOut ∧ t.edges.incoming ts ≤ t'.edges.incoming ts ∧
        t'.edges.incoming ts ≤ t.edges.undeletedIn)
      (g.edgeTable name) ((g.compact order).state.edgeTable name)) ∧
    ∀ expected actual g',
      g.compact order ≠ .failed (.inconsistentEdgeCount expected actual) g' := by
  obtain ⟨-, hkept, herror⟩ := h.sound.compact order
  refine ⟨fun label => ?_, fun name => ?_, fun expected actual g' hfailed => ?_⟩
  · refine rel_mono (fun vt vt' hvisible ts => ⟨hvisible.visible ts, ?_⟩) (hkept.vertex label)
    rw [← hvisible.undeleted]
    exact vt'.visible_subset_undeleted ts
  · refine rel_mono (fun t t' hvisible ts hts =>
      ⟨hvisible.outgoing ts hts, ?_, hvisible.incoming ts hts, ?_⟩) (hkept.edge name)
    · rw [← hvisible.undeletedOut]
      exact t'.edges.outgoing_le_undeletedOut hts
    · rw [← hvisible.undeletedIn]
      exact t'.edges.incoming_le_undeletedIn hts
  · exact herror _ g' hfailed expected actual rfl

/-- The accesses that insert a vertex. -/
def inserting (key : Int) (lid : Nat) : List VertexOp :=
  [.claim, .setKey lid, .publishIndex lid lid, .materialize lid, .publishTs lid].map fun pc =>
    .addVertex firstSlot (.fixed .int64 key) [] 2 pc false

def noVertices : VertexTable :=
  ⟨⟨⟨.fixed .int64, 3, 0, 0, fun _ => .null⟩, fun _ => none, 4, 0⟩,
    ⟨0, 3, Nat.zero_le 3, fun _ => kDeletedTimestamp, ∅⟩, []⟩

/-- Two labels are created, one of them with an edge type, and the other one is dropped. -/
def oneLabel : StoredGraph :=
  (((((PropertyGraph.empty.createVertexType noVertices "a" false ()).state.createVertexType
    noVertices "b" false ()).state.createEdgeType (freshEdgeTable .mutable .mutable [] [] 0)
      ("a", "a", "e") false none).state).deleteVertexType "b").state

/-- Three vertices are inserted, and one of them is deleted. -/
def twoVertices : StoredGraph :=
  oneLabel.setVertexTable 0 ((inserting 7 0 ++ inserting 8 1 ++ inserting 9 2 ++
    [VertexOp.deleteVertex 2 3]).foldl VertexOp.run noVertices) true

theorem reached_twoVertices : Reached twoVertices := by
  have hlabel : Reached oneLabel := ((((Reachable.of_init rfl : Reached .empty).tail
    (.createVertexType _ noVertices "a" false rfl)).tail
    (.createVertexType _ noVertices "b" false rfl)).tail
    (.createEdgeType _ .mutable .mutable [] [] 0 ("a", "a", "e") false none)).tail
    (.deleteVertexType _ "b")
  exact hlabel.tail (.writeVertices _ "a" 0 noVertices _ true (by decide +kernel) rfl)

theorem isSome_vertexTable : (twoVertices.vertexTable "a").isSome = true := by decide +kernel

theorem isSome_edgeTables : (twoVertices.edgeTables 0).isSome = true := by decide +kernel

theorem exists_oneEdge : ∃ (g : StoredGraph) (vt : VertexTable) (t : CountedTable),
    Reached g ∧ g.schema.Roomy ∧ g.vertexTable "b" = none ∧ g.vertexTable "a" = some vt ∧
      g.edgeTable ("a", "a", "e") = some t ∧ vt.lidNum = 3 ∧
      (1, .fixed .int64 8, []) ∈ vt.visible 3 ∧ t.edges.outgoing 3 = {(0, 1, [])} := by
  have hroomy : twoVertices.schema.Roomy := ⟨by decide +kernel, by decide +kernel⟩
  have hindex : twoVertices.edgeIndex ("a", "a", "e") = some 0 := by decide +kernel
  have hvertices := (Option.some_get isSome_vertexTable).symm
  obtain ⟨et', hrun, hout⟩ : ∃ et', (EdgeOp.addEdge 0 1 [] ⟨2, by decide⟩ false).run
      ((twoVertices.edgeTables 0).get isSome_edgeTables).edges = .ok et' ∧
        et'.outgoing 3 = {(0, 1, [])} := ⟨_, rfl, by decide +kernel⟩
  obtain ⟨t, rfl, hstep⟩ := reached_twoVertices.edgeOp hroomy hindex
    (Option.some_get isSome_edgeTables).symm hvertices hvertices
    (show EdgeOp.Within _ _ (.addEdge 0 1 [] _ false) from ⟨by decide +kernel, by decide +kernel⟩)
    hrun true
  refine ⟨_, _, t, reached_twoVertices.tail hstep, hroomy, ?_, hvertices, ?_, by decide +kernel,
    ⟨1, by decide +kernel, by decide +kernel, by decide +kernel⟩, hout⟩
  · change twoVertices.vertexTable "b" = none
    decide +kernel
  · change (twoVertices.edgeIndex ("a", "a", "e")).bind _ = _
    rw [hindex]
    simp [setEdgeTable]

/-- Three vertices, one of them deleted, and an edge between the others; a second label was
dropped. -/
theorem compact_keeps_visible_edge : ∃ (g : StoredGraph) (order : NbrSort) (vt vt' : VertexTable)
    (t t' : CountedTable), Reached g ∧ g.vertexTable "b" = none ∧
      g.vertexTable "a" = some vt ∧ (g.compact order).state.vertexTable "a" = some vt' ∧
      g.edgeTable ("a", "a", "e") = some t ∧
      (g.compact order).state.edgeTable ("a", "a", "e") = some t' ∧
      vt.lidNum = 3 ∧ (1, .fixed .int64 8, []) ∈ vt.visible 3 ∧ vt.visible 3 ⊆ vt'.visible 3 ∧
      t.edges.outgoing 3 = {(0, 1, [])} ∧ t.edges.outgoing 3 ≤ t'.edges.outgoing 3 := by
  obtain ⟨g, vt, t, hreached, -, hb, ha, he, hnum, hvisible, hout⟩ := exists_oneEdge
  let order : NbrSort := ⟨id, fun _ => List.Perm.refl _⟩
  obtain ⟨hvertices, hedges, -⟩ := compact_keeps_visible hreached order
  have hvertex := hvertices "a"
  have hedge := hedges ("a", "a", "e")
  rw [ha] at hvertex
  rw [he] at hedge
  generalize hvt' : (g.compact order).state.vertexTable "a" = after at hvertex
  generalize ht' : (g.compact order).state.edgeTable ("a", "a", "e") = after' at hedge
  cases hvertex with
  | @some _ vt' hvertex =>
    cases hedge with
    | @some _ t' hedge =>
      exact ⟨g, order, vt, vt', t, t', hreached, hb, ha, hvt', he, ht', hnum, hvisible,
        (hvertex 3).1, hout, (hedge 3 (by decide)).1⟩

/-- In every graph that is reached, while there are label ids left, the ends of an edge type have
tables, with room for the ends of its edges, and its edge counters are exact. -/
theorem edge_tables_exact (h : Reached g) (hroomy : g.schema.Roomy) {name : EdgeName}
    {t : CountedTable} (ht : g.edgeTable name = some t) : ∃ src dst,
      g.vertexTable name.1 = some src ∧ g.vertexTable name.2.1 = some dst ∧
      t.Exact src.indexer.capacity dst.indexer.capacity := by
  obtain ⟨haligned, horder⟩ := h.sound.aligned hroomy
  obtain ⟨hsrc, hdst⟩ := haligned.ends_isSome ht
  obtain ⟨src, hsrc⟩ := Option.isSome_iff_exists.mp hsrc
  obtain ⟨dst, hdst⟩ := Option.isSome_iff_exists.mp hdst
  exact ⟨src, dst, hsrc, hdst, horder.exact name t src dst ht hsrc hdst⟩

/-- The counters of a table with an edge. -/
theorem edge_tables_exact_oneEdge : ∃ (g : StoredGraph) (t : CountedTable) (bound : Nat),
    g.edgeTable ("a", "a", "e") = some t ∧ t.edges.outgoing 3 = {(0, 1, [])} ∧
      t.Exact bound bound := by
  obtain ⟨g, vt, t, hreached, hroomy, -, -, he, -, -, hout⟩ := exists_oneEdge
  obtain ⟨src, dst, hsrc, hdst, hexact⟩ := edge_tables_exact hreached hroomy he
  cases hsrc.symm.trans hdst
  exact ⟨g, t, _, he, hout, hexact⟩

end StoredGraph

end Neug.Storage
