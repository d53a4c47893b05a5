import Neug.Library.NamedSlots
import Neug.Storage.CountedCsr

/-! # Labels of the schema

Vertex and edge labels have ids of type `label_t`, which are reused after a label is dropped;
an edge type is known by the id that is put together from the ids of its source, destination
and edge label.  Compaction of the schema drops the ids of dropped labels and numbers the
others anew, in their order.  The loops over label ids count in a `label_t` themselves.
-/

namespace Neug.Storage

open Library Function NamedSlots List

abbrev LabelIndexer := NamedSlots String

def kLabelNum : Nat := 256

inductive SchemaError where
  | labelOverflow
  | vertexLabelExists
  | vertexLabelNotFound (name : String)
  | edgeLabelNotFound (name : String)
  | sourceMissing (name : String)
  | destinationMissing (name : String)
  | edgeExists (src dst edge : String)
  | persistentEdge (edge : String)
  | edgeLabelIdConflict
  | vertices (error : VertexError)
  | edges (error : EdgeError)
  deriving DecidableEq, Repr

/-- A vertex type in the schema; `info` is what labels do not depend on. -/
structure VertexType (V : Type) where
  labelName : String
  temporary : Bool
  info : V

structure EdgeType (E : Type) where
  srcLabelName : String
  dstLabelName : String
  edgeLabelName : String
  temporary : Bool
  info : E

/-- The labels of a schema.  The marks of dropped labels are bitsets that have a bit for every
label that was ever added. -/
structure Schema (V E : Type) where
  vlabelIndexer : LabelIndexer
  elabelIndexer : LabelIndexer
  vSchemas : List (Option (VertexType V))
  eSchemas : List (Nat × EdgeType E)
  vlabelTomb : Nat → Bool
  elabelTomb : Nat → Bool
  elabelTripletTomb : Nat → Bool

def generateEdgeLabel (src dst edge : Nat) : Nat := (src * 256 + dst) * 256 + edge

def parseEdgeLabel (index : Nat) : Nat × Nat × Nat :=
  (index / 65536 % 256, index / 256 % 256, index % 256)

namespace Schema

variable {V E : Type}

def empty : Schema V E where
  vlabelIndexer := .empty
  elabelIndexer := .empty
  vSchemas := []
  eSchemas := []
  vlabelTomb := fun _ => false
  elabelTomb := fun _ => false
  elabelTripletTomb := fun _ => false

/-! ### Questions -/

variable (s : Schema V E)

/-- `vertex_label_frontier`: the number of slots, as a `label_t`. -/
def vertexLabelFrontier : Nat := s.vlabelIndexer.keys.length % kLabelNum

def edgeLabelFrontier : Nat := s.elabelIndexer.keys.length % kLabelNum

def isVertexLabelValid (label : Nat) : Bool :=
  label < s.vlabelIndexer.keys.length && !s.vlabelTomb label

def isEdgeLabelValid (label : Nat) : Bool :=
  label < s.elabelIndexer.keys.length && !s.elabelTomb label

section

variable (label : String)

/-- `get_vertex_label_id`, which fails for a label that is not valid. -/
def getVertexLabelId : Option Nat :=
  (s.vlabelIndexer.index label).filter fun id => !s.vlabelTomb id

def getEdgeLabelId : Option Nat :=
  (s.elabelIndexer.index label).filter fun id => !s.elabelTomb id

def edgeSchema (index : Nat) : Option (EdgeType E) :=
  (s.eSchemas.find? fun p => p.1 = index).map Prod.snd

def isEdgeTripletValid (src dst edge : Nat) : Bool :=
  let index := generateEdgeLabel src dst edge
  !s.elabelTripletTomb index && (s.edgeSchema index).isSome

/-- `has_edge_triplet`; the marks of dropped edge labels are not looked at. -/
def hasEdgeTriplet (src dst edge : String) : Bool :=
  match s.getVertexLabelId src, s.getVertexLabelId dst, s.elabelIndexer.index edge with
  | some src, some dst, some edge => (s.edgeSchema (generateEdgeLabel src dst edge)).isSome
  | _, _, _ => false

def isVertexLabelTemporary (label : Nat) : Bool :=
  match s.vSchemas[label]? with
  | some (some v) => v.temporary
  | _ => false

/-! ### Changes -/

def vertexLabelToIndex : Except SchemaError (Schema V E × Nat) :=
  match s.vlabelIndexer.add kLabelNum label with
  | none => .error .labelOverflow
  | some (ix, id) =>
    .ok ({ s with
      vlabelIndexer := ix
      vSchemas := s.vSchemas ++ replicate (id + 1 - s.vSchemas.length) none }, id)

def edgeLabelToIndex : Except SchemaError (Schema V E × Nat) :=
  match s.elabelIndexer.add kLabelNum label with
  | none => .error .labelOverflow
  | some (ix, id) => .ok ({ s with elabelIndexer := ix }, id)

def addVertexLabel (temporary : Bool) (info : V) : Except SchemaError (Schema V E × Nat) := do
  let (s, id) ← s.vertexLabelToIndex label
  .ok ({ s with
    vlabelTomb := update s.vlabelTomb id false
    vSchemas := s.vSchemas.set id (some ⟨label, temporary, info⟩) }, id)

end

/-- The edge types with one that is new; of one that is there only the flag is written. -/
def emplaceEdgeType (types : List (Nat × EdgeType E)) (index : Nat) (e : EdgeType E) :
    List (Nat × EdgeType E) :=
  if types.any fun p => p.1 = index then
    types.map fun p => if p.1 = index then (p.1, { p.2 with temporary := e.temporary }) else p
  else types ++ [(index, e)]

def addEdgeLabel (src dst edge : String) (temporary : Bool) (info : E) :
    Except SchemaError (Schema V E × Nat) := do
  let (s, srcId) ← s.vertexLabelToIndex src
  let (s, dstId) ← s.vertexLabelToIndex dst
  let (s, edgeId) ← s.edgeLabelToIndex edge
  let index := generateEdgeLabel srcId dstId edgeId
  .ok ({ s with
    elabelTomb := update s.elabelTomb edgeId false
    eSchemas := emplaceEdgeType s.eSchemas index ⟨src, dst, edge, temporary, info⟩
    elabelTripletTomb := update s.elabelTripletTomb index false }, index)

/-- The name in a slot: `get_key`. -/
def keyOf (ix : LabelIndexer) (label : Nat) : String := ix.keys.getD label ""

def deleteVertexLabel (label : Nat) : Schema V E :=
  if s.vlabelTomb label then s
  else
    { s with
      vSchemas := s.vSchemas.set label none
      vlabelIndexer := s.vlabelIndexer.remove (keyOf s.vlabelIndexer label)
      vlabelTomb := update s.vlabelTomb label true }

def edgeLabelUsed (edge : Nat) : Bool :=
  s.eSchemas.any fun p => s.elabelIndexer.index p.2.edgeLabelName = some edge

def dropEdgeLabel (edge : Nat) : Schema V E :=
  if s.edgeLabelUsed edge || s.elabelTomb edge then s
  else
    { s with
      elabelTomb := update s.elabelTomb edge true
      elabelIndexer := s.elabelIndexer.remove (keyOf s.elabelIndexer edge) }

def eraseEdgeType (index : Nat) : Schema V E :=
  { s with
    eSchemas := s.eSchemas.filter fun p => p.1 ≠ index
    elabelTripletTomb := update s.elabelTripletTomb index true }

def deleteEdgeLabel (src dst edge : Nat) : Schema V E :=
  if (s.edgeSchema (generateEdgeLabel src dst edge)).isSome then
    (s.eraseEdgeType (generateEdgeLabel src dst edge)).dropEdgeLabel edge
  else s

/-! ### Compaction -/

/-- The ids of the labels that are not dropped, in their order. -/
def validLabels (bound : Nat) (tomb : Nat → Bool) : List Nat :=
  (range bound).filter fun label => !tomb label

/-- A round of the loops of `Compact` over labels. -/
def addLabel (duplicate : String → CompactError) (ix : LabelIndexer) (name : String) :
    Except CompactError LabelIndexer :=
  if (ix.index name).isSome then .error (duplicate name)
  else
    match ix.add kLabelNum name with
    | none => .error .labelOverflow
    | some (ix, _) => .ok ix

/-- The loops of `Compact` over labels. -/
def compactLabels (duplicate : String → CompactError) (ix : LabelIndexer) (bound : Nat)
    (tomb : Nat → Bool) : Except CompactError LabelIndexer :=
  let names := (validLabels bound tomb).map (keyOf ix)
  if bound < kLabelNum then names.foldlM (addLabel duplicate) .empty
  else do
    -- the counter goes from 255 back to 0
    let _ ← (names ++ names).foldlM (addLabel duplicate) .empty
    .error .endless

def keepsEdgeType (p : Nat × EdgeType E) : Bool :=
  let (src, dst, edge) := parseEdgeLabel p.1
  !s.vlabelTomb src && !s.vlabelTomb dst && !s.elabelTomb edge && s.isEdgeTripletValid src dst edge

def renumber (missing : String → CompactError) (old new : LabelIndexer) (label : Nat) :
    Except CompactError Nat :=
  match new.index (keyOf old label) with
  | some label => .ok label
  | none => .error (missing (keyOf old label))

def renumberEdgeType (vlabels elabels : LabelIndexer) (p : Nat × EdgeType E) :
    Except CompactError (Nat × EdgeType E) := do
  let (src, dst, edge) := parseEdgeLabel p.1
  let src ← renumber .getVertexLabel s.vlabelIndexer vlabels src
  let dst ← renumber .getVertexLabel s.vlabelIndexer vlabels dst
  let edge ← renumber .getEdgeLabel s.elabelIndexer elabels edge
  .ok (generateEdgeLabel src dst edge, p.2)

def compact : Except CompactError (Schema V E) := do
  let vlabels ← compactLabels .addVertexLabel s.vlabelIndexer s.vSchemas.length s.vlabelTomb
  let elabels ← compactLabels .addEdgeLabel s.elabelIndexer s.elabelIndexer.keys.length
    s.elabelTomb
  let types ← (s.eSchemas.filter s.keepsEdgeType).mapM (s.renumberEdgeType vlabels elabels)
  .ok
    { vlabelIndexer := vlabels
      elabelIndexer := elabels
      vSchemas := (validLabels s.vSchemas.length s.vlabelTomb).map fun label =>
        (s.vSchemas[label]?).join
      eSchemas := types
      vlabelTomb := fun _ => false
      elabelTomb := fun _ => false
      elabelTripletTomb := fun _ => false }

/-! ### Well-formed schemas -/

structure TypeIds (s : Schema V E) (p : Nat × EdgeType E) (src dst edge : Nat) : Prop where
  src_eq : s.vlabelIndexer.index p.2.srcLabelName = some src
  dst_eq : s.vlabelIndexer.index p.2.dstLabelName = some dst
  edge_eq : s.elabelIndexer.index p.2.edgeLabelName = some edge
  index_eq : p.1 = generateEdgeLabel src dst edge
  valid : s.elabelTripletTomb p.1 = false

/-- Not all values of a `label_t` are used as ids. -/
structure Roomy (s : Schema V E) : Prop where
  vertex : s.vlabelIndexer.keys.length < kLabelNum
  edge : s.elabelIndexer.keys.length < kLabelNum

/-- What creating and dropping types keeps, as long as there is room. -/
structure WellFormed (s : Schema V E) : Prop where
  roomy : s.Roomy
  vTomb : ∀ label, s.vlabelTomb label = true ↔ label ∈ s.vlabelIndexer.free
  eTomb : ∀ label, s.elabelTomb label = true ↔ label ∈ s.elabelIndexer.free
  vSlots : s.vSchemas.length = s.vlabelIndexer.keys.length
  eKeys : (s.eSchemas.map Prod.fst).Nodup
  types : ∀ p ∈ s.eSchemas, ∃ src dst edge, s.TypeIds p src dst edge

end Schema

/-- Ids of edge types are put together from ids of labels in one way. -/
theorem generateEdgeLabel_inj {src dst edge src' dst' edge' : Nat} (hdst : dst < kLabelNum)
    (hedge : edge < kLabelNum) (hdst' : dst' < kLabelNum) (hedge' : edge' < kLabelNum)
    (h : generateEdgeLabel src dst edge = generateEdgeLabel src' dst' edge') :
    src = src' ∧ dst = dst' ∧ edge = edge' := by
  unfold generateEdgeLabel at h
  unfold kLabelNum at *
  omega

theorem parseEdgeLabel_generateEdgeLabel {src dst edge : Nat} (hsrc : src < kLabelNum)
    (hdst : dst < kLabelNum) (hedge : edge < kLabelNum) :
    parseEdgeLabel (generateEdgeLabel src dst edge) = (src, dst, edge) := by
  unfold parseEdgeLabel generateEdgeLabel
  unfold kLabelNum at *
  ext
  · omega
  · simp only
    omega
  · simp only
    omega

namespace Schema

variable {V E : Type} {s s' : Schema V E}

variable {temporary : Bool} {label : String} {index : Nat} {edge src dst : String} {id : Nat}
  {name : String} {srcId dstId : Nat} {info : V}

/-- The edge type of an id, found in the list. -/
theorem edgeSchema_eq_some_iff (hkeys : (s.eSchemas.map Prod.fst).Nodup) {e : EdgeType E} :
    s.edgeSchema index = some e ↔ (index, e) ∈ s.eSchemas := by
  unfold edgeSchema
  rw [Option.map_eq_some_iff]
  constructor
  · rintro ⟨p, hfind, rfl⟩
    have hkey : p.1 = index := by simpa using find?_some hfind
    rw [← hkey]
    exact mem_of_find?_eq_some hfind
  · intro hmem
    cases hfind : s.eSchemas.find? fun p => decide (p.1 = index) with
    | none => exact absurd (find?_eq_none.mp hfind _ hmem) (by simp)
    | some p =>
      have hkey : p.1 = index := by simpa using find?_some hfind
      have hp := mem_of_find?_eq_some hfind
      refine ⟨p, rfl, ?_⟩
      have hsame : p = (index, e) := inj_on_of_nodup_map hkeys hp hmem hkey
      rw [hsame]

theorem edgeSchema_isSome_iff (s : Schema V E) (index : Nat) :
    (s.edgeSchema index).isSome = true ↔ index ∈ s.eSchemas.map Prod.fst := by
  unfold edgeSchema
  rw [Option.isSome_map, find?_isSome, mem_map]
  constructor
  · rintro ⟨p, hp, hkey⟩
    exact ⟨p, hp, of_decide_eq_true hkey⟩
  · rintro ⟨p, hp, hkey⟩
    exact ⟨p, hp, decide_eq_true hkey⟩

/-! ### Marks of dropped labels -/

section Marks

variable {ix ix' : LabelIndexer} {tomb : Nat → Bool}
  (hmarks : ∀ label, tomb label = true ↔ label ∈ ix.free)
include hmarks

theorem mark_of_index (hid : ix.index name = some id) : tomb id = false := by
  rw [← Bool.not_eq_true, hmarks]
  exact notMem_free_of_index hid

theorem filter_index (label : String) :
    ((ix.index label).filter fun id => !tomb id) = ix.index label := by
  cases hindex : ix.index label with
  | none => rfl
  | some id => simp [Option.filter_some, mark_of_index hmarks hindex]

theorem marks_added (h : Added ix ix' label id) (j : Nat) :
    update tomb id false j = true ↔ j ∈ ix'.free := by
  rw [h.mem_free]
  by_cases hj : j = id
  · simp [hj]
  · simp [hj, hmarks]

theorem marks_removed (hfree : ix'.free = id :: ix.free) (j : Nat) :
    update tomb id true j = true ↔ j ∈ ix'.free := by
  rw [hfree, mem_cons]
  by_cases hj : j = id
  · simp [hj]
  · simp [hj, hmarks]

end Marks

namespace WellFormed

section

variable (h : s.WellFormed)
include h

theorem vTomb_of_index (hid : s.vlabelIndexer.index name = some id) : s.vlabelTomb id = false :=
  mark_of_index h.vTomb hid

theorem eTomb_of_index (hid : s.elabelIndexer.index name = some id) : s.elabelTomb id = false :=
  mark_of_index h.eTomb hid

theorem getVertexLabelId_eq (label : String) :
    s.getVertexLabelId label = s.vlabelIndexer.index label :=
  filter_index h.vTomb label

theorem getEdgeLabelId_eq (label : String) :
    s.getEdgeLabelId label = s.elabelIndexer.index label :=
  filter_index h.eTomb label

theorem vertex_lt (hid : s.vlabelIndexer.index name = some id) : id < kLabelNum :=
  (lt_of_index hid).trans h.roomy.vertex

theorem edge_lt (hid : s.elabelIndexer.index name = some id) : id < kLabelNum :=
  (lt_of_index hid).trans h.roomy.edge

theorem isEdgeTripletValid_iff (src dst edge : Nat) : s.isEdgeTripletValid src dst edge = true ↔
      generateEdgeLabel src dst edge ∈ s.eSchemas.map Prod.fst := by
  unfold isEdgeTripletValid
  simp only [Bool.and_eq_true, Bool.not_eq_true', edgeSchema_isSome_iff, and_iff_right_iff_imp]
  intro hmem
  obtain ⟨p, hp, hkey⟩ := mem_map.mp hmem
  obtain ⟨_, _, _, hids⟩ := h.types p hp
  rw [← hkey]
  exact hids.valid

theorem ids_eq {p : Nat × EdgeType E} {src dst edge src' dst' edge' : Nat}
    (hids : s.TypeIds p src dst edge) (hdst : dst' < kLabelNum) (hedge : edge' < kLabelNum)
    (hindex : p.1 = generateEdgeLabel src' dst' edge') : src = src' ∧ dst = dst' ∧ edge = edge' :=
  generateEdgeLabel_inj (h.vertex_lt hids.dst_eq) (h.edge_lt hids.edge_eq) hdst hedge
    (hids.index_eq.symm.trans hindex)

theorem typeIds_of_mem {src dst edge : Nat} {e : EdgeType E}
    (hdst : dst < kLabelNum) (hedge : edge < kLabelNum)
    (hmem : (generateEdgeLabel src dst edge, e) ∈ s.eSchemas) :
    s.TypeIds (generateEdgeLabel src dst edge, e) src dst edge := by
  obtain ⟨src', dst', edge', hids⟩ := h.types _ hmem
  obtain ⟨rfl, rfl, rfl⟩ := h.ids_eq hids hdst hedge rfl
  exact hids

end

end WellFormed

/-! ### Changes keep schemas well formed -/

theorem addVertexLabel_eq_ok (h : s.addVertexLabel label temporary info = .ok (s', id)) :
    ∃ ix, s.vlabelIndexer.add kLabelNum label = some (ix, id) ∧
      s' = { s with
        vlabelIndexer := ix
        vlabelTomb := update s.vlabelTomb id false
        vSchemas := (s.vSchemas ++ replicate (id + 1 - s.vSchemas.length) none).set id
          (some ⟨label, temporary, info⟩) } := by
  obtain ⟨⟨mid, id'⟩, hindex, h⟩ := bind_eq_ok.mp h
  cases h
  unfold vertexLabelToIndex at hindex
  split at hindex
  · cases hindex
  next ix id' hadd =>
    cases hindex
    exact ⟨ix, hadd, rfl⟩

theorem WellFormed.addVertexLabel (h : s.WellFormed)
    (hadd : s.addVertexLabel label temporary info = .ok (s', id)) (hroomy : s'.Roomy) :
    s'.WellFormed := by
  obtain ⟨ix, hix, rfl⟩ := addVertexLabel_eq_ok hadd
  have hadded := add_added hix
  refine ⟨hroomy, marks_added h.vTomb hadded, h.eTomb, ?_, h.eKeys, ?_⟩
  · rw [hadded.length_eq, length_set, length_append, length_replicate, h.vSlots]
    omega
  · intro p hp
    obtain ⟨src, dst, edge, hids⟩ := h.types p hp
    exact ⟨src, dst, edge, hadded.index_of_index hids.src_eq, hadded.index_of_index hids.dst_eq,
      hids.edge_eq, hids.index_eq, hids.valid⟩

theorem WellFormed.vertexLabelToIndex_eq (h : s.WellFormed)
    (hindex : s.vlabelIndexer.index label = some id) :
    s.vertexLabelToIndex label = .ok (s, id) := by
  have hlt := lt_of_index hindex
  rw [← h.vSlots] at hlt
  unfold vertexLabelToIndex
  rw [add_of_index hindex]
  simp [Nat.sub_eq_zero_of_le hlt]

section

variable (h : s.WellFormed) {info : E} (hsrc : s.vlabelIndexer.index src = some srcId)
  (hdst : s.vlabelIndexer.index dst = some dstId)
include h hsrc hdst

theorem WellFormed.addEdgeLabel_eq_ok
    (hadd : s.addEdgeLabel src dst edge temporary info = .ok (s', index)) :
    ∃ ix edgeId, s.elabelIndexer.add kLabelNum edge = some (ix, edgeId) ∧
      index = generateEdgeLabel srcId dstId edgeId ∧
      s' = { s with
        elabelIndexer := ix
        elabelTomb := update s.elabelTomb edgeId false
        eSchemas := emplaceEdgeType s.eSchemas (generateEdgeLabel srcId dstId edgeId)
          ⟨src, dst, edge, temporary, info⟩
        elabelTripletTomb :=
          update s.elabelTripletTomb (generateEdgeLabel srcId dstId edgeId) false } := by
  obtain ⟨first, hfirst, hadd⟩ := bind_eq_ok.mp hadd
  rw [h.vertexLabelToIndex_eq hsrc] at hfirst
  cases hfirst
  obtain ⟨second, hsecond, hadd⟩ := bind_eq_ok.mp hadd
  rw [h.vertexLabelToIndex_eq hdst] at hsecond
  cases hsecond
  obtain ⟨⟨mid, edgeId⟩, hindex, hadd⟩ := bind_eq_ok.mp hadd
  unfold edgeLabelToIndex at hindex
  split at hindex
  · cases hindex
  next ix edgeId' hix =>
    cases hindex
    cases hadd
    exact ⟨ix, _, hix, rfl, rfl⟩

/-- `has_edge_triplet` finds an edge type by its names. -/
theorem WellFormed.hasEdgeTriplet_iff {edgeId : Nat}
    (hedge : s.elabelIndexer.index edge = some edgeId) : s.hasEdgeTriplet src dst edge = true ↔
      generateEdgeLabel srcId dstId edgeId ∈ s.eSchemas.map Prod.fst := by
  unfold hasEdgeTriplet
  rw [h.getVertexLabelId_eq, h.getVertexLabelId_eq, hsrc, hdst, hedge]
  exact edgeSchema_isSome_iff s _

/-- The id of an edge type that is not there is new. -/
theorem WellFormed.addEdgeLabel_new (habsent : s.hasEdgeTriplet src dst edge ≠ true)
    (hadd : s.addEdgeLabel src dst edge temporary info = .ok (s', index)) :
    index ∉ s.eSchemas.map Prod.fst := by
  obtain ⟨ix, edgeId, hix, rfl, -⟩ := h.addEdgeLabel_eq_ok hsrc hdst hadd
  have hadded := add_added hix
  intro hmem
  rcases hadded.fresh with hsome | ⟨-, hfresh⟩
  · exact habsent ((h.hasEdgeTriplet_iff hsrc hdst hsome).mpr hmem)
  · obtain ⟨p, hp, hkey⟩ := mem_map.mp hmem
    obtain ⟨src', dst', edge', hids⟩ := h.types p hp
    have hslot : edgeId < kLabelNum := by
      have hlimit := length_le_of_add hix
      have hlength := hadded.length_eq
      have hroom := h.roomy.edge
      omega
    -- the id names a slot that no edge label has
    have hsame : edge' = edgeId := (h.ids_eq hids (h.vertex_lt hdst) hslot hkey).2.2
    exact hfresh _ (hsame ▸ hids.edge_eq)

theorem WellFormed.addEdgeLabel
    (hadd : s.addEdgeLabel src dst edge temporary info = .ok (s', index))
    (hnew : index ∉ s.eSchemas.map Prod.fst) (hroomy : s'.Roomy) :
    s'.WellFormed ∧ s'.vlabelIndexer = s.vlabelIndexer ∧
      s'.eSchemas = s.eSchemas ++ [(index, ⟨src, dst, edge, temporary, info⟩)] := by
  obtain ⟨ix, edgeId, hix, rfl, rfl⟩ := h.addEdgeLabel_eq_ok hsrc hdst hadd
  have hadded := add_added hix
  have htypes : emplaceEdgeType s.eSchemas _ ⟨src, dst, edge, temporary, info⟩ = _ :=
    if_neg fun hany => by
      obtain ⟨p, hp, hkey⟩ := any_eq_true.mp hany
      exact hnew (mem_map.mpr ⟨p, hp, of_decide_eq_true hkey⟩)
  refine ⟨⟨hroomy, h.vTomb, marks_added h.eTomb hadded, h.vSlots, ?_, ?_⟩, rfl, htypes⟩
  · rw [htypes, map_append, nodup_append]
    refine ⟨h.eKeys, nodup_singleton _, ?_⟩
    intro k hk k' hk' heq
    rw [heq, mem_singleton.mp hk'] at hk
    exact hnew hk
  · intro p hp
    rw [htypes] at hp
    rcases mem_append.mp hp with hold | hlast
    · obtain ⟨src', dst', edge', hold'⟩ := h.types p hold
      have hne : p.1 ≠ generateEdgeLabel srcId dstId edgeId :=
        fun heq => hnew (heq ▸ mem_map_of_mem hold)
      exact ⟨src', dst', edge', hold'.src_eq, hold'.dst_eq,
        hadded.index_of_index hold'.edge_eq, hold'.index_eq,
        (update_of_ne hne _ _).trans hold'.valid⟩
    · rw [mem_singleton.mp hlast]
      exact ⟨srcId, dstId, edgeId, hsrc, hdst, hadded.index_self, rfl, update_self _ _ _⟩

end

/-- The name in a slot that is in use finds the slot. -/
theorem index_keyOf {ix : LabelIndexer} {label : Nat} (h : ix.index name = some label) :
    keyOf ix label = name := by
  unfold keyOf
  rw [getD_eq_getElem?_getD, ((ix.index_iff name label).mp h).1]
  rfl

theorem WellFormed.eraseEdgeType (h : s.WellFormed) (index : Nat) :
    (s.eraseEdgeType index).WellFormed where
  roomy := ⟨h.roomy.vertex, h.roomy.edge⟩
  vTomb := h.vTomb
  eTomb := h.eTomb
  vSlots := h.vSlots
  eKeys := h.eKeys.sublist (Sublist.map _ filter_sublist)
  types := by
    intro p hp
    obtain ⟨hmem, hne⟩ := mem_filter.mp hp
    obtain ⟨src, dst, edge, hids⟩ := h.types p hmem
    exact ⟨src, dst, edge, hids.src_eq, hids.dst_eq, hids.edge_eq, hids.index_eq,
      (update_of_ne (of_decide_eq_true hne) _ _).trans hids.valid⟩

theorem WellFormed.dropEdgeLabel (h : s.WellFormed) {edge : Nat}
    (hedge : s.elabelIndexer.index name = some edge) : (s.dropEdgeLabel edge).WellFormed := by
  unfold Schema.dropEdgeLabel
  split
  · exact h
  next hunused =>
    rw [Bool.or_eq_true, not_or, Bool.not_eq_true, Bool.not_eq_true] at hunused
    rw [index_keyOf hedge]
    obtain ⟨hkeys, hindex, hfree⟩ := remove_of_index hedge
    refine ⟨⟨h.roomy.vertex, ?_⟩, h.vTomb, marks_removed h.eTomb hfree, h.vSlots, h.eKeys, ?_⟩
    · simp only [hkeys]
      exact h.roomy.edge
    · intro p hp
      obtain ⟨src, dst, edge', hids⟩ := h.types p hp
      refine ⟨src, dst, edge', hids.src_eq, hids.dst_eq, ?_, hids.index_eq, hids.valid⟩
      have hne : p.2.edgeLabelName ≠ name := by
        intro heq
        have hused : s.edgeLabelUsed edge = true :=
          any_eq_true.mpr ⟨p, hp, by simp [heq, hedge]⟩
        rw [hunused.1] at hused
        cases hused
      simp only [hindex, update_of_ne hne]
      exact hids.edge_eq

@[simp] theorem dropEdgeLabel_vlabelIndexer (s : Schema V E) (edge : Nat) :
    (s.dropEdgeLabel edge).vlabelIndexer = s.vlabelIndexer := by
  unfold dropEdgeLabel
  split <;> rfl

@[simp] theorem dropEdgeLabel_eSchemas (s : Schema V E) (edge : Nat) :
    (s.dropEdgeLabel edge).eSchemas = s.eSchemas := by
  unfold dropEdgeLabel
  split <;> rfl

section

variable (s : Schema V E) (src dst edge : Nat)

theorem deleteEdgeLabel_vlabelIndexer :
    (s.deleteEdgeLabel src dst edge).vlabelIndexer = s.vlabelIndexer := by
  unfold deleteEdgeLabel
  split
  · simp [eraseEdgeType]
  · rfl

theorem deleteEdgeLabel_eSchemas : (s.deleteEdgeLabel src dst edge).eSchemas =
      s.eSchemas.filter fun p => p.1 ≠ generateEdgeLabel src dst edge := by
  unfold deleteEdgeLabel
  split
  · simp [eraseEdgeType]
  next hnone =>
    rw [edgeSchema_isSome_iff] at hnone
    refine (filter_eq_self.mpr fun p hp => ?_).symm
    rw [decide_eq_true_eq]
    exact fun heq => hnone (heq ▸ mem_map_of_mem hp)

theorem deleteEdgeLabel_eSlots :
    (s.deleteEdgeLabel src dst edge).elabelIndexer.keys = s.elabelIndexer.keys := by
  unfold deleteEdgeLabel
  split
  · unfold dropEdgeLabel
    split
    · rfl
    · exact remove_keys _ _
  · rfl

end

theorem WellFormed.deleteEdgeLabel (h : s.WellFormed) {src dst edge : Nat}
    (hdst : dst < kLabelNum) (hedge : edge < kLabelNum) :
    (s.deleteEdgeLabel src dst edge).WellFormed := by
  unfold Schema.deleteEdgeLabel
  split
  next hsome =>
    rw [edgeSchema_isSome_iff] at hsome
    obtain ⟨p, hp, hkey⟩ := mem_map.mp hsome
    have hmem : (generateEdgeLabel src dst edge, p.2) ∈ s.eSchemas := hkey ▸ hp
    have hids := h.typeIds_of_mem hdst hedge hmem
    exact (h.eraseEdgeType _).dropEdgeLabel hids.edge_eq
  next => exact h

section

variable (h : s.WellFormed) {label : Nat} (hlabel : s.vlabelIndexer.index name = some label)
include h hlabel

theorem WellFormed.deleteVertexLabel
    (hunused : ∀ p ∈ s.eSchemas, p.2.srcLabelName ≠ name ∧ p.2.dstLabelName ≠ name) :
    (s.deleteVertexLabel label).WellFormed := by
  unfold Schema.deleteVertexLabel
  split
  · exact h
  · rw [index_keyOf hlabel]
    obtain ⟨hkeys, hindex, hfree⟩ := remove_of_index hlabel
    refine ⟨⟨?_, h.roomy.edge⟩, marks_removed h.vTomb hfree, h.eTomb, ?_, h.eKeys, ?_⟩
    · simp only [hkeys]
      exact h.roomy.vertex
    · simp only [length_set, hkeys]
      exact h.vSlots
    · intro p hp
      obtain ⟨src, dst, edge, hids⟩ := h.types p hp
      obtain ⟨hsrc, hdst⟩ := hunused p hp
      refine ⟨src, dst, edge, ?_, ?_, hids.edge_eq, hids.index_eq, hids.valid⟩
      · simp only [hindex, update_of_ne hsrc]
        exact hids.src_eq
      · simp only [hindex, update_of_ne hdst]
        exact hids.dst_eq

theorem WellFormed.deleteVertexLabel_index : (s.deleteVertexLabel label).vlabelIndexer.index =
      update s.vlabelIndexer.index name none := by
  unfold Schema.deleteVertexLabel
  rw [if_neg (by simp [h.vTomb_of_index hlabel]), index_keyOf hlabel]
  exact (remove_of_index hlabel).2.1

end

/-! ### Slots are never given back -/

/-- The schema has at least as many slots, and still an entry for every vertex label. -/
structure SlotsLe (s s' : Schema V E) : Prop where
  vertex : s.vlabelIndexer.keys.length ≤ s'.vlabelIndexer.keys.length
  edge : s.elabelIndexer.keys.length ≤ s'.elabelIndexer.keys.length
  vSlots : s.vSchemas.length = s.vlabelIndexer.keys.length →
    s'.vSchemas.length = s'.vlabelIndexer.keys.length

theorem SlotsLe.refl (s : Schema V E) : s.SlotsLe s := ⟨le_rfl, le_rfl, id⟩

theorem SlotsLe.trans {s'' : Schema V E} (h : s.SlotsLe s') (h' : s'.SlotsLe s'') : s.SlotsLe s'' :=
  ⟨h.vertex.trans h'.vertex, h.edge.trans h'.edge, fun hslots => h'.vSlots (h.vSlots hslots)⟩

theorem Roomy.of_slotsLe (h : s'.Roomy) (hle : s.SlotsLe s') : s.Roomy :=
  ⟨hle.vertex.trans_lt h.vertex, hle.edge.trans_lt h.edge⟩

theorem slotsLe_vertexLabelToIndex (h : s.vertexLabelToIndex label = .ok (s', id)) :
    s.SlotsLe s' := by
  unfold vertexLabelToIndex at h
  split at h
  · cases h
  next ix id' hadd =>
    cases h
    have hlength := (add_added hadd).length_eq
    refine ⟨?_, le_rfl, ?_⟩
    · simp only [hlength]
      exact Nat.le_max_left _ _
    · intro hslots
      rw [hlength, length_append, length_replicate, hslots]
      omega

theorem slotsLe_edgeLabelToIndex (h : s.edgeLabelToIndex label = .ok (s', id)) : s.SlotsLe s' := by
  unfold edgeLabelToIndex at h
  split at h
  · cases h
  next ix id' hadd =>
    cases h
    refine ⟨le_rfl, ?_, fun hslots => hslots⟩
    simp only [(add_added hadd).length_eq]
    exact Nat.le_max_left _ _

theorem slotsLe_addVertexLabel (h : s.addVertexLabel label temporary info = .ok (s', id)) :
    s.SlotsLe s' := by
  obtain ⟨⟨mid, id'⟩, hindex, h⟩ := bind_eq_ok.mp h
  cases h
  have hle := slotsLe_vertexLabelToIndex hindex
  exact ⟨hle.vertex, hle.edge, fun hslots => (length_set ..).trans (hle.vSlots hslots)⟩

theorem slotsLe_addEdgeLabel {info : E}
    (h : s.addEdgeLabel src dst edge temporary info = .ok (s', index)) : s.SlotsLe s' := by
  obtain ⟨⟨first, srcId⟩, hfirst, h⟩ := bind_eq_ok.mp h
  obtain ⟨⟨second, dstId⟩, hsecond, h⟩ := bind_eq_ok.mp h
  obtain ⟨⟨third, edgeId⟩, hthird, h⟩ := bind_eq_ok.mp h
  cases h
  have hle := (slotsLe_vertexLabelToIndex hfirst).trans
    ((slotsLe_vertexLabelToIndex hsecond).trans (slotsLe_edgeLabelToIndex hthird))
  exact ⟨hle.vertex, hle.edge, hle.vSlots⟩

theorem slotsLe_deleteVertexLabel (s : Schema V E) (label : Nat) :
    s.SlotsLe (s.deleteVertexLabel label) := by
  unfold deleteVertexLabel
  split
  · exact .refl s
  · refine ⟨?_, le_rfl, ?_⟩
    · simp only [remove_keys]
      exact le_rfl
    · simp only [remove_keys, length_set]
      exact id

theorem slotsLe_deleteEdgeLabel (s : Schema V E) (src dst edge : Nat) :
    s.SlotsLe (s.deleteEdgeLabel src dst edge) := by
  unfold deleteEdgeLabel
  split
  · unfold dropEdgeLabel
    split
    · exact ⟨le_rfl, le_rfl, id⟩
    · refine ⟨le_rfl, ?_, id⟩
      simp only [remove_keys]
      exact le_rfl
  · exact .refl s

end Schema

end Neug.Storage
