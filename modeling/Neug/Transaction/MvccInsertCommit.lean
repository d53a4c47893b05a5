import Neug.Transaction.MvccInsertAtomicity

/-! # What a commit needs in order to complete

For every access of a commit, what it has to find: room in the tables, a key that
is free or deleted, endpoints that are visible, free places in the adjacency
structures.  Along runs in which every access finds that, no commit fails half way.
-/

namespace Neug.Transaction

open Storage Library List

/-! ### Readiness -/

def VertexReady (vt : VertexTable) (oid : Value) (props : List Value) (spurious : Bool) :
    IngestPc → Prop
  | .checkCapacity => vt.indexer.numElements < vt.indexer.capacity ∧ vt.indexer.Accepts oid
  | .probe _ | .publishIndex _ _ | .materialize _ => True
  | .checkValid vid => vt.vts.entry vid = none
  | .claim => vt.indexer.numElements < vt.indexer.capacity
  | .setKey ind => vt.indexer.keys.Fits ind oid ∧ KeyKept vt oid
  | .publishTs vid => vt.vts.entry vid = none ∧ spurious = false
  | .setProp vid col => ∀ v, props[col]? = some v →
      ∃ c, vt.table[col]? = some c ∧ c.Fits vid v
  | _ => False

section

variable (policy : HashPolicy)

def EdgeReady (g : Graph) (ts : Nat) (label : EdgeLabel)
    (src dst : Value) (props : List Value) : IngestPc → Prop
  | .findSrc => g.getLid policy label.src src ts ≠ none
  | .findDst _ => g.getLid policy label.dst dst ts ≠ none
  | .beginEdge _ _ => ∃ et, g.edges label = some et ∧
      (et.isBundled = true ∨ et.properties.length = props.length)
  | .putIn _ dstLid _ => ∃ et, g.edges label = some et ∧ et.inCsr.CanPut dstLid
  | .putOut srcLid _ _ => ∃ et, g.edges label = some et ∧ et.outCsr.CanPut srcLid
  | .setEdgeProp row col => ∃ et, g.edges label = some et ∧ ∀ v, props[col]? = some v →
      ∃ c, et.table[col]? = some c ∧ c.Fits row v
  | _ => False

def Ready (g : Graph) (ts : Nat) (spurious : Bool) (pc : IngestPc) : Redo → Prop
  | .insertVertex label oid props => VertexReady (g.vertices label) oid props spurious pc
  | .insertEdge label src dst props => EdgeReady policy g ts label src dst props pc

instance (vt : VertexTable) (oid : Value) (props : List Value) (spurious : Bool)
    (pc : IngestPc) : Decidable (VertexReady vt oid props spurious pc) :=
  match pc with
  | .checkCapacity =>
    inferInstanceAs (Decidable (vt.indexer.numElements < vt.indexer.capacity ∧ _))
  | .probe _ | .publishIndex _ _ | .materialize _ => .isTrue trivial
  | .checkValid vid => inferInstanceAs (Decidable (vt.vts.entry vid = none))
  | .claim => inferInstanceAs (Decidable (vt.indexer.numElements < vt.indexer.capacity))
  | .setKey ind => inferInstanceAs (Decidable (vt.indexer.keys.Fits ind oid ∧
      Column.stored vt.indexer.keys.type oid = some oid))
  | .publishTs vid => inferInstanceAs (Decidable (vt.vts.entry vid = none ∧ spurious = false))
  | .setProp vid col => inferInstanceAs (Decidable (∀ v ∈ props[col]?,
      ∃ c ∈ vt.table[col]?, c.Fits vid v))
  | .findSrc | .findDst _ | .beginEdge _ _ | .putIn _ _ _ | .putOut _ _ _ | .setEdgeProp _ _ =>
    .isFalse id

instance (g : Graph) (ts : Nat) (label : EdgeLabel) (src dst : Value)
    (props : List Value) (pc : IngestPc) :
    Decidable (EdgeReady policy g ts label src dst props pc) :=
  match pc with
  | .findSrc => inferInstanceAs (Decidable (g.getLid policy label.src src ts ≠ none))
  | .findDst _ => inferInstanceAs (Decidable (g.getLid policy label.dst dst ts ≠ none))
  | .beginEdge _ _ => inferInstanceAs (Decidable (∃ et ∈ g.edges label,
      et.isBundled = true ∨ et.properties.length = props.length))
  | .putIn _ dstLid _ =>
    inferInstanceAs (Decidable (∃ et ∈ g.edges label, et.inCsr.CanPut dstLid))
  | .putOut srcLid _ _ =>
    inferInstanceAs (Decidable (∃ et ∈ g.edges label, et.outCsr.CanPut srcLid))
  | .setEdgeProp row col => inferInstanceAs (Decidable (∃ et ∈ g.edges label,
      ∀ v ∈ props[col]?, ∃ c ∈ et.table[col]?, c.Fits row v))
  | .checkCapacity | .probe _ | .publishIndex _ _ | .materialize _ | .checkValid _ | .claim
  | .setKey _ | .publishTs _ | .setProp _ _ => .isFalse id

instance (g : Graph) (ts : Nat) (spurious : Bool) (pc : IngestPc)
    (r : Redo) : Decidable (Ready policy g ts spurious pc r) :=
  match r with
  | .insertVertex label oid props =>
    inferInstanceAs (Decidable (VertexReady (g.vertices label) oid props spurious pc))
  | .insertEdge label src dst props =>
    inferInstanceAs (Decidable (EdgeReady policy g ts label src dst props pc))

theorem setKeyValue_of_fits {keys : Column} {ind : Nat} {oid : Value} (hlt : ind < keys.size)
    (h : keys.Fits ind oid) : ∃ keys', keys.setKeyValue ind oid = .ok keys' := by
  unfold Column.Fits at h
  unfold Column.setKeyValue
  split
  next width hvarchar =>
    rw [hvarchar] at h
    exact Column.setString_ok h.1 h.2.1 h.2.2
  next => exact ⟨_, if_pos hlt⟩

theorem vertexStep_ready {vt : VertexTable} {oid : Value}
    {props : List Value} {ts : Nat} {pc : IngestPc} {spurious : Bool} (hok : TableOk vt)
    (hpc : PcOk vt ts pc) (h : VertexReady vt oid props spurious pc) (e : TxnError) :
    (vertexStep policy vt oid props ts pc spurious).2 ≠ .failed e := by
  cases pc with
  | checkCapacity =>
    obtain ⟨hroom, haccepts⟩ := h
    simp only [vertexStep, if_neg (Nat.not_le.mpr hroom), if_neg haccepts.1,
      if_neg (not_not.mpr haccepts)]
    split <;> simp
  | probe index =>
    simp only [vertexStep]
    split
    next => simp
    next => split <;> simp
  | checkValid vid =>
    have hinvalid : vt.vts.isVertexValid vid ts = false := by
      apply Bool.eq_false_iff.mpr
      intro hvalid
      obtain ⟨e, he, -⟩ := (vt.vts.isVertexValid_iff vid ts).mp hvalid
      rw [show vt.vts.entry vid = none from h] at he
      cases he
    simp [vertexStep, hinvalid]
  | claim =>
    simp [vertexStep, Nat.not_le.mpr h]
  | setKey ind =>
    obtain ⟨keys, hkeys⟩ := setKeyValue_of_fits hpc.lt_capacity h.1
    simp [vertexStep, hkeys]
  | publishIndex ind index =>
    simp only [vertexStep]
    split <;> simp
  | materialize vid =>
    simp only [vertexStep]
    split
    · split <;> simp
    · simp
  | publishTs vid =>
    obtain ⟨hentry, rfl⟩ := h
    have hlt := Nat.lt_of_lt_of_le (hok.indexed_lt vid hpc.1).2 hok.capacity_le
    obtain ⟨vts, hvts⟩ : ∃ vts, vt.vts.publish vid ts false = .ok vts :=
      VertexTimestamp.publish_of_deleted hpc.2 hlt hentry
    simp [vertexStep, hvts]
  | setProp vid col =>
    simp only [vertexStep]
    cases hv : props[col]? with
    | none => simp
    | some v =>
      obtain ⟨c, hc, hfits⟩ := h v hv
      obtain ⟨c', hset⟩ := Column.setAny_of_fits hfits
      simp [hc, hset]
  | _ => exact absurd h id

end

theorem ingestStep_ready_edge {policy : HashPolicy} {g : Graph} {ts : Nat} {label : EdgeLabel}
    {src dst : Value} {props : List Value} {pc : IngestPc} (spurious : Bool)
    (h : EdgeReady policy g ts label src dst props pc) (e : TxnError) :
    (ingestStep policy g ts (.insertEdge label src dst props) pc spurious).2 ≠ .failed e := by
  cases pc with
  | findSrc | findDst srcLid =>
    obtain ⟨lid, hlid⟩ := Option.ne_none_iff_exists'.mp h
    simp [ingestStep, hlid]
  | beginEdge srcLid dstLid =>
    obtain ⟨et, het, hshape⟩ := h
    simp only [ingestStep, het, edgeStep]
    split
    next => simp
    next hbundled => simp [hshape.resolve_left hbundled]
  | putIn srcLid dstLid row =>
    obtain ⟨et, het, hcan⟩ := h
    obtain ⟨csr, hput⟩ := Csr.putEdge_of_canPut hcan srcLid (edgeData props row) ts
    simp [ingestStep, het, edgeStep, hput]
  | putOut srcLid dstLid row =>
    obtain ⟨et, het, hcan⟩ := h
    obtain ⟨csr, hput⟩ := Csr.putEdge_of_canPut hcan dstLid (edgeData props row) ts
    simp only [ingestStep, het, edgeStep, hput]
    cases row <;> simp
  | setEdgeProp row col =>
    obtain ⟨et, het, hfits⟩ := h
    simp only [ingestStep, het, edgeStep]
    cases hv : props[col]? with
    | none => simp
    | some v =>
      obtain ⟨c, hc, hfits⟩ := hfits v hv
      obtain ⟨c', hset⟩ := Column.setAny_of_fits hfits
      simp [hc, hset]
  | _ => exact absurd h id

/-! ### A vertex, access by access -/

def VertexSoFar (vt : VertexTable) (oid : Value) (props : List Value) : IngestPc → Prop
  | .probe _ | .claim | .setKey _ => vt.indexer.Accepts oid
  | .publishIndex ind _ | .checkValid ind | .materialize ind | .publishTs ind =>
    vt.indexer.getKey ind = oid
  | .setProp vid col => vt.indexer.getKey vid = oid ∧ RowHolds vt.table vid (props.take col)
  | _ => True

def IngestPc.target : IngestPc → Option Nat
  | setKey vid | publishIndex vid _ | checkValid vid | materialize vid | publishTs vid
  | setProp vid _ => some vid
  | _ => none

theorem rowHolds_zero (table : List Column) (row : Nat) (props : List Value) :
    RowHolds table row (props.take 0) := by
  intro col v hv
  simp at hv

theorem RowHolds.write {table : List Column} {row col : Nat} {props : List Value} {v : Value}
    {c c' : Column} (h : RowHolds table row (props.take col)) (hv : props[col]? = some v)
    (hc : table[col]? = some c) (hset : c.setAny row v false = .ok c') :
    RowHolds (table.set col c') row (props.take (col + 1)) := by
  obtain ⟨hwrote, hcell⟩ := Column.setAny_wrote hset
  intro i w hw
  obtain ⟨hi, hprop⟩ : i < col + 1 ∧ props[i]? = some w := by
    rw [getElem?_take] at hw
    split at hw
    next hi => exact ⟨hi, hw⟩
    next => cases hw
  by_cases heq : i = col
  · subst heq
    rw [hv] at hprop
    cases hprop
    obtain ⟨hlt, -⟩ := List.getElem?_eq_some_iff.mp hc
    refine ⟨c', getElem?_set_self hlt, ?_⟩
    rw [hwrote.type_eq]
    exact hcell
  · have hlt : i < col := Nat.lt_of_le_of_ne (Nat.le_of_lt_succ hi) heq
    obtain ⟨d, hd, hdcell⟩ := h i w (by rw [getElem?_take_of_lt hlt]; exact hprop)
    exact ⟨d, by rw [getElem?_set_ne (Ne.symm heq)]; exact hd, hdcell⟩

theorem RowHolds.complete {table : List Column} {row col : Nat} {props : List Value}
    (h : RowHolds table row (props.take col)) (hcol : props[col]? = none) :
    RowHolds table row props := by
  rwa [take_of_length_le (List.getElem?_eq_none_iff.mp hcol)] at h

section Vertex

variable {policy : HashPolicy} {vt vt' : VertexTable} {oid : Value} {props : List Value}
  {ts : Nat} {pc : IngestPc}

/-- What a committer has written stays when others move. -/
theorem VertexSoFar.keeps (h : VertexSoFar vt oid props pc) (hgrows : Grows vt vt')
    (hkey : ∀ vid, pc.target = some vid → vt'.indexer.getKey vid = vt.indexer.getKey vid)
    (hrow : ∀ vid, pc.writesVertex = some vid → KeepsRow vt.table vt'.table vid) :
    VertexSoFar vt' oid props pc := by
  cases pc with
  | probe _ | claim | setKey _ =>
    refine ⟨h.1, ?_⟩
    rw [hgrows.keyType]
    exact h.2
  | publishIndex ind _ | checkValid ind | materialize ind | publishTs ind =>
    exact (hkey ind rfl).trans h
  | setProp vid _ => exact ⟨(hkey vid rfl).trans h.1, h.2.keeps (hrow vid rfl)⟩
  | _ => trivial

/-- The next access finds what the last one wrote. -/
theorem VertexMove.soFar {pc' : IngestPc} {spurious : Bool}
    (hmove : VertexMove policy vt oid props ts pc vt' (.running pc'))
    (h : VertexSoFar vt oid props pc) (hready : VertexReady vt oid props spurious pc) :
    VertexSoFar vt' oid props pc' := by
  cases hmove with
  | @search pc pc' hsearching hsearching' haccepts =>
    have hacc : vt.indexer.Accepts oid := by
      cases pc with
      | checkCapacity => exact haccepts rfl
      | probe _ | claim => exact h
      | _ => exact absurd hsearching id
    cases pc' with
    | checkCapacity => trivial
    | probe _ | claim => exact hacc
    | _ => exact absurd hsearching' id
  | found _ hkey => exact hkey
  | claim => exact h
  | @setKey ind keys hkeys =>
    have hcell := LFIndexer.setKeyValue_cell h hkeys
    rw [hready.2] at hcell
    exact Option.some.inj hcell
  | reuse | skip | index | materialize => exact h
  | publish => exact ⟨h, rowHolds_zero _ _ _⟩
  | setProp hv hc hset => exact ⟨h.1, h.2.write hv hc hset⟩

theorem VertexMove.complete (hmove : VertexMove policy vt oid props ts pc vt' .applied)
    (h : VertexSoFar vt oid props pc) (hpc : PcOk vt ts pc) :
    ∃ vid col, pc = .setProp vid col ∧ vt' = vt ∧ vt.vts.entry vid = some ts ∧
      vt.indexer.getKey vid = oid ∧ RowHolds vt.table vid props := by
  cases hmove with
  | done hcol => exact ⟨_, _, rfl, rfl, hpc.2, h.1, h.2.complete hcol⟩

end Vertex

/-! ### An edge, access by access -/

/-- A record of the label was applied at the place, or refers to the row. -/
def OutAt (label : EdgeLabel) (src slot : Nat) : Redo × Footprint → Prop
  | (.insertEdge label' _ _ _, .edge src' _ slot' _ _) =>
    label' = label ∧ src' = src ∧ slot' = slot
  | _ => False

@[inherit_doc OutAt]
def InAt (label : EdgeLabel) (dst slot : Nat) : Redo × Footprint → Prop
  | (.insertEdge label' _ _ _, .edge _ dst' _ slot' _) =>
    label' = label ∧ dst' = dst ∧ slot' = slot
  | _ => False

@[inherit_doc OutAt]
def RowAt (label : EdgeLabel) (row : Nat) : Redo × Footprint → Prop
  | (.insertEdge label' _ _ _, .edge _ _ _ _ row') => label' = label ∧ row' = some row
  | _ => False

section Edge

variable (et : EdgeTable) (label : EdgeLabel) (ts : Nat) (data : Value)
  (pairs : List (Redo × Footprint))

def FreshRow (row : Option Nat) : Prop :=
  Stores et → ∀ r, row = some r → ∀ p ∈ pairs, ¬RowAt label r p

/-- The edge is in the list of its source, at a place of its own. -/
def PlacedOut (src dst slot : Nat) : Prop :=
  et.outCsr.type ≠ .empty → (et.outCsr.lists src)[slot]? = some ⟨dst, ts, data⟩ ∧
    ∀ p ∈ pairs, ¬OutAt label src slot p

/-- The edge is in the list of its destination, at a place of its own. -/
def PlacedIn (src dst slot : Nat) : Prop :=
  et.inCsr.type ≠ .empty → (et.inCsr.lists dst)[slot]? = some ⟨src, ts, data⟩ ∧
    ∀ p ∈ pairs, ¬InAt label dst slot p

end Edge

/-- What the committer of an edge has found and written so far, after it has
applied the records of `pairs`. -/
def EdgeSoFar (g : Graph) (ts : Nat) (label : EdgeLabel) (src dst : Value) (props : List Value)
    (pairs : List (Redo × Footprint)) : IngestPc → Prop
  | .findDst s => (g.vertices label.src).Valid s src ts
  | .beginEdge s d => (g.vertices label.src).Valid s src ts ∧
      (g.vertices label.dst).Valid d dst ts
  | .putIn s d row => (g.vertices label.src).Valid s src ts ∧
      (g.vertices label.dst).Valid d dst ts ∧
      ∃ et, g.edges label = some et ∧ FreshRow et label pairs row
  | .putOut s d row => (g.vertices label.src).Valid s src ts ∧
      (g.vertices label.dst).Valid d dst ts ∧
      ∃ et, g.edges label = some et ∧ FreshRow et label pairs row ∧
        ∃ slot, PlacedIn et label ts (edgeData props row) pairs s d slot
  | .setEdgeProp row col => ∃ s d outSlot inSlot, (g.vertices label.src).Valid s src ts ∧
      (g.vertices label.dst).Valid d dst ts ∧
      ∃ et, g.edges label = some et ∧ FreshRow et label pairs (some row) ∧
        PlacedIn et label ts (edgeData props (some row)) pairs s d inSlot ∧
        PlacedOut et label ts (edgeData props (some row)) pairs s d outSlot ∧
        (Stores et → RowHolds et.table row (props.take col))
  | _ => True

section EdgeStability

variable {et et' : EdgeTable} {label : EdgeLabel} {ts : Nat} {data : Value}
  {pairs : List (Redo × Footprint)} {written : Nat → Prop}

theorem KeepsEdges.stores (h : KeepsEdges et et' written) (hs : Stores et') : Stores et := by
  unfold Stores at hs ⊢
  rwa [h.outType, h.inType] at hs

theorem FreshRow.keeps {row : Option Nat} (h : FreshRow et label pairs row)
    (hkeeps : KeepsEdges et et' written) : FreshRow et' label pairs row :=
  fun hs => h (hkeeps.stores hs)

theorem PlacedOut.keeps {src dst slot : Nat} (h : PlacedOut et label ts data pairs src dst slot)
    (hkeeps : KeepsEdges et et' written) (hts : ts ≠ kDeletedTimestamp) :
    PlacedOut et' label ts data pairs src dst slot := by
  intro htype
  rw [hkeeps.outType] at htype
  obtain ⟨hslot, hfresh⟩ := h htype
  exact ⟨hkeeps.out _ _ _ hslot hts, hfresh⟩

theorem PlacedIn.keeps {src dst slot : Nat} (h : PlacedIn et label ts data pairs src dst slot)
    (hkeeps : KeepsEdges et et' written) (hts : ts ≠ kDeletedTimestamp) :
    PlacedIn et' label ts data pairs src dst slot := by
  intro htype
  rw [hkeeps.inType] at htype
  obtain ⟨hslot, hfresh⟩ := h htype
  exact ⟨hkeeps.into _ _ _ hslot hts, hfresh⟩

/-- What a committer has found and written stays when others move. -/
theorem EdgeSoFar.keeps {g g' : Graph} {vertex : Nat → Nat → Prop}
    {row : EdgeLabel → Nat → Prop} {src dst : Value} {props : List Value} {pc : IngestPc}
    (h : EdgeSoFar g ts label src dst props pairs pc) (hkeeps : Keeps g g' vertex row)
    (hok : ∀ label, TableOk (g.vertices label)) (hts : ts ≠ kDeletedTimestamp)
    (havoid : ∀ r, pc.row = some r → ¬row label r) :
    EdgeSoFar g' ts label src dst props pairs pc := by
  have hsrc : ∀ {s : Nat}, (g.vertices label.src).Valid s src ts →
      (g'.vertices label.src).Valid s src ts := (hkeeps.grows _).valid (hok _)
  have hdst : ∀ {d : Nat}, (g.vertices label.dst).Valid d dst ts →
      (g'.vertices label.dst).Valid d dst ts := (hkeeps.grows _).valid (hok _)
  cases pc with
  | findDst s => exact hsrc h
  | beginEdge s d => exact ⟨hsrc h.1, hdst h.2⟩
  | putIn s d r =>
    obtain ⟨hs, hd, et, het, hfresh⟩ := h
    obtain ⟨et', het', hk⟩ := hkeeps.edges label et het
    exact ⟨hsrc hs, hdst hd, et', het', hfresh.keeps hk⟩
  | putOut s d r =>
    obtain ⟨hs, hd, et, het, hfresh, slot, hin⟩ := h
    obtain ⟨et', het', hk⟩ := hkeeps.edges label et het
    exact ⟨hsrc hs, hdst hd, et', het', hfresh.keeps hk, slot, hin.keeps hk hts⟩
  | setEdgeProp r col =>
    obtain ⟨s, d, outSlot, inSlot, hs, hd, et, het, hfresh, hin, hout, hholds⟩ := h
    obtain ⟨et', het', hk⟩ := hkeeps.edges label et het
    refine ⟨s, d, outSlot, inSlot, hsrc hs, hdst hd, et', het', hfresh.keeps hk,
      hin.keeps hk hts, hout.keeps hk hts, ?_⟩
    intro hstores
    exact (hholds (hk.stores hstores)).keeps (hk.rows r (havoid r rfl))
  | _ => trivial

end EdgeStability

section EdgeProgress

variable {policy : HashPolicy} {g : Graph} {et et' : EdgeTable} {label : EdgeLabel} {ts : Nat}
  {src dst : Value} {props : List Value} {pairs : List (Redo × Footprint)} {pc : IngestPc}

/-- An applied record occupies its places with its timestamp. -/
theorem Applied.edgeAt {p : Redo × Footprint} (h : Applied g ts p.1 p.2)
    (het : g.edges label = some et) : (∀ s slot, OutAt label s slot p → et.outCsr.type ≠ .empty →
        ∃ nbr : Nbr, (et.outCsr.lists s)[slot]? = some nbr ∧ nbr.timestamp = ts) ∧
      (∀ d slot, InAt label d slot p → et.inCsr.type ≠ .empty →
        ∃ nbr : Nbr, (et.inCsr.lists d)[slot]? = some nbr ∧ nbr.timestamp = ts) ∧
      (∀ row, RowAt label row p → Stores et →
        ∃ nbr, HasNbr et nbr ∧ nbr.data = rowData row ∧ nbr.timestamp = ts) := by
  obtain ⟨r, f⟩ := p
  cases r with
  | insertVertex => exact ⟨nofun, nofun, nofun⟩
  | insertEdge label' src' dst' props' =>
    cases f with
    | vertex => exact absurd h id
    | edge s d outSlot inSlot row =>
      obtain ⟨-, -, et₀, het₀, hat⟩ := h
      refine ⟨?_, ?_, ?_⟩
      · rintro s' slot ⟨rfl, rfl, rfl⟩ htype
        cases het.symm.trans het₀
        exact ⟨_, hat.out htype, rfl⟩
      · rintro d' slot ⟨rfl, rfl, rfl⟩ htype
        cases het.symm.trans het₀
        exact ⟨_, hat.into htype, rfl⟩
      · rintro r' ⟨rfl, rfl⟩ hstores
        cases het.symm.trans het₀
        rcases hstores with hout | hin
        · exact ⟨_, ⟨s, .inl (mem_of_getElem? (hat.out hout))⟩, rfl, rfl⟩
        · exact ⟨_, ⟨d, .inr (mem_of_getElem? (hat.into hin))⟩, rfl, rfl⟩

/-- A row that has just been claimed belongs to no applied record. -/
theorem freshRow_claimed (hpairs : ∀ p ∈ pairs, Applied g ts p.1 p.2)
    (het : g.edges label = some et) (hbundled : et.isBundled = false)
    (hentries : EntriesClaimed et) : FreshRow et label pairs (some et.tableIdx) := by
  intro hstores r hr p hp hat
  cases hr
  obtain ⟨nbr, hnbr, hdata, -⟩ := ((hpairs p hp).edgeAt het).2.2 _ hat hstores
  obtain ⟨row, hlt, hdata'⟩ := hentries hbundled nbr hnbr
  exact Nat.ne_of_lt hlt (rowData_inj (hdata'.symm.trans hdata))

variable {data : Value} {s d : Nat}

/-- An entry that is put into a list gets a place that no applied record has. -/
theorem placed_put {csr csr' : Csr} {At : Nat → Redo × Footprint → Prop}
    (hput : csr.putEdge s d data ts = .ok csr') (hts : ts ≠ kDeletedTimestamp)
    (hat : ∀ p ∈ pairs, ∀ slot, At slot p → csr.type ≠ .empty →
      ∃ nbr : Nbr, (csr.lists s)[slot]? = some nbr ∧ nbr.timestamp = ts) :
    ∃ slot, csr'.type ≠ .empty → (csr'.lists s)[slot]? = some ⟨d, ts, data⟩ ∧
      ∀ p ∈ pairs, ¬At slot p := by
  have h := Csr.putEdge_put hput
  by_cases htype : csr.type = .empty
  · exact ⟨0, fun hne => absurd (h.type_eq.trans htype) hne⟩
  · obtain ⟨slot, hslot, hfree⟩ := h.added htype
    refine ⟨slot, fun _ => ⟨hslot, fun p hp hp' => ?_⟩⟩
    obtain ⟨nbr, hnbr, hstamp⟩ := hat p hp slot hp' htype
    exact hts (hstamp.symm.trans (hfree nbr hnbr))

theorem valid_of_getLid {policy : HashPolicy} {label lid : Nat} {oid : Value}
    (hok : TableOk (g.vertices label)) (h : g.getLid policy label oid ts = some lid) :
    (g.vertices label).Valid lid oid ts := by
  obtain ⟨hindex, hvalid⟩ := VertexTable.getLid_eq_some.mp h
  obtain ⟨hkey, hindexed⟩ := LFIndexer.getIndex_sound hindex
  exact ⟨(hok.indexed_lt lid hindexed).1, hkey, hvalid⟩

/-- The next access finds what the last one wrote, and its places are its own. -/
theorem LinkMove.soFar {g' : Graph} {pc' : IngestPc}
    (hmove : LinkMove policy g ts label src dst props pc g' (.running pc'))
    (h : EdgeSoFar g ts label src dst props pairs pc)
    (hok : ∀ label, TableOk (g.vertices label)) (hpairs : ∀ p ∈ pairs, Applied g ts p.1 p.2)
    (hentries : ∀ et, g.edges label = some et → EntriesClaimed et)
    (hts : ts ≠ kDeletedTimestamp) : EdgeSoFar g' ts label src dst props pairs pc' := by
  cases hmove with
  | foundSrc hlid => exact valid_of_getLid (hok _) hlid
  | foundDst hlid => exact ⟨h, valid_of_getLid (hok _) hlid⟩
  | @table _ et et' _ het hmove =>
    have hkeeps := hmove.keeps
    have hself := Graph.setEdges_self g label et'
    cases hmove with
    | bundle => exact ⟨h.1, h.2, et, hself, nofun⟩
    | claimRow hbundled =>
      have hfresh := freshRow_claimed hpairs het hbundled (hentries et het)
      exact ⟨h.1, h.2, _, hself, hfresh.keeps hkeeps⟩
    | putIn hput =>
      obtain ⟨hs, hd, et₀, het₀, hfresh⟩ := h
      cases het.symm.trans het₀
      exact ⟨hs, hd, _, hself, hfresh.keeps hkeeps,
        placed_put hput hts fun p hp => ((hpairs p hp).edgeAt het).2.1 _⟩
    | putOutRow hput =>
      obtain ⟨hs, hd, et₀, het₀, hfresh, inSlot, hin⟩ := h
      cases het.symm.trans het₀
      obtain ⟨outSlot, hout⟩ := placed_put hput hts fun p hp => ((hpairs p hp).edgeAt het).1 _
      exact ⟨_, _, outSlot, inSlot, hs, hd, _, hself, hfresh.keeps hkeeps,
        hin.keeps hkeeps hts, hout, fun _ => rowHolds_zero _ _ _⟩
    | setProp hv hc hset =>
      obtain ⟨s, d, outSlot, inSlot, hs, hd, et₀, het₀, hfresh, hin, hout, hholds⟩ := h
      cases het.symm.trans het₀
      exact ⟨s, d, outSlot, inSlot, hs, hd, _, hself, hfresh.keeps hkeeps,
        hin.keeps hkeeps hts, hout.keeps hkeeps hts,
        fun hstores => (hholds (hkeeps.stores hstores)).write hv hc hset⟩

/-- An edge at places of its own is apart from every record applied before. -/
theorem apart_of_placed {outSlot inSlot : Nat} {row : Option Nat} (het : g.edges label = some et)
    (hout : PlacedOut et label ts data pairs s d outSlot)
    (hin : PlacedIn et label ts data pairs s d inSlot) {p : Redo × Footprint} (hp : p ∈ pairs) :
    Apart g p (.insertEdge label src dst props, .edge s d outSlot inSlot row) := by
  obtain ⟨r, f⟩ := p
  cases r with
  | insertVertex => cases f <;> trivial
  | insertEdge label' src' dst' props' =>
    cases f with
    | vertex => trivial
    | edge s' d' outSlot' inSlot' row' =>
      intro hlabel et₀ het₀
      subst hlabel
      cases het.symm.trans het₀
      refine ⟨fun htype heq => ?_, fun htype heq => ?_⟩
      · exact (hout htype).2 _ hp ⟨rfl, congrArg Prod.fst heq, congrArg Prod.snd heq⟩
      · exact (hin htype).2 _ hp ⟨rfl, congrArg Prod.fst heq, congrArg Prod.snd heq⟩

/-- When the committer is done, its edge is complete and apart from the others. -/
theorem LinkMove.complete {g' : Graph}
    (hmove : LinkMove policy g ts label src dst props pc g' .applied)
    (h : EdgeSoFar g ts label src dst props pairs pc)
    (hpairs : ∀ p ∈ pairs, Applied g ts p.1 p.2) (hts : ts ≠ kDeletedTimestamp)
    (hrow : pc.Placing → ∃ et, g.edges label = some et ∧ RowOk et ts pc.row) :
    ∃ f, Applied g' ts (.insertEdge label src dst props) f ∧
      ∀ p ∈ pairs, Apart g' p (.insertEdge label src dst props, f) := by
  cases hmove with
  | @table _ et et' _ het hmove =>
    have hkeeps := hmove.keeps
    have hbundled := hmove.isBundled
    have hself := Graph.setEdges_self g label et'
    cases hmove with
    | putOut hput =>
      obtain ⟨hs, hd, et₀, het₀, -, inSlot, hin⟩ := h
      cases het.symm.trans het₀
      obtain ⟨et₀, het₀, hrowOk⟩ := hrow trivial
      cases het.symm.trans het₀
      obtain ⟨outSlot, hout⟩ := placed_put hput hts fun p hp => ((hpairs p hp).edgeAt het).1 _
      have hin' := hin.keeps hkeeps hts
      refine ⟨.edge _ _ outSlot inSlot none, ⟨hs, hd, _, hself, ?_⟩,
        fun p hp => apart_of_placed hself hout hin' hp⟩
      exact ⟨iff_of_true rfl (hbundled.trans hrowOk), fun htype => (hout htype).1,
        fun htype => (hin' htype).1, nofun⟩
    | @done row col hcol =>
      obtain ⟨s, d, outSlot, inSlot, hs, hd, et₀, het₀, -, hin, hout, hholds⟩ := h
      cases het.symm.trans het₀
      obtain ⟨et₀, het₀, hrowOk⟩ := hrow trivial
      cases het.symm.trans het₀
      refine ⟨.edge s d outSlot inSlot (some row), ⟨hs, hd, _, hself, ?_⟩,
        fun p hp => apart_of_placed hself hout hin hp⟩
      refine ⟨⟨nofun, ?_⟩, fun htype => (hout htype).1, fun htype => (hin htype).1, ?_⟩
      · intro hb
        rw [hrowOk.1] at hb
        cases hb
      · intro hstores r hr
        cases hr
        exact (hholds hstores).complete hcol

end EdgeProgress

end Neug.Transaction
