import Neug.Transaction.MvccInsertEdges

/-! # When a commit is all or nothing

A commit appends its records to the log and then applies them one by one to the
live graph.  Each application can fail, and nothing is rolled back then.  This
file states what every access needs in order not to fail, and shows that if each
access finds what it needs, a commit that has ended has either applied all its
records, each at a place of its own, or left no trace.
-/

namespace Neug.Transaction

open Storage Library

/-! ### Where a record was applied -/

inductive Footprint where
  | vertex (lid : Nat)
  | edge (src dst outSlot inSlot : Nat) (row : Option Nat)

def RowHolds (table : List Column) (row : Nat) (props : List Value) : Prop :=
  ∀ (col : Nat) (v : Value), props[col]? = some v → ∃ c : Column, table[col]? = some c ∧
    (c.type ≠ .empty → some (c.cells row) = Column.stored c.type v)

/-- The table stores its edges in at least one direction. -/
def Stores (et : EdgeTable) : Prop :=
  et.outCsr.type ≠ .empty ∨ et.inCsr.type ≠ .empty

/-- An edge is in its table, in the directions that the table keeps. -/
structure EdgeAt (et : EdgeTable) (ts : Nat) (props : List Value)
    (src dst outSlot inSlot : Nat) (row : Option Nat) : Prop where
  bundled : row = none ↔ et.isBundled = true
  out : et.outCsr.type ≠ .empty →
    (et.outCsr.lists src)[outSlot]? = some ⟨dst, ts, edgeData props row⟩
  into : et.inCsr.type ≠ .empty →
    (et.inCsr.lists dst)[inSlot]? = some ⟨src, ts, edgeData props row⟩
  holds : Stores et → ∀ r, row = some r → RowHolds et.table r props

/-- The record has been applied at the place, with timestamp `ts`. -/
def Applied (g : Graph) (ts : Nat) : Redo → Footprint → Prop
  | .insertVertex label oid props, .vertex lid =>
    (g.vertices label).vts.entry lid = some ts ∧
      (g.vertices label).indexer.getKey lid = oid ∧
      RowHolds (g.vertices label).table lid props
  | .insertEdge label src dst props, .edge srcLid dstLid outSlot inSlot row =>
    (g.vertices label.src).Valid srcLid src ts ∧
      (g.vertices label.dst).Valid dstLid dst ts ∧
      ∃ et, g.edges label = some et ∧ EdgeAt et ts props srcLid dstLid outSlot inSlot row
  | _, _ => False

/-- Two records of one label were applied at different places. -/
def Apart (g : Graph) : Redo × Footprint → Redo × Footprint → Prop
  | (.insertVertex label _ _, .vertex lid), (.insertVertex label' _ _, .vertex lid') =>
    label = label' → lid ≠ lid'
  | (.insertEdge label _ _ _, .edge src dst outSlot inSlot _),
    (.insertEdge label' _ _ _, .edge src' dst' outSlot' inSlot' _) =>
      label = label' → ∀ et, g.edges label = some et →
        (et.outCsr.type ≠ .empty → (src, outSlot) ≠ (src', outSlot')) ∧
          (et.inCsr.type ≠ .empty → (dst, inSlot) ≠ (dst', inSlot'))
  | _, _ => True

/-- The records have been applied, each at a place of its own. -/
structure Written (g : Graph) (ts : Nat) (records : List Redo) (places : List Footprint) :
    Prop where
  applied : List.Forall₂ (Applied g ts) records places
  apart : (records.zip places).Pairwise (Apart g)

/-! ### What a move keeps -/

/-- The columns keep their types and what they hold in a row. -/
def KeepsRow (table table' : List Column) (row : Nat) : Prop :=
  ∀ (col : Nat) (c : Column), table[col]? = some c → ∃ c', table'[col]? = some c' ∧
    c'.type = c.type ∧ c'.cells row = c.cells row

theorem KeepsRow.refl (table : List Column) (row : Nat) : KeepsRow table table row :=
  fun _ c hc => ⟨c, hc, rfl, rfl⟩

variable {progress : IngestProgress} {props : List Value} {policy : HashPolicy} {pc : IngestPc}
  {vt : VertexTable} {oid : Value}

theorem RowHolds.keeps {table table' : List Column} {row : Nat} (h : RowHolds table row props)
    (hkeeps : KeepsRow table table' row) : RowHolds table' row props := by
  intro col v hv
  obtain ⟨c, hc, hcell⟩ := h col v hv
  obtain ⟨c', hc', htype, hcell'⟩ := hkeeps col c hc
  refine ⟨c', hc', ?_⟩
  rw [htype, hcell']
  exact hcell

/-- Writing one row keeps every other one. -/
theorem KeepsRow.set {table : List Column} {col row row' : Nat} {c c' : Column}
    (hc : table[col]? = some c) (hwrote : Column.Wrote c c' row) (hne : row' ≠ row) :
    KeepsRow table (table.set col c') row' := by
  intro i d hd
  by_cases heq : i = col
  · subst heq
    rw [hc] at hd
    cases hd
    obtain ⟨hlt, -⟩ := List.getElem?_eq_some_iff.mp hc
    exact ⟨c', List.getElem?_set_self hlt, hwrote.type_eq, hwrote.cells_ne row' hne⟩
  · exact ⟨d, by rw [List.getElem?_set_ne (Ne.symm heq)]; exact hd, rfl, rfl⟩

/-- What a move on an edge table keeps, apart from the rows it writes. -/
structure KeepsEdges (et et' : EdgeTable) (written : Nat → Prop) : Prop where
  properties : et'.properties = et.properties
  outType : et'.outCsr.type = et.outCsr.type
  inType : et'.inCsr.type = et.inCsr.type
  out : ∀ (v i : Nat) (nbr : Nbr), (et.outCsr.lists v)[i]? = some nbr →
    nbr.timestamp ≠ kDeletedTimestamp → (et'.outCsr.lists v)[i]? = some nbr
  into : ∀ (v i : Nat) (nbr : Nbr), (et.inCsr.lists v)[i]? = some nbr →
    nbr.timestamp ≠ kDeletedTimestamp → (et'.inCsr.lists v)[i]? = some nbr
  rows : ∀ r, ¬written r → KeepsRow et.table et'.table r

theorem KeepsEdges.refl (et : EdgeTable) (written : Nat → Prop) : KeepsEdges et et written :=
  ⟨rfl, rfl, rfl, fun _ _ _ h _ => h, fun _ _ _ h _ => h, fun _ _ => .refl _ _⟩

/-- The row of the property table that an access writes. -/
def IngestPc.writesRow : IngestPc → Option Nat
  | setEdgeProp row _ => some row
  | _ => none

def IngestPc.writesVertex : IngestPc → Option Nat
  | setProp vid _ => some vid
  | _ => none

theorem EdgeMove.keeps {et et' : EdgeTable} {ts : Nat}
    (hmove : EdgeMove et props ts pc et' progress) :
    KeepsEdges et et' (fun row => pc.writesRow = some row) := by
  cases hmove with
  | fail | bundle | done => exact .refl _ _
  | claimRow => exact { KeepsEdges.refl et _ with }
  | putIn hput =>
    have h := Csr.putEdge_put hput
    exact ⟨rfl, rfl, h.type_eq, fun _ _ _ h _ => h, h.kept, fun _ _ => .refl _ _⟩
  | putOut hput | putOutRow hput =>
    have h := Csr.putEdge_put hput
    exact ⟨rfl, h.type_eq, rfl, h.kept, fun _ _ _ h _ => h, fun _ _ => .refl _ _⟩
  | setProp hv hc hset =>
    refine ⟨rfl, rfl, rfl, fun _ _ _ h _ => h, fun _ _ _ h _ => h, ?_⟩
    intro r hne
    apply KeepsRow.set hc (Column.setAny_wrote hset).1
    rintro rfl
    exact hne rfl

theorem VertexMove.keepsRow {vt' : VertexTable} {ts : Nat}
    (hmove : VertexMove policy vt oid props ts pc vt' progress) {lid : Nat}
    (hne : pc.writesVertex ≠ some lid) : KeepsRow vt.table vt'.table lid := by
  cases hmove with
  | setProp hv hc hset =>
    exact .set hc (Column.setAny_wrote hset).1 fun heq => hne (congrArg some heq.symm)
  | _ => exact .refl _ _

theorem Grows.valid {vt' : VertexTable} (hgrows : Grows vt vt') (hok : TableOk vt) {lid ts : Nat}
    (h : vt.Valid lid oid ts) : vt'.Valid lid oid ts := by
  obtain ⟨hlt, hkey, hvalid⟩ := h
  obtain ⟨e, he, -⟩ := (vt.vts.isVertexValid_iff lid ts).mp hvalid
  have hindexed := hok.entry_indexed lid e he
  exact ⟨Nat.lt_of_lt_of_le hlt hgrows.numElements, (hgrows.getKey lid hindexed).trans hkey,
    hgrows.isVertexValid hvalid⟩

/-- What a step keeps of the graph, apart from the vertices and rows whose
properties it writes. -/
structure Keeps (g g' : Graph) (vertex : Nat → Nat → Prop) (row : EdgeLabel → Nat → Prop) :
    Prop where
  grows : ∀ label, Grows (g.vertices label) (g'.vertices label)
  cells : ∀ label lid, ¬vertex label lid →
    KeepsRow (g.vertices label).table (g'.vertices label).table lid
  edges : ∀ label et, g.edges label = some et →
    ∃ et', g'.edges label = some et' ∧ KeepsEdges et et' (row label)
  noEdges : ∀ label, g.edges label = none → g'.edges label = none

theorem Keeps.refl (g : Graph) (vertex : Nat → Nat → Prop) (row : EdgeLabel → Nat → Prop) :
    Keeps g g vertex row :=
  ⟨fun _ => .refl _, fun _ _ _ => .refl _ _, fun _ et het => ⟨et, het, .refl _ _⟩,
    fun _ h => h⟩

namespace Redo

/-- The record is one of a vertex of the label, and the access writes the
properties of `lid`. -/
def WritesVertex (r : Redo) (pc : IngestPc) (label lid : Nat) : Prop :=
  (∃ oid props, r = .insertVertex label oid props) ∧ pc.writesVertex = some lid

/-- The record is one of an edge of the label, and the access writes row `row`. -/
def WritesRow (r : Redo) (pc : IngestPc) (label : EdgeLabel) (row : Nat) : Prop :=
  (∃ src dst props, r = .insertEdge label src dst props) ∧ pc.writesRow = some row

end Redo

theorem VertexMove.keepsGraph {g : Graph} {label : Nat} {ts : Nat}
    (hmove : VertexMove policy (g.vertices label) oid props ts pc vt progress)
    (hgrows : Grows (g.vertices label) vt) :
    Keeps g (g.setVertices label vt) (Redo.WritesVertex (.insertVertex label oid props) pc)
      (Redo.WritesRow (.insertVertex label oid props) pc) := by
  refine ⟨?_, ?_, fun _ et het => ⟨et, het, .refl _ _⟩, fun _ h => h⟩
  · intro label'
    by_cases heq : label' = label
    · subst heq
      rw [Graph.setVertices_self]
      exact hgrows
    · rw [Graph.setVertices_of_ne _ heq]
      exact .refl _
  · intro label' lid hne
    by_cases heq : label' = label
    · subst heq
      rw [Graph.setVertices_self]
      exact hmove.keepsRow fun hlid => hne ⟨⟨oid, props, rfl⟩, hlid⟩
    · rw [Graph.setVertices_of_ne _ heq]
      exact .refl _ _

theorem LinkMove.keepsGraph {g g' : Graph} {label : EdgeLabel} {src dst : Value} {ts : Nat}
    (hmove : LinkMove policy g ts label src dst props pc g' progress) :
    Keeps g g' (Redo.WritesVertex (.insertEdge label src dst props) pc)
      (Redo.WritesRow (.insertEdge label src dst props) pc) := by
  cases hmove with
  | fail | foundSrc | foundDst => exact .refl _ _ _
  | @table pc et et' progress het hmove =>
    refine ⟨fun _ => .refl _, fun _ _ _ => .refl _ _, ?_, ?_⟩
    · intro label' et₀ het₀
      by_cases heq : label' = label
      · subst heq
        cases het.symm.trans het₀
        have hkeeps := hmove.keeps
        refine ⟨et', Graph.setEdges_self _ _ _, { hkeeps with rows := ?_ }⟩
        intro r hne
        exact hkeeps.rows r fun hr => hne ⟨⟨src, dst, props, rfl⟩, hr⟩
      · exact ⟨et₀, (Graph.setEdges_of_ne _ heq _).trans het₀, .refl _ _⟩
    · intro label' hnone
      have hne : label' ≠ label := by
        rintro rfl
        rw [het] at hnone
        cases hnone
      exact (Graph.setEdges_of_ne _ hne _).trans hnone

/-! ### Applied records stay applied -/

/-- The step writes nothing at the place of the record. -/
def Avoids (g : Graph) (vertex : Nat → Nat → Prop) (row : EdgeLabel → Nat → Prop) :
    Redo → Footprint → Prop
  | .insertVertex label _ _, .vertex lid => ¬vertex label lid
  | .insertEdge label _ _ _, .edge _ _ _ _ r =>
    ∀ et, g.edges label = some et → Stores et → ∀ r', r = some r' → ¬row label r'
  | _, _ => True

section Stability

variable {g g' : Graph} {vertex : Nat → Nat → Prop} {row : EdgeLabel → Nat → Prop} {ts : Nat}

theorem EdgeAt.keeps {et et' : EdgeTable} {written : Nat → Prop} {props : List Value}
    {src dst outSlot inSlot : Nat} {r : Option Nat} (hts : ts ≠ kDeletedTimestamp)
    (h : EdgeAt et ts props src dst outSlot inSlot r) (hkeeps : KeepsEdges et et' written)
    (havoid : Stores et → ∀ r', r = some r' → ¬written r') :
    EdgeAt et' ts props src dst outSlot inSlot r := by
  have hstores : Stores et' → Stores et := by
    unfold Stores
    rw [hkeeps.outType, hkeeps.inType]
    exact id
  refine ⟨?_, ?_, ?_, ?_⟩
  · rw [h.bundled]
    unfold EdgeTable.isBundled
    rw [hkeeps.properties]
  · intro hout
    rw [hkeeps.outType] at hout
    exact hkeeps.out _ _ _ (h.out hout) hts
  · intro hin
    rw [hkeeps.inType] at hin
    exact hkeeps.into _ _ _ (h.into hin) hts
  · intro hs r' hr'
    exact (h.holds (hstores hs) r' hr').keeps
      (hkeeps.rows r' (havoid (hstores hs) r' hr'))

theorem Applied.keeps {r : Redo} {f : Footprint} (h : Applied g ts r f)
    (hkeeps : Keeps g g' vertex row) (hok : ∀ label, TableOk (g.vertices label))
    (hts : ts ≠ kDeletedTimestamp) (havoid : Avoids g vertex row r f) : Applied g' ts r f := by
  cases r with
  | insertVertex label oid props =>
    cases f with
    | vertex lid =>
      obtain ⟨hentry, hkey, hholds⟩ := h
      have hgrows := hkeeps.grows label
      have hindexed := (hok label).entry_indexed lid ts hentry
      exact ⟨hgrows.entry lid ts hentry, (hgrows.getKey lid hindexed).trans hkey,
        hholds.keeps (hkeeps.cells label lid havoid)⟩
    | edge => exact absurd h id
  | insertEdge label src dst props =>
    cases f with
    | vertex => exact absurd h id
    | edge srcLid dstLid outSlot inSlot r =>
      obtain ⟨hsrc, hdst, et, het, hat⟩ := h
      obtain ⟨et', het', hkeepsEdges⟩ := hkeeps.edges label et het
      exact ⟨(hkeeps.grows label.src).valid (hok _) hsrc,
        (hkeeps.grows label.dst).valid (hok _) hdst, et', het',
        hat.keeps hts hkeepsEdges (havoid et het)⟩

theorem Apart.keeps {p q : Redo × Footprint} (h : Apart g p q)
    (hkeeps : Keeps g g' vertex row) : Apart g' p q := by
  obtain ⟨r, f⟩ := p
  obtain ⟨r', f'⟩ := q
  cases r with
  | insertVertex =>
    cases r' with
    | insertVertex => cases f <;> cases f' <;> exact h
    | insertEdge => cases f <;> cases f' <;> trivial
  | insertEdge label =>
    cases r' with
    | insertVertex => cases f <;> cases f' <;> trivial
    | insertEdge =>
      cases f with
      | vertex => cases f' <;> trivial
      | edge =>
        cases f' with
        | vertex => trivial
        | edge =>
          intro hlabel et' het'
          cases het : g.edges label with
          | none =>
            rw [hkeeps.noEdges label het] at het'
            cases het'
          | some et =>
            obtain ⟨et₁, het₁, hkeepsEdges⟩ := hkeeps.edges label et het
            rw [het'] at het₁
            cases het₁
            rw [hkeepsEdges.outType, hkeepsEdges.inType]
            exact h hlabel et het

theorem Written.keeps {records : List Redo} {places : List Footprint}
    (h : Written g ts records places) (hkeeps : Keeps g g' vertex row)
    (hok : ∀ label, TableOk (g.vertices label)) (hts : ts ≠ kDeletedTimestamp)
    (havoid : ∀ p ∈ records.zip places, Avoids g vertex row p.1 p.2) :
    Written g' ts records places := by
  refine ⟨?_, h.apart.imp fun hapart => hapart.keeps hkeeps⟩
  have happlied := h.applied
  clear h
  induction happlied with
  | nil => exact .nil
  | cons hhead _ ih =>
    refine .cons (hhead.keeps hkeeps hok hts (havoid _ List.mem_cons_self)) (ih ?_)
    intro p hp
    exact havoid p (List.mem_cons_of_mem _ hp)

end Stability

end Neug.Transaction
