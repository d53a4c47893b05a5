import Neug.Library.Reachability
import Neug.Storage.VertexEdgeDeletion

/-! # Runs of an edge table

The operations of an edge table in any order, as long as none of them throws: one that throws
half way has changed one of the structures.  What a reader sees is compared from both ends: the
visible edges of all outgoing lists and those of all incoming lists, with their properties.  They
are the same as long as the operations meet their conditions.
-/

namespace Neug.Storage

open Library

/-- A timestamp that is not the mark of a deleted entry. -/
abbrev Timestamp := Fin kDeletedTimestamp

inductive EdgeOp where
  | addEdge (src dst : Nat) (props : List Value) (ts : Timestamp) (insertSafe : Bool)
  | batchAddEdges (edges : List (Nat × Nat × List Value)) (defaults : List Value)
  | batchLoadEdges (srcCap dstCap : Nat) (edges : List (Nat × Nat × List Value))
      (defaults : List Value)
  | deleteEdge (src dst oeOffset ieOffset : Nat) (ts : Timestamp)
  | deleteEdges (past : PastEnd) (src dst : Nat) (readTs writeTs : Timestamp)
  | batchDeleteEdges (pairs : List (Nat × Nat))
  | batchDeleteOffsets (oeEdges ieEdges : List (Nat × Nat))
  | deleteVertex (past : PastEnd) (isSrc : Bool) (v : Nat) (ts : Timestamp)
  | batchDeleteVertices (srcSet dstSet : List Nat)
  | updateEdgeProperty (src dst oeOffset ieOffset col : Nat) (value : Value) (ts : Timestamp)
  | addProperties (types : List DataType) (oldDefaults defaults : List Value)
  | deleteProperties (cols : List Nat)
  | compact (order : Option NbrSort)
  | ensureCapacity (capacity : Nat) (defaults : List Value)
  | reserveVertices (srcCap dstCap : Nat)

namespace EdgeOp

def run (et : EdgeTable) : EdgeOp → Except EdgeError EdgeTable
  | addEdge src dst props ts insertSafe => et.addEdge src dst props ts insertSafe
  | batchAddEdges edges defaults => et.batchAddEdges edges defaults
  | batchLoadEdges srcCap dstCap edges defaults => et.batchLoadEdges srcCap dstCap edges defaults
  | deleteEdge src dst oeOffset ieOffset ts => et.deleteEdge src dst oeOffset ieOffset ts
  | deleteEdges past src dst readTs writeTs => et.deleteEdges past src dst readTs writeTs
  | batchDeleteEdges pairs => .ok (et.batchDeleteEdges pairs)
  | batchDeleteOffsets oeEdges ieEdges => .ok (et.batchDeleteOffsets oeEdges ieEdges)
  | deleteVertex past isSrc v ts => et.deleteVertex past isSrc v ts
  | batchDeleteVertices srcSet dstSet => .ok (et.batchDeleteVertices srcSet dstSet)
  | updateEdgeProperty src dst oeOffset ieOffset col value ts =>
    et.updateEdgeProperty src dst oeOffset ieOffset col value ts
  | addProperties types oldDefaults defaults => et.addProperties types oldDefaults defaults
  | deleteProperties cols => et.deleteProperties cols
  | compact order => et.compact order
  | ensureCapacity capacity defaults => et.ensureCapacity capacity defaults
  | reserveVertices srcCap dstCap => .ok (et.reserveVertices srcCap dstCap)

/-- The condition of an operation on its arguments and the table.  Both structures have a place
for the edges of a batch, a batch of a supplier does not shrink them, offsets stand for both
entries of the same edges, and a table is separable for two vertices whose edges are deleted.
The other operations have none. -/
def Sound (et : EdgeTable) : EdgeOp → Prop
  | batchAddEdges edges _ => et.Takes (edges.map fun e => (e.1, e.2.1))
  | batchLoadEdges srcCap dstCap edges _ =>
    et.outCsr.vertexCapacity ≤ srcCap ∧ et.inCsr.vertexCapacity ≤ dstCap ∧
      (et.resizeVertices srcCap dstCap).Takes (edges.map fun e => (e.1, e.2.1))
  | deleteEdge src dst oeOffset ieOffset _ => et.Paired (src, oeOffset) (dst, ieOffset)
  | deleteEdges past src dst readTs writeTs => et.Separable past src dst readTs writeTs
  | batchDeleteOffsets oeEdges ieEdges =>
    oeEdges.Nodup ∧ ieEdges.Nodup ∧ List.Forall₂ et.Paired oeEdges ieEdges
  | updateEdgeProperty src dst oeOffset ieOffset _ _ _ =>
    et.isBundled = true → et.Paired (src, oeOffset) (dst, ieOffset)
  | _ => True

end EdgeOp

namespace EdgeTable

variable {et et' : EdgeTable}

def created (outType inType : CsrType) (properties : List DataType) : EdgeTable :=
  let bundled : EdgeTable :=
    ⟨properties, ⟨outType, 0, fun _ => []⟩, ⟨inType, 0, fun _ => []⟩, [], 0, 0⟩
  if bundled.isBundled then bundled else { bundled with table := properties.map Column.fresh }

section

variable (et : EdgeTable)

def Initial : Prop :=
  ∃ outType inType properties, outType ≠ .empty ∧ inType ≠ .empty ∧
    et = created outType inType properties

/-- The lengths of all lists can be counted by an `int`. -/
def Counted : Prop :=
  (∀ v < et.outCsr.vertexCapacity, (et.outCsr.lists v).length ≤ kNoOffset) ∧
    ∀ v < et.inCsr.vertexCapacity, (et.inCsr.lists v).length ≤ kNoOffset

instance : Decidable et.Counted := inferInstanceAs (Decidable (_ ∧ _))

def Step (et et' : EdgeTable) : Prop :=
  ∃ op : EdgeOp, op.run et = .ok et' ∧ et'.Counted

/-- The properties of an edge whose entry carries some data. -/
def values (data : Value) : List Value :=
  if et.isBundled then if et.properties = [] then [] else [data]
  else et.table.map fun column => column.getAny (rowOf data)

def visible (csr : Csr) (ts : Nat) : Multiset (Nat × Nbr) :=
  (↑(owned csr.vertexCapacity csr.lists) : Multiset (Nat × Nbr)).filter fun e =>
    e.2.timestamp ≤ ts

/-- The visible edges of the outgoing lists: source, destination and properties. -/
def outgoing (ts : Nat) : Multiset (Nat × Nat × List Value) :=
  (visible et.outCsr ts).map fun e => (e.1, e.2.neighbor, et.values e.2.data)

def incoming (ts : Nat) : Multiset (Nat × Nat × List Value) :=
  (visible et.inCsr ts).map fun e => (e.2.neighbor, e.1, et.values e.2.data)

end

theorem visible_eq (csr : Csr) {ts : Nat} (hts : ts < kDeletedTimestamp) :
    visible csr ts = csr.edges.filter fun e => e.2.timestamp ≤ ts := by
  rw [Csr.edges_eq, liveEdges, Multiset.filter_filter, visible]
  refine Multiset.filter_congr fun e _ => ?_
  constructor
  · exact fun hle => ⟨hle, Nbr.live_of_le hts hle⟩
  · exact fun h => h.1

/-- Readers of a balanced table see the same edges from both ends. -/
theorem Balanced.outgoing_eq (h : et.Balanced) {ts : Nat} (hts : ts < kDeletedTimestamp) :
    et.outgoing ts = et.incoming ts := by
  rw [outgoing, incoming, visible_eq _ hts, visible_eq _ hts, h.same]
  rw [filter_flip (fun e => e.2.timestamp ≤ ts) (fun e => e.2.timestamp ≤ ts) fun _ => Iff.rfl,
    Multiset.map_map]
  rfl

/-! ### Every run -/

theorem Initial.balanced (h : et.Initial) : et.Balanced ∧ et.Counted := by
  obtain ⟨outType, inType, properties, hout, hin, rfl⟩ := h
  have hempty : ∀ type, (⟨type, 0, fun _ => []⟩ : Csr).Framed := fun type =>
    ⟨fun _ _ => rfl, fun _ _ => Nat.zero_le 1⟩
  have hbundled : ∀ table, (⟨properties, ⟨outType, 0, fun _ => []⟩, ⟨inType, 0, fun _ => []⟩,
      table, 0, 0⟩ : EdgeTable).Balanced := fun table =>
    ⟨⟨hout, hin⟩, hempty outType, hempty inType, rfl⟩
  unfold created
  simp only
  split
  · exact ⟨hbundled [], nofun, nofun⟩
  · exact ⟨hbundled _, nofun, nofun⟩

theorem Balanced.represented (h : et.Balanced) (hcounted : et.Counted) :
    et.outCsr.Represented ∧ et.inCsr.Represented := by
  have hcount : ∀ csr : Csr, csr.Framed →
      (∀ v < csr.vertexCapacity, (csr.lists v).length ≤ kNoOffset) → csr.Represented := by
    intro csr hframed hlengths
    refine ⟨hframed, fun v => ?_⟩
    by_cases hv : v < csr.vertexCapacity
    · exact hlengths v hv
    · rw [hframed.beyond v (Nat.le_of_not_lt hv)]
      exact Nat.zero_le _
  exact ⟨hcount _ h.outFramed hcounted.1, hcount _ h.inFramed hcounted.2⟩

theorem Balanced.run (h : et.Balanced) (hcounted : et.Counted) {op : EdgeOp}
    (hsound : op.Sound et) (hrun : op.run et = .ok et') : et'.Balanced := by
  obtain ⟨hout, hin⟩ := h.represented hcounted
  cases op with
  | addEdge src dst props ts insertSafe => exact h.addEdge hrun
  | batchAddEdges edges defaults => exact h.batchAddEdges hsound hrun
  | batchLoadEdges srcCap dstCap edges defaults =>
    obtain ⟨hsrc, hdst, htakes⟩ := hsound
    exact (h.resizeVertices hsrc hdst).batchAddEdges htakes hrun
  | deleteEdge src dst oeOffset ieOffset ts => exact h.deleteEdge ts.isLt hsound hrun
  | deleteEdges past src dst readTs writeTs =>
    exact h.deleteEdges hout hin readTs.isLt writeTs.isLt hsound hrun
  | batchDeleteEdges pairs =>
    cases hrun
    exact h.batchDeleteEdges pairs
  | batchDeleteOffsets oeEdges ieEdges =>
    cases hrun
    exact h.batchDeleteOffsets hsound.1 hsound.2.1 hsound.2.2
  | deleteVertex past isSrc v ts => exact h.deleteVertex hout hin ts.isLt hrun
  | batchDeleteVertices srcSet dstSet =>
    cases hrun
    exact h.batchDeleteVertices srcSet dstSet
  | updateEdgeProperty src dst oeOffset ieOffset col value ts =>
    exact h.updateEdgeProperty ts.isLt hsound hrun
  | addProperties types oldDefaults defaults => exact h.relaid (addProperties_relaid hrun)
  | deleteProperties cols => exact h.relaid (deleteProperties_relaid hrun)
  | compact order => exact h.compact hrun
  | ensureCapacity capacity defaults => exact h.of_sameCsr (ensureCapacity_csr hrun)
  | reserveVertices srcCap dstCap =>
    cases hrun
    exact h.reserveVertices srcCap dstCap

end EdgeTable

end Neug.Storage
