import Neug.Storage.CountedCsr

/-! # Edge tables with counters

An edge table changes its two adjacency structures only by the calls of the structures, and its
property table besides.  A write is any number of calls on both structures, which is also what
an operation leaves that throws half way.  Every operation that gets through, but compaction, is
a write.  Compaction follows the source: both structures, then the order of the lists if there is
a sort key.
-/

namespace Neug.Storage

open Library

structure CountedTable where
  edges : EdgeTable
  outNum : UInt64
  inNum : UInt64

namespace CountedTable

variable (t : CountedTable)

def outCsr : CountedCsr := ⟨t.edges.outCsr, t.outNum⟩

def inCsr : CountedCsr := ⟨t.edges.inCsr, t.inNum⟩

def setOut (out : CountedCsr) : CountedTable :=
  { t with edges := { t.edges with outCsr := out.csr }, outNum := out.edgeNum }

def setIn (into : CountedCsr) : CountedTable :=
  { t with edges := { t.edges with inCsr := into.csr }, inNum := into.edgeNum }

/-- Calls on both structures, within the vertex tables of the sources and destinations. -/
structure Written (srcBound dstBound : Nat) (t t' : CountedTable) : Prop where
  out : Relation.ReflTransGen (CountedCsr.Call srcBound dstBound) t.outCsr t'.outCsr
  into : Relation.ReflTransGen (CountedCsr.Call dstBound srcBound) t.inCsr t'.inCsr

def sorted (order : NbrSort) : CountedTable :=
  (t.setOut ⟨t.edges.outCsr.batchSortByEdgeData order, t.outNum⟩).setIn
    ⟨t.edges.inCsr.batchSortByEdgeData order, t.inNum⟩

def compact (order : Option NbrSort) : Attempt CompactError CountedTable :=
  (t.outCsr.compact.lift id t.setOut).andThen fun t =>
    (t.inCsr.compact.lift id t.setIn).andThen fun t =>
      match order with
      | none => .done t
      | some order => if t.edges.isBundled then .done (t.sorted order)
          else .failed .sortKeyUnsupported t

/-- Both counters are exact, and all edges are between vertices of the tables. -/
structure Exact (srcBound dstBound : Nat) (t : CountedTable) : Prop where
  out : t.outCsr.Exact srcBound dstBound
  into : t.inCsr.Exact dstBound srcBound

variable {t t' : CountedTable} {srcBound dstBound : Nat}

theorem Exact.mono (h : t.Exact srcBound dstBound) {srcBound' dstBound' : Nat}
    (hsrc : srcBound ≤ srcBound') (hdst : dstBound ≤ dstBound') : t.Exact srcBound' dstBound' :=
  ⟨h.out.mono hsrc hdst, h.into.mono hdst hsrc⟩

theorem Exact.written (h : t.Exact srcBound dstBound) (hwritten : t.Written srcBound dstBound t') :
    t'.Exact srcBound dstBound :=
  ⟨h.out.calls hwritten.out, h.into.calls hwritten.into⟩

/-! ### Compaction -/

/-- The table after compaction, before the lists are ordered. -/
def settled (t : CountedTable) : CountedTable :=
  (t.setOut ⟨t.edges.outCsr.compact, t.outNum⟩).setIn ⟨t.edges.inCsr.compact, t.inNum⟩

section

variable (h : t.Exact srcBound dstBound)
include h

/-- With exact counters, compaction of an edge table fails only for a sort key that is not
supported. -/
theorem Exact.compact_eq (order : Option NbrSort) : t.compact order = match order with
      | none => .done t.settled
      | some order => if t.edges.isBundled then .done (t.settled.sorted order)
          else .failed .sortKeyUnsupported t.settled := by
  have hout : t.outCsr.compact.lift id t.setOut =
      .done (t.setOut ⟨t.edges.outCsr.compact, t.outNum⟩) := by
    rw [h.out.compact_eq]
    rfl
  have hin : (t.setOut ⟨t.edges.outCsr.compact, t.outNum⟩).inCsr.compact.lift id
      (t.setOut ⟨t.edges.outCsr.compact, t.outNum⟩).setIn = .done t.settled := by
    change t.inCsr.compact.lift id _ = _
    rw [h.into.compact_eq]
    rfl
  rw [CountedTable.compact, hout, Attempt.andThen, hin, Attempt.andThen]
  rfl

theorem Exact.settled : t.settled.Exact srcBound dstBound :=
  ⟨h.out.compacted, h.into.compacted⟩

theorem Exact.sorted (order : NbrSort) : (t.sorted order).Exact srcBound dstBound :=
  ⟨h.out.sorted order, h.into.sorted order⟩

end

end CountedTable

/-! ### Operations are writes -/

namespace Csr

variable {bound other : Nat} {csr csr' csr'' : Csr}

/-- Calls lead from one structure to the other, whatever is counted before. -/
def Called (bound other : Nat) (csr csr' : Csr) : Prop :=
  ∀ num, ∃ num', Relation.ReflTransGen (CountedCsr.Call bound other) ⟨csr, num⟩ ⟨csr', num'⟩

theorem Called.refl (csr : Csr) : csr.Called bound other csr :=
  fun num => ⟨num, .refl⟩

theorem Called.trans (h : csr.Called bound other csr') (h' : csr'.Called bound other csr'') :
    csr.Called bound other csr'' := by
  intro num
  obtain ⟨num', hcalls⟩ := h num
  obtain ⟨num'', hcalls'⟩ := h' num'
  exact ⟨num'', hcalls.trans hcalls'⟩

theorem called_of_run (call : CsrCall) (hwithin : call.Within bound other)
    (hrun : ∀ num, ∃ num', CountedCsr.run ⟨csr, num⟩ call = .ok ⟨csr', num'⟩) :
    csr.Called bound other csr' := by
  intro num
  obtain ⟨num', hnum⟩ := hrun num
  exact ⟨num', .single ⟨call, hwithin, hnum⟩⟩

theorem called_deleteEdge {v offset : Nat} {ts : Timestamp}
    (h : csr.deleteEdge v offset ts = .ok csr') : csr.Called bound other csr' :=
  called_of_run (.deleteEdge v offset ts) trivial fun num =>
    ⟨_, by rw [CountedCsr.run, h]; rfl⟩

theorem called_putEdge {v nbr : Nat} {data : Value} {ts : Timestamp} (hv : v < bound)
    (hnbr : nbr < other) (h : csr.putEdge v nbr data ts = .ok csr') : csr.Called bound other csr' :=
  called_of_run (.putEdge v nbr data ts) ⟨hv, hnbr⟩ fun num =>
    ⟨_, by rw [CountedCsr.run, h]; rfl⟩

theorem called_batchPutEdges {pairs : List (Nat × Nat)} {es : List (Nat × Nbr)}
    (hes : EdgeTable.Fresh pairs es) (hwithin : ∀ p ∈ pairs, p.1 < bound ∧ p.2 < other) :
    csr.Called bound other (csr.batchPutEdges es) := by
  let call := CsrCall.batchPutEdges (es.map fun e => (e.1, e.2.neighbor, e.2.data)) ⟨0, by decide⟩
  have hentries : CsrCall.entries (es.map fun e => (e.1, e.2.neighbor, e.2.data)) 0 = es := by
    rw [CsrCall.entries, List.map_map]
    refine (List.map_congr_left fun e he => ?_).trans (List.map_id es)
    exact Prod.ext rfl (by rw [← hes.zero e he]; rfl)
  refine called_of_run call (List.forall_mem_map.mpr fun e he => ?_) fun num =>
    ⟨_, by rw [CountedCsr.run, hentries]⟩
  exact hwithin _ (hes.ends ▸ List.mem_map_of_mem he)

end Csr

namespace EdgeTable

variable {srcBound dstBound : Nat} {et et' et'' : EdgeTable}

structure Called (srcBound dstBound : Nat) (et et' : EdgeTable) : Prop where
  out : et.outCsr.Called srcBound dstBound et'.outCsr
  into : et.inCsr.Called dstBound srcBound et'.inCsr

theorem Called.trans (h : et.Called srcBound dstBound et')
    (h' : et'.Called srcBound dstBound et'') :
    et.Called srcBound dstBound et'' :=
  ⟨h.out.trans h'.out, h.into.trans h'.into⟩

theorem SameCsr.called (h : et.SameCsr et') : et.Called srcBound dstBound et' := by
  constructor
  · rw [h.1]
    exact .refl _
  · rw [h.2]
    exact .refl _

theorem called_deleteEdge {src dst oe ie : Nat} {ts : Timestamp}
    (h : et.deleteEdge src dst oe ie ts = .ok et') : et.Called srcBound dstBound et' := by
  obtain ⟨out, hout, h⟩ := bind_eq_ok.mp h
  obtain ⟨into, hin, h⟩ := bind_eq_ok.mp h
  cases h
  exact ⟨Csr.called_deleteEdge hout, Csr.called_deleteEdge hin⟩

/-- A loop over deletions. -/
theorem called_of_foldlM {α : Type} {l : List α} {f : EdgeTable → α → Except EdgeError EdgeTable}
    (hround : ∀ et a et', f et a = .ok et' → et.Called srcBound dstBound et')
    (h : l.foldlM f et = .ok et') : et.Called srcBound dstBound et' :=
  foldlM_keeps (et.Called srcBound dstBound)
    (fun _ a _ _ hcalled hf => hcalled.trans (hround _ a _ hf))
    ⟨.refl _, .refl _⟩ h

theorem called_deleteVertex {past : PastEnd} {isSrc : Bool} {v : Nat} {ts : Timestamp}
    (h : et.deleteVertex past isSrc v ts = .ok et') : et.Called srcBound dstBound et' := by
  unfold deleteVertex at h
  split at h
  · cases h
  refine called_of_foldlM (fun et slot et' h => ?_) h
  unfold deleteSlot at h
  split at h
  · cases h
    exact SameCsr.called ⟨rfl, rfl⟩
  · obtain ⟨other, -, h⟩ := bind_eq_ok.mp h
    split at h
    · exact called_deleteEdge h
    · exact called_deleteEdge h

theorem called_deleteEdges {past : PastEnd} {src dst readTs : Nat} {writeTs : Timestamp}
    (h : et.deleteEdges past src dst readTs writeTs = .ok et') :
    et.Called srcBound dstBound et' := by
  unfold deleteEdges at h
  split at h
  · cases h
  obtain ⟨offsets, -, h⟩ := bind_eq_ok.mp h
  exact called_of_foldlM (fun _ _ _ h => called_deleteEdge h) h

theorem called_putBatch {pairs : List (Nat × Nat)} {es : List (Nat × Nbr)} (hes : Fresh pairs es)
    (hwithin : ∀ p ∈ pairs, p.1 < srcBound ∧ p.2 < dstBound) :
    et.Called srcBound dstBound (et.putBatch es) := by
  refine ⟨Csr.called_batchPutEdges hes hwithin, Csr.called_batchPutEdges hes.flip ?_⟩
  exact List.forall_mem_map.mpr fun p hp => (hwithin p hp).symm

theorem called_resize {csr : Csr} {bound other vnum : Nat} (h : bound ≤ vnum) :
    csr.Called bound other (csr.resize vnum) :=
  Csr.called_of_run (.resize vnum) h fun num => ⟨num, rfl⟩

theorem Relaid.called (hends : ∀ e ∈ et.outCsr.edges, e.1 < srcBound ∧ e.2.neighbor < dstBound)
    (h : et.Relaid et') : et.Called srcBound dstBound et' := by
  rcases h with hsame | ⟨es, hes, hsame⟩
  · exact hsame.called
  have hcleared : et.Called srcBound dstBound
      { et with outCsr := et.outCsr.cleared, inCsr := et.inCsr.cleared } :=
    ⟨Csr.called_of_run .renew trivial fun num => ⟨0, rfl⟩,
      Csr.called_of_run .renew trivial fun num => ⟨0, rfl⟩⟩
  exact (hcleared.trans (called_putBatch hes (List.forall_mem_map.mpr hends))).trans hsame.called

theorem called_updateEdgeProperty {src dst oe ie col : Nat} {value : Value} {ts : Timestamp}
    (h : et.updateEdgeProperty src dst oe ie col value ts = .ok et') :
    et.Called srcBound dstBound et' := by
  rcases updateEdgeProperty_csr h with hsame | ⟨-, type, oeNbr, ieNbr, hoe, hie, hout, hin⟩
  · exact hsame.called
  have hset : ∀ {bound other v offset : Nat} {csr : Csr} {nbr : Nbr},
      entryAt csr v offset ts = some nbr →
        csr.Called bound other (setInline csr v offset type value ts) := by
    intro bound other v offset csr nbr hentry
    exact Csr.called_of_run (.setData v offset type value ts) trivial fun num =>
      ⟨num, by rw [CountedCsr.run, hentry]⟩
  constructor
  · rw [hout]
    exact hset hoe
  · rw [hin]
    exact hset hie

end EdgeTable

namespace EdgeOp

/-- The ends of new edges are vertices, and room is made for all vertices.  Compaction is not
among the writes. -/
def Within (srcBound dstBound : Nat) : EdgeOp → Prop
  | addEdge src dst _ _ _ => src < srcBound ∧ dst < dstBound
  | batchAddEdges edges _ => ∀ e ∈ edges, e.1 < srcBound ∧ e.2.1 < dstBound
  | batchLoadEdges srcCap dstCap edges _ =>
    srcBound ≤ srcCap ∧ dstBound ≤ dstCap ∧ ∀ e ∈ edges, e.1 < srcBound ∧ e.2.1 < dstBound
  | reserveVertices srcCap dstCap => srcBound ≤ srcCap ∧ dstBound ≤ dstCap
  | compact _ => False
  | _ => True

open EdgeTable

variable {srcBound dstBound : Nat} {et et' : EdgeTable}

/-- What an operation that gets through does to the structures, it does by calls. -/
theorem called {op : EdgeOp}
    (hends : ∀ e ∈ et.outCsr.edges, e.1 < srcBound ∧ e.2.neighbor < dstBound)
    (hwithin : op.Within srcBound dstBound) (hrun : op.run et = .ok et') :
    et.Called srcBound dstBound et' := by
  have hbatch : ∀ {et et' : EdgeTable} {edges : List (Nat × Nat × List Value)} {defaults},
      (∀ e ∈ edges, e.1 < srcBound ∧ e.2.1 < dstBound) →
      et.batchAddEdges edges defaults = .ok et' → et.Called srcBound dstBound et' := by
    intro et et' edges defaults hedges hadd
    exact (called_putBatch (et.fresh_batchEntries edges) (List.forall_mem_map.mpr hedges)).trans
      (batchAddEdges_csr hadd).called
  cases op with
  | addEdge src dst props ts insertSafe =>
    obtain ⟨data, put, hput, hsame⟩ := addEdge_csr hrun
    obtain ⟨into, hin, hput⟩ := bind_eq_ok.mp hput
    obtain ⟨out, hout, hput⟩ := bind_eq_ok.mp hput
    cases hput
    exact Called.trans ⟨Csr.called_putEdge hwithin.1 hwithin.2 hout,
      Csr.called_putEdge hwithin.2 hwithin.1 hin⟩ hsame.called
  | batchAddEdges edges defaults => exact hbatch hwithin hrun
  | batchLoadEdges srcCap dstCap edges defaults =>
    obtain ⟨hsrc, hdst, hedges⟩ := hwithin
    exact Called.trans ⟨called_resize hsrc, called_resize hdst⟩ (hbatch hedges hrun)
  | deleteEdge src dst oeOffset ieOffset ts => exact called_deleteEdge hrun
  | deleteEdges past src dst readTs writeTs => exact called_deleteEdges hrun
  | batchDeleteEdges pairs =>
    cases hrun
    exact ⟨Csr.called_of_run (.batchDeleteEdges pairs) trivial fun num => ⟨_, rfl⟩,
      Csr.called_of_run (.batchDeleteEdges (pairs.map Prod.swap)) trivial fun num =>
        ⟨_, rfl⟩⟩
  | batchDeleteOffsets oeEdges ieEdges =>
    cases hrun
    exact ⟨Csr.called_of_run (.batchDeleteOffsets oeEdges) trivial fun num => ⟨_, rfl⟩,
      Csr.called_of_run (.batchDeleteOffsets ieEdges) trivial fun num => ⟨_, rfl⟩⟩
  | deleteVertex past isSrc v ts => exact called_deleteVertex hrun
  | batchDeleteVertices srcSet dstSet =>
    cases hrun
    exact ⟨Csr.called_of_run (.batchDeleteVertices srcSet dstSet) trivial fun num =>
      ⟨_, rfl⟩, Csr.called_of_run (.batchDeleteVertices dstSet srcSet) trivial fun num =>
        ⟨_, rfl⟩⟩
  | updateEdgeProperty src dst oeOffset ieOffset col value ts =>
    exact called_updateEdgeProperty hrun
  | addProperties types oldDefaults defaults => exact (addProperties_relaid hrun).called hends
  | deleteProperties cols => exact (deleteProperties_relaid hrun).called hends
  | compact order => exact hwithin.elim
  | ensureCapacity capacity defaults => exact (ensureCapacity_csr hrun).called
  | reserveVertices srcCap dstCap =>
    cases hrun
    have hgrow : ∀ {bound other vnum : Nat} (csr : Csr), bound ≤ vnum →
        csr.Called bound other (if csr.size < vnum then csr.resize vnum else csr) := by
      intro bound other vnum csr hle
      split
      · exact called_resize hle
      · exact .refl csr
    exact ⟨hgrow _ hwithin.1, hgrow _ hwithin.2⟩

end EdgeOp

/-- An operation of a table with exact counters is a write, for some counters after it. -/
theorem CountedTable.Exact.exists_written {t : CountedTable} {srcBound dstBound : Nat}
    (h : t.Exact srcBound dstBound) {op : EdgeOp} (hwithin : op.Within srcBound dstBound)
    {et' : EdgeTable} (hrun : op.run t.edges = .ok et') :
    ∃ t', t'.edges = et' ∧ t.Written srcBound dstBound t' := by
  obtain ⟨hout, hin⟩ := EdgeOp.called h.out.ends hwithin hrun
  obtain ⟨outNum, hout⟩ := hout t.outNum
  obtain ⟨inNum, hin⟩ := hin t.inNum
  exact ⟨⟨et', outNum, inNum⟩, rfl, hout, hin⟩

end Neug.Storage
