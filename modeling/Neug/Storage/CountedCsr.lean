import Neug.Library.Attempt
import Neug.Storage.CsrBatch
import Neug.Storage.EdgeTableRuns

/-! # Edge counters

An adjacency structure counts its edges in a 64-bit counter, which each call that changes the
structure updates on its own.  Compaction counts the entries it keeps and compares: a counter
that is off by one makes it fail, after the lists have been compacted.  The counter is exact
after every sequence of calls, as long as no resizing cuts lists off.
-/

namespace Neug.Storage

open Library Multiset

/-- An adjacency structure with its counter `edge_num_`. -/
structure CountedCsr where
  csr : Csr
  edgeNum : UInt64

/-- The calls by which an edge table changes an adjacency structure. -/
inductive CsrCall where
  | resize (vnum : Nat)
  | putEdge (src dst : Nat) (data : Value) (ts : Timestamp)
  | batchPutEdges (edges : List (Nat × Nat × Value)) (ts : Timestamp)
  | deleteEdge (src offset : Nat) (ts : Timestamp)
  | batchDeleteVertices (srcSet dstSet : List Nat)
  | batchDeleteEdges (pairs : List (Nat × Nat))
  | batchDeleteOffsets (edges : List (Nat × Nat))
  /-- The data of an entry that an iterator at the timestamp sees. -/
  | setData (src offset : Nat) (type : DataType) (value : Value) (ts : Timestamp)
  /-- A new structure of the same layout and size takes the place of the old one. -/
  | renew

inductive CompactError where
  | inconsistentEdgeCount (expected : UInt64) (actual : Nat)
  | sortKeyUnsupported
  | addVertexLabel (name : String)
  | addEdgeLabel (name : String)
  | getVertexLabel (name : String)
  | getEdgeLabel (name : String)
  | labelOverflow
  /-- A loop over all ids of a `label_t` does not end. -/
  | endless
  /-- `at` on the edge tables. -/
  | noEdgeTable
  deriving DecidableEq, Repr

namespace CsrCall

def entries (edges : List (Nat × Nat × Value)) (ts : Nat) : List (Nat × Nbr) :=
  edges.map fun e => (e.1, ⟨e.2.1, ts, e.2.2⟩)

/-- The call stays within the vertices on both sides: it puts no edge to or from a vertex
beyond, and does not cut the structure off before. -/
def Within (bound other : Nat) : CsrCall → Prop
  | resize vnum => bound ≤ vnum
  | putEdge src dst _ _ => src < bound ∧ dst < other
  | batchPutEdges edges _ => ∀ e ∈ edges, e.1 < bound ∧ e.2.1 < other
  | _ => True

end CsrCall

namespace CountedCsr

def counting (c : CountedCsr) (num : UInt64) : UInt64 :=
  if c.csr.type = .empty then c.edgeNum else num

/-- The counter after the entries with a property are gone; entries that were marked before
are not counted again. -/
def without (c : CountedCsr) (p : Nat × Nbr → Bool) : UInt64 :=
  c.counting (c.edgeNum - .ofNat (c.csr.batchExport.countP p))

/-- What a call does to the structure and to its counter. -/
def run (c : CountedCsr) : CsrCall → Except EdgeError CountedCsr
  | .resize vnum => .ok ⟨c.csr.resize vnum, c.edgeNum⟩
  | .putEdge src dst data ts => do
      let csr ← c.csr.putEdge src dst data ts
      .ok ⟨csr, c.counting (c.edgeNum + 1)⟩
  | .batchPutEdges edges ts =>
    -- edges of vertices beyond the capacity are skipped
    .ok ⟨c.csr.batchPutEdges (CsrCall.entries edges ts), c.counting
      (c.edgeNum + .ofNat (edges.countP fun e => e.1 < c.csr.vertexCapacity))⟩
  | .deleteEdge src offset ts => do
      let csr ← c.csr.deleteEdge src offset ts
      .ok ⟨csr, c.counting (c.edgeNum - .ofNat (c.csr.struck src offset ts).toList.length)⟩
  | .batchDeleteVertices srcSet dstSet =>
    .ok ⟨c.csr.batchDeleteVertices srcSet dstSet,
      c.without fun e => e.1 ∈ srcSet ∨ e.2.neighbor ∈ dstSet⟩
  | .batchDeleteEdges pairs =>
    .ok ⟨c.csr.batchDeleteEdges pairs, c.without fun e => pairs.contains (e.1, e.2.neighbor)⟩
  | .batchDeleteOffsets edges =>
    .ok ⟨c.csr.batchDeleteOffsets edges,
      c.counting (c.edgeNum - .ofNat (c.csr.struckBy edges).length)⟩
  | .setData src offset type value ts =>
    match EdgeTable.entryAt c.csr src offset ts with
    | none => .ok c
    | some _ => .ok ⟨EdgeTable.setInline c.csr src offset type value ts, c.edgeNum⟩
  | .renew => .ok ⟨c.csr.cleared, 0⟩

/-- A call within the vertices on both sides. -/
def Call (bound other : Nat) (c c' : CountedCsr) : Prop :=
  ∃ call : CsrCall, call.Within bound other ∧ c.run call = .ok c'

def compact (c : CountedCsr) : Attempt CompactError CountedCsr :=
  let total := (owned c.csr.vertexCapacity c.csr.compact.lists).length
  if c.csr.type = .mutable ∧ UInt64.ofNat total ≠ c.edgeNum then
    .failed (.inconsistentEdgeCount c.edgeNum total) ⟨c.csr.compact, c.edgeNum⟩
  else .done ⟨c.csr.compact, c.edgeNum⟩

/-- What holds of a structure after any sequence of calls within some numbers of vertices. -/
structure Exact (bound other : Nat) (c : CountedCsr) : Prop where
  framed : c.csr.Framed
  ends : ∀ e ∈ c.csr.edges, e.1 < bound ∧ e.2.neighbor < other
  count : c.csr.type = .mutable → c.edgeNum = .ofNat c.csr.edges.card

variable {c c' : CountedCsr} {bound other : Nat}

section

theorem counting_of_mutable (num : UInt64) (htype : c.csr.type = .mutable) :
    c.counting num = num := by
  rw [counting, if_neg (by simp [htype])]

theorem entries_live (edges : List (Nat × Nat × Value)) (ts : Timestamp) :
    ∀ e ∈ CsrCall.entries edges ts, e.2.live = true := by
  intro e he
  obtain ⟨edge, -, rfl⟩ := List.mem_map.mp he
  exact Nbr.live_of_le ts.isLt (Nat.le_refl _)

variable (h : c.Exact bound other)
include h

theorem Exact.mono {bound' other' : Nat} (hbound : bound ≤ bound')
    (hother : other ≤ other') : c.Exact bound' other' :=
  ⟨h.framed, fun e he => ⟨(h.ends e he).1.trans_le hbound, (h.ends e he).2.trans_le hother⟩,
    h.count⟩

variable {csr : Csr}

/-- Where nothing is counted, the counter does not matter. -/
theorem Exact.of_empty (htype : c.csr.type = .empty)
    (hsame : csr = c.csr) (num : UInt64) : Exact bound other ⟨csr, num⟩ := by
  subst hsame
  exact ⟨h.framed, h.ends, fun hmutable => by simp [htype] at hmutable⟩

variable {gone new : Multiset (Nat × Nbr)}

/-- Some edges go and others come, and the counter follows. -/
theorem Exact.exchange {num : UInt64} (hx : c.csr.Exchange csr gone new)
    (hnew : ∀ e ∈ new, e.1 < bound ∧ e.2.neighbor < other)
    (hnum : c.csr.type = .mutable → num + .ofNat gone.card = c.edgeNum + .ofNat new.card) :
    Exact bound other ⟨csr, num⟩ := by
  refine ⟨hx.framed, fun e he => ?_, fun hmutable => ?_⟩
  · have hmem : e ∈ c.csr.edges + new := by
      rw [← hx.edges_eq]
      exact mem_add.mpr (.inl he)
    rcases mem_add.mp hmem with hold | hcame
    · exact h.ends e hold
    · exact hnew e hcame
  · have hlists : c.csr.type = .mutable := hx.type_eq.symm.trans hmutable
    have hsum := hnum hlists
    rw [h.count hlists, ← UInt64.ofNat_add, ← card_add, ← hx.edges_eq,
      card_add, UInt64.ofNat_add] at hsum
    exact (UInt64.add_left_inj _).mp hsum

theorem Exact.remove (hx : c.csr.Exchange csr gone 0) :
    Exact bound other ⟨csr, c.counting (c.edgeNum - .ofNat gone.card)⟩ := by
  refine h.exchange hx ?_ ?_
  · intro e he
    cases he
  · intro hmutable
    rw [counting_of_mutable _ hmutable, UInt64.sub_add_cancel, card_zero]
    exact (UInt64.add_zero _).symm

theorem Exact.without (p : Nat × Nbr → Bool)
    (hx : c.csr.Exchange csr (c.csr.edges.filter fun e => p e = true) 0) :
    Exact bound other ⟨csr, c.without p⟩ := by
  have hcount : c.csr.batchExport.countP p =
      (c.csr.edges.filter fun e => p e = true).card := by
    rw [Csr.edges, filter_coe, coe_card, List.countP_eq_length_filter]
    simp
  rw [CountedCsr.without, hcount]
  exact h.remove hx

omit h in
/-- The entries that a batch leaves out are those beyond the capacity. -/
theorem card_lost (htype : csr.type = .mutable) (es : List (Nat × Nbr)) :
    es.countP (fun e => e.1 < csr.vertexCapacity) + (csr.lost es).length = es.length := by
  induction es generalizing csr with
  | nil => rfl
  | cons e rest ih =>
    obtain ⟨hsame, hsize⟩ := csr.batchPutEdge_layout e
    have hrest := @ih (csr.batchPutEdge e) (hsame.trans htype)
    rw [hsize] at hrest
    rw [Csr.lost, List.length_append, List.countP_cons, List.length_cons, Csr.displaced]
    by_cases hv : e.1 < csr.vertexCapacity
    · simp only [hv, htype, if_true, decide_true, List.length_nil]
      omega
    · simp only [hv, if_false, decide_false, Bool.false_eq_true, List.length_singleton]
      omega

theorem Exact.batchPutEdges {edges : List (Nat × Nat × Value)}
    (hwithin : ∀ e ∈ edges, e.1 < bound ∧ e.2.1 < other) (ts : Timestamp) :
    Exact bound other ⟨c.csr.batchPutEdges (CsrCall.entries edges ts), c.counting
      (c.edgeNum + .ofNat (edges.countP fun e => e.1 < c.csr.vertexCapacity))⟩ := by
  refine h.exchange (Csr.exchange_batchPutEdges h.framed (entries_live edges ts)) ?_ ?_
  · intro e he
    obtain ⟨edge, hedge, rfl⟩ := List.mem_map.mp he
    exact hwithin edge hedge
  · intro hmutable
    have hlost := card_lost hmutable (CsrCall.entries edges ts)
    rw [CsrCall.entries, List.countP_map] at hlost
    rw [counting_of_mutable _ hmutable, coe_card, coe_card, CsrCall.entries,
      ← hlost, UInt64.ofNat_add, UInt64.add_assoc]
    rfl

theorem Exact.run {call : CsrCall} (hcall : call.Within bound other)
    (hrun : c.run call = .ok c') : c'.Exact bound other := by
  cases call with
  | resize vnum =>
    cases hrun
    by_cases hempty : c.csr.type = .empty
    · exact h.of_empty hempty (by rw [Csr.resize, hempty]) _
    · refine h.exchange (Csr.exchange_resize h.framed hempty fun e he =>
        (h.ends e he).1.trans_le hcall) ?_ fun _ => rfl
      intro e he
      cases he
  | putEdge src dst data ts =>
    obtain ⟨csr, hput, hrun⟩ := bind_eq_ok.mp hrun
    cases hrun
    by_cases hempty : c.csr.type = .empty
    · rw [Csr.putEdge, hempty] at hput
      cases hput
      exact h.of_empty hempty rfl _
    · have hx := Csr.exchange_putEdge h.framed hempty hput
      rw [liveEdges_single (Nbr.live_of_le ts.isLt (Nat.le_refl _))] at hx
      refine h.exchange hx ?_ ?_
      · intro e he
        rw [mem_singleton.mp he]
        exact hcall
      · intro hmutable
        rw [counting_of_mutable _ hmutable, card_zero, card_singleton]
        exact UInt64.add_zero _
  | batchPutEdges edges ts =>
    cases hrun
    exact h.batchPutEdges hcall ts
  | deleteEdge src offset ts =>
    obtain ⟨csr, hdelete, hrun⟩ := bind_eq_ok.mp hrun
    cases hrun
    by_cases hempty : c.csr.type = .empty
    · rw [Csr.deleteEdge, hempty] at hdelete
      cases hdelete
      exact h.of_empty hempty rfl _
    · have hremoved := h.remove (Csr.exchange_deleteEdge h.framed hempty ts.isLt hdelete)
      rwa [coe_card] at hremoved
  | batchDeleteVertices srcSet dstSet =>
    cases hrun
    by_cases hempty : c.csr.type = .empty
    · exact h.of_empty hempty (by rw [Csr.batchDeleteVertices, hempty]) _
    · apply h.without
      simpa using Csr.exchange_batchDeleteVertices h.framed hempty srcSet dstSet
  | batchDeleteEdges pairs =>
    cases hrun
    by_cases hempty : c.csr.type = .empty
    · exact h.of_empty hempty (by rw [Csr.batchDeleteEdges, hempty]) _
    · apply h.without
      simpa using Csr.exchange_batchDeleteEdges h.framed hempty pairs
  | batchDeleteOffsets edges =>
    cases hrun
    have hremoved := h.remove (Csr.exchange_batchDeleteOffsets h.framed edges)
    rwa [coe_card] at hremoved
  | setData src offset type value ts =>
    rw [CountedCsr.run] at hrun
    split at hrun
    next =>
      cases hrun
      exact h
    next entry hentry =>
      cases hrun
      obtain ⟨hslot, hle⟩ := EdgeTable.mem_entryAt hentry
      refine h.exchange (EdgeTable.exchange_setInline h.framed ts.isLt hentry type value) ?_
        fun _ => rfl
      intro e he
      rw [mem_singleton.mp he]
      -- only the timestamp and the data are new
      have hmem : (src, entry) ∈ c.csr.edges := Csr.mem_edges.mpr
        ⟨h.framed.lt_capacity hslot, List.mem_of_getElem? hslot, Nbr.live_of_le ts.isLt hle⟩
      exact h.ends (src, entry) hmem
  | renew =>
    cases hrun
    have hx : c.csr.Exchange c.csr.cleared c.csr.edges 0 := by
      refine ⟨h.framed.cleared, rfl, ?_⟩
      rw [Csr.edges_cleared, zero_add, add_zero]
    refine h.exchange hx ?_ ?_
    · intro e he
      cases he
    · intro hmutable
      rw [h.count hmutable]
      exact UInt64.add_comm _ _

theorem Exact.calls (hcalls : Relation.ReflTransGen (Call bound other) c c') :
    c'.Exact bound other := by
  induction hcalls with
  | refl => exact h
  | tail _ hcall ih =>
    obtain ⟨call, hwithin, hrun⟩ := hcall
    exact ih.run hwithin hrun

/-! ### Compaction -/

omit h in
/-- Compaction leaves entries of edges only. -/
theorem owned_compact (htype : csr.type = .mutable) :
    (owned csr.vertexCapacity csr.compact.lists).length = csr.edges.card := by
  have hlists : csr.compact.lists =
      fun v => ((csr.lists v).filter Nbr.live).map Csr.settled := by
    rw [Csr.compact, htype]
  rw [hlists, owned_map _ _ fun _ => Csr.settled, List.length_map,
    owned_filter _ _ fun _ => Nbr.live, Csr.edges, coe_card, Csr.batchExport]

theorem Exact.compacted : Exact bound other ⟨c.csr.compact, c.edgeNum⟩ := by
  by_cases hempty : c.csr.type = .empty
  · have hsame : c.csr.compact = c.csr := by rw [Csr.compact, hempty]
    rw [hsame]
    exact h
  · refine h.exchange (Csr.exchange_compact h.framed hempty) (fun e he => ?_) fun _ => ?_
    · obtain ⟨old, hold, rfl⟩ := mem_map.mp he
      exact h.ends old hold
    · rw [card_map]

theorem Exact.compact_eq : c.compact = .done ⟨c.csr.compact, c.edgeNum⟩ := by
  refine if_neg ?_
  rintro ⟨hmutable, hne⟩
  rw [owned_compact hmutable] at hne
  exact hne (h.count hmutable).symm

theorem Exact.sorted (order : NbrSort) :
    Exact bound other ⟨c.csr.batchSortByEdgeData order, c.edgeNum⟩ := by
  refine h.exchange (Csr.exchange_batchSortByEdgeData h.framed order) (fun e he => ?_) fun _ => rfl
  cases he

end

end CountedCsr

end Neug.Storage
