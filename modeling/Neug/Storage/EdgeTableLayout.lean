import Neug.Storage.EdgeTableRuns
import Neug.Storage.TableGrowth

/-! # Layouts of edge tables

An edge table has one of three layouts: no data, one inline property, or rows of a property
table.  To change the layout, the outgoing edges are exported and both structures are built
anew.  This file says what readers see of a table whose structures were kept or rebuilt.
-/

namespace Neug.Storage

open Library Function Multiset

/-! ## What fits together -/

namespace EdgeTable

variable {et et' : EdgeTable} {ts : Nat}

/-- The structures store the same edges where both store any, and entries point to rows of
the columns. -/
structure WellLaid (et : EdgeTable) : Prop where
  outFramed : et.outCsr.Framed
  inFramed : et.inCsr.Framed
  outNone : et.outCsr.type = .empty → et.outCsr.vertexCapacity = 0
  same : et.outCsr.type ≠ .empty → et.inCsr.type ≠ .empty →
    et.outCsr.edges = et.inCsr.edges.map flipEdge
  columns : et.table.map Column.type = if et.isBundled then [] else et.properties
  noEmpty : DataType.empty ∉ et.properties
  outRows : ∀ c ∈ et.table, ∀ e ∈ et.outCsr.edges, rowOf e.2.data < c.size
  inRows : ∀ c ∈ et.table, ∀ e ∈ et.inCsr.edges, rowOf e.2.data < c.size

theorem WellLaid.balanced (h : et.WellLaid) (hout : et.outCsr.type ≠ .empty)
    (hin : et.inCsr.type ≠ .empty) : et.Balanced :=
  ⟨⟨hout, hin⟩, h.outFramed, h.inFramed, h.same hout hin⟩

theorem WellLaid.batchExport_nil (h : et.WellLaid) (hout : et.outCsr.type = .empty) :
    et.outCsr.batchExport = [] := by
  rw [Csr.batchExport, h.outNone hout]
  rfl

def withValues (f : List Value → List Value) (e : Nat × Nat × List Value) :
    Nat × Nat × List Value :=
  (e.1, e.2.1, f e.2.2)

/-- Readers see the same edges as before, with other properties, in both directions that are
stored. -/
def Reads (et : EdgeTable) (ts : Nat) (f : List Value → List Value) (et' : EdgeTable) : Prop :=
  (et.outCsr.type ≠ .empty → et'.outgoing ts = (et.outgoing ts).map (withValues f)) ∧
    (et.inCsr.type ≠ .empty → et'.incoming ts = (et.incoming ts).map (withValues f))

def Seen (et : EdgeTable) (ts : Nat) : Prop :=
  et.outCsr.type ≠ .empty ∧ et.outgoing ts ≠ 0 ∨ et.inCsr.type ≠ .empty ∧ et.incoming ts ≠ 0

/-- What the outgoing structure exports is what a reader sees. -/
def Exports (et : EdgeTable) (ts : Nat) : Prop :=
  (et.outCsr.type ≠ .empty → ∀ e ∈ et.outCsr.edges, e.2.timestamp ≤ ts) ∧
    (et.outCsr.type = .empty → et.inCsr.type ≠ .empty → et.incoming ts = 0)

def exported (et : EdgeTable) : Multiset (Nat × Nat × List Value) :=
  et.outCsr.edges.map fun e => (e.1, e.2.neighbor, et.values e.2.data)

/-! ## Two ways to change a table -/

/-- The structures stay, and the values of every entry change. -/
structure Refitted (et et' : EdgeTable) (ts : Nat) (g : List Value → List Value) : Prop where
  out : et'.outgoing ts = (et.outgoing ts).map (withValues g)
  into : et'.incoming ts = (et.incoming ts).map (withValues g)

/-- The structures are built anew from what is exported. -/
structure Rebuilt (et et' : EdgeTable) (ts : Nat) (g : List Value → List Value) : Prop where
  out : et.outCsr.type ≠ .empty → et'.outgoing ts = et.exported.map (withValues g)
  both : et.outCsr.type ≠ .empty → et.inCsr.type ≠ .empty → et'.incoming ts = et'.outgoing ts
  none : et.outCsr.type = .empty → et'.incoming ts = 0

variable {f g : List Value → List Value} {Q : Prop}

theorem Refitted.reads_iff (h : et.Refitted et' ts g)
    (hagree : ∀ s : Multiset (Nat × Nat × List Value),
      s.map (withValues g) = s.map (withValues f) ↔ (s ≠ 0 → Q)) :
    et.Reads ts f et' ↔ (et.Seen ts → Q) := by
  rw [Reads, h.out, h.into, hagree, hagree]
  constructor
  · rintro ⟨hout, hin⟩ (⟨hstored, hsome⟩ | ⟨hstored, hsome⟩)
    · exact hout hstored hsome
    · exact hin hstored hsome
  · intro hseen
    exact ⟨fun hstored hsome => hseen (.inl ⟨hstored, hsome⟩),
      fun hstored hsome => hseen (.inr ⟨hstored, hsome⟩)⟩

/-- A reader sees all edges if it sees as many as there are. -/
theorem visible_eq_edges_iff (csr : Csr) (hts : ts < kDeletedTimestamp) :
    (visible csr ts).card = csr.edges.card ↔ ∀ e ∈ csr.edges, e.2.timestamp ≤ ts := by
  rw [visible_eq csr hts]
  constructor
  · intro hcard
    have hall := eq_of_le_of_card_le (filter_le _ csr.edges) hcard.ge
    exact filter_eq_self.mp hall
  · intro hall
    rw [filter_eq_self.mpr hall]

theorem outgoing_eq_exported (hts : ts < kDeletedTimestamp)
    (hall : ∀ e ∈ et.outCsr.edges, e.2.timestamp ≤ ts) : et.outgoing ts = et.exported := by
  rw [outgoing, exported, visible_eq _ hts, filter_eq_self.mpr hall]

theorem Rebuilt.reads_iff (h : et.Rebuilt et' ts g) (hlaid : et.WellLaid)
    (hts : ts < kDeletedTimestamp) (hagree : ∀ s : Multiset (Nat × Nat × List Value),
      s.map (withValues g) = s.map (withValues f) ↔ (s ≠ 0 → Q)) :
    et.Reads ts f et' ↔ et.Exports ts ∧ (et.Seen ts → Q) := by
  by_cases hout : et.outCsr.type = .empty
  · -- nothing is exported
    have hzero : 0 = (et.incoming ts).map (withValues f) ↔ et.incoming ts = 0 := by
      rw [eq_comm, Multiset.map_eq_zero]
    rw [Reads, Exports, Seen, h.none hout]
    simp only [hout, ne_eq, not_true_eq_false, false_implies, true_and, false_and, false_or,
      forall_const, hzero]
    constructor
    · intro hnone
      exact ⟨hnone, fun ⟨hstored, hsome⟩ => absurd (hnone hstored) hsome⟩
    · exact And.left
  · have hincoming : et.inCsr.type ≠ .empty → et.incoming ts = et.outgoing ts := fun hin =>
      ((hlaid.balanced hout hin).outgoing_eq hts).symm
    have hseen : et.Seen ts ↔ et.outgoing ts ≠ 0 := by
      constructor
      · rintro (⟨-, hsome⟩ | ⟨hin, hsome⟩)
        · exact hsome
        · rwa [hincoming hin] at hsome
      · exact fun hsome => .inl ⟨hout, hsome⟩
    have hexports : et.Exports ts ↔ ∀ e ∈ et.outCsr.edges, e.2.timestamp ≤ ts := by
      rw [Exports]
      simp only [hout, ne_eq, not_false_eq_true, true_implies, false_implies, and_true]
    have hreads : et.Reads ts f et' ↔
        et.exported.map (withValues g) = (et.outgoing ts).map (withValues f) := by
      rw [Reads, h.out hout]
      constructor
      · exact fun hboth => hboth.1 hout
      · intro hsame
        refine ⟨fun _ => hsame, fun hin => ?_⟩
        rw [h.both hout hin, h.out hout, hincoming hin]
        exact hsame
    rw [hreads, hexports, hseen]
    constructor
    · intro hsame
      have hcard := congrArg Multiset.card hsame
      simp only [card_map, exported, outgoing] at hcard
      have hall := (visible_eq_edges_iff et.outCsr hts).mp hcard.symm
      rw [← outgoing_eq_exported hts hall] at hsame
      exact ⟨hall, (hagree _).mp hsame⟩
    · rintro ⟨hall, hseen⟩
      rw [← outgoing_eq_exported hts hall]
      exact (hagree _).mpr hseen

/-! ## Rebuilding -/

variable {es : List (Nat × Nbr)}

/-- What the structures hold that were built from edges of the vertices of the old ones. -/
theorem edges_rebuild {csr : Csr} (hframed : csr.Framed) (hstored : csr.type ≠ .empty)
    (hlive : ∀ e ∈ es, e.2.live = true)
    (howners : (↑(es.map Prod.fst) : Multiset Nat) = csr.edges.map Prod.fst) :
    (csr.cleared.batchPutEdges es).edges = ↑es := by
  have hput := (Csr.exchange_batchPutEdges hframed.cleared hlive).edges_eq
  have hlost := @Csr.lost_eq_nil csr.cleared hstored es (hframed.takes_cleared howners)
  rwa [hlost, Csr.edges_cleared, coe_nil, add_zero, zero_add] at hput

/-- What a reader sees of a structure whose entries all have the timestamp 0. -/
theorem visible_of_settled {csr : Csr} (hts : ts < kDeletedTimestamp)
    (hzero : ∀ e ∈ csr.edges, e.2.timestamp = 0) : visible csr ts = csr.edges := by
  rw [visible_eq csr hts]
  apply filter_eq_self.mpr
  intro e he
  rw [hzero e he]
  exact Nat.zero_le ts

/-- What a reader sees of a table that was rebuilt. -/
theorem outgoing_rebuild (hframed : et.outCsr.Framed) (hout : et.outCsr.type ≠ .empty)
    (hes : et.Entries es) (hts : ts < kDeletedTimestamp) :
    (et.rebuild es).outgoing ts = ↑(es.map fun e => (e.1, e.2.neighbor, et.values e.2.data)) := by
  have howners : (↑(es.map Prod.fst) : Multiset Nat) = et.outCsr.edges.map Prod.fst := by
    rw [hes.sources, List.map_map]
    rfl
  have hedges : (et.rebuild es).outCsr.edges = ↑es := edges_rebuild hframed hout hes.live howners
  have hvisible : visible (et.rebuild es).outCsr ts = ↑es := by
    rw [visible_of_settled hts ?_, hedges]
    rw [hedges]
    exact hes.zero
  rw [outgoing, hvisible]
  rfl

theorem incoming_rebuild_nil (et : EdgeTable) (hts : ts < kDeletedTimestamp) :
    (et.rebuild []).incoming ts = 0 := by
  have hedges : (et.rebuild []).inCsr.edges = 0 := Csr.edges_cleared et.inCsr
  rw [incoming, visible_of_settled hts ?_, hedges]
  · rfl
  · rw [hedges]
    exact fun e he => absurd he (notMem_zero e)

/-- A table with the structures of another one and other properties, rebuilt. -/
theorem WellLaid.rebuilt (h : et.WellLaid) {et₀ : EdgeTable} (hout : et₀.outCsr = et.outCsr)
    (hin : et₀.inCsr = et.inCsr) (hes : et₀.Entries es) (hts : ts < kDeletedTimestamp)
    (hvalues : (es.map fun e => (e.1, e.2.neighbor, et₀.values e.2.data)) =
      et.outCsr.batchExport.map fun e => (e.1, e.2.neighbor, g (et.values e.2.data))) :
    et.Rebuilt (et₀.rebuild es) ts g := by
  refine ⟨fun hstored => ?_, fun hstored hinStored => ?_, fun hnone => ?_⟩
  · rw [← hout] at hstored
    rw [outgoing_rebuild (hout ▸ h.outFramed) hstored hes hts, hvalues, exported, Csr.edges,
      map_coe, map_coe, List.map_map]
    rfl
  · have hbalanced := (h.balanced hstored hinStored).of_sameCsr ⟨hout, hin⟩
    exact ((hbalanced.rebuild hes).outgoing_eq hts).symm
  · have hnil : es = [] := by
      have hends := hes.ends
      rw [hout, h.batchExport_nil hnone, List.map_nil, List.map_eq_nil_iff] at hends
      exact hends
    rw [hnil]
    exact incoming_rebuild_nil et₀ hts

theorem WellLaid.rebuilt_exportWith (h : et.WellLaid) (et₀ : EdgeTable)
    (hout : et₀.outCsr = et.outCsr) (hin : et₀.inCsr = et.inCsr) (hts : ts < kDeletedTimestamp)
    (data : Nat × Nbr → Value)
    (hvalues : ∀ e ∈ et.outCsr.edges, et₀.values (data e) = g (et.values e.2.data)) :
    et.Rebuilt (et₀.rebuild (et₀.exportWith data)) ts g := by
  apply h.rebuilt hout hin (entries_exportWith et₀ data) hts
  rw [exportWith, hout, List.map_map]
  apply List.map_congr_left
  intro e he
  simp only [comp, hvalues e he]

theorem rowOf_rowData (i : Nat) : rowOf (rowData i) = i := Int.toNat_natCast i

theorem WellLaid.rebuilt_exportRows (h : et.WellLaid) (et₀ : EdgeTable)
    (hout : et₀.outCsr = et.outCsr) (hin : et₀.inCsr = et.inCsr) (hts : ts < kDeletedTimestamp)
    (hvalues : ∀ i e, et.outCsr.batchExport[i]? = some e →
      et₀.values (rowData i) = g (et.values e.2.data)) :
    et.Rebuilt (et₀.rebuild et₀.exportRows) ts g := by
  apply h.rebuilt hout hin et₀.entries_exportRows hts
  rw [exportRows, hout, List.map_map]
  conv_rhs => rw [← List.zipIdx_map_fst 0 et.outCsr.batchExport, List.map_map]
  apply List.map_congr_left
  intro m hm
  have hat : et.outCsr.batchExport[m.2]? = some m.1 := by
    have hget := List.mem_zipIdx_iff_getElem?.mp hm
    simpa using hget
  simp only [comp, hvalues m.2 m.1 hat]

theorem refitted_of_values (hout : et'.outCsr = et.outCsr) (hin : et'.inCsr = et.inCsr)
    (hts : ts < kDeletedTimestamp)
    (houtValues : ∀ e ∈ et.outCsr.edges, et'.values e.2.data = g (et.values e.2.data))
    (hinValues : ∀ e ∈ et.inCsr.edges, et'.values e.2.data = g (et.values e.2.data)) :
    et.Refitted et' ts g := by
  constructor
  · rw [outgoing, outgoing, hout, map_map]
    apply Multiset.map_congr rfl
    intro e he
    rw [visible_eq _ hts] at he
    simp only [comp, withValues, houtValues e (mem_filter.mp he).1]
  · rw [incoming, incoming, hin, map_map]
    apply Multiset.map_congr rfl
    intro e he
    rw [visible_eq _ hts] at he
    simp only [comp, withValues, hinValues e (mem_filter.mp he).1]

/-! ## Layouts -/

theorem isBundled_iff (et : EdgeTable) : et.isBundled = true ↔
      et.properties = [] ∨ ∃ t, et.properties = [t] ∧ ∀ width, t ≠ .varchar width := by
  unfold isBundled
  split
  next hnil => simp [hnil]
  next width hone => simp [hone]
  next t hother hone =>
    simp only [true_iff]
    refine .inr ⟨t, hone, ?_⟩
    rintro width rfl
    exact hother width rfl
  next hnil hvarchar hone =>
    simp only [Bool.false_eq_true, false_iff, not_or]
    refine ⟨hnil, ?_⟩
    rintro ⟨t, ht, -⟩
    exact hone t ht

theorem WellLaid.isBundled_of_table (h : et.WellLaid) : et.isBundled = true ↔ et.table = [] := by
  have hcolumns := h.columns
  constructor
  · intro hbundled
    rw [if_pos hbundled, List.map_eq_nil_iff] at hcolumns
    exact hcolumns
  · intro hnil
    by_contra hnot
    rw [if_neg hnot, hnil] at hcolumns
    exact hnot ((isBundled_iff et).mpr (.inl hcolumns.symm))

theorem values_of_bundled (hbundled : et.isBundled = true) (data : Value) :
    et.values data = if et.properties = [] then [] else [data] := by
  rw [values, if_pos hbundled]

theorem values_of_rows (hrows : et.isBundled = false) (data : Value) :
    et.values data = Table.row et.table (rowOf data) := by
  rw [values, hrows]
  rfl

end EdgeTable

end Neug.Storage
