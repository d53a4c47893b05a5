import Neug.Transaction.MvccInsertRuns

/-! # What concurrent committers do to an edge table

The moves of a committer on an edge table, and who owns what it writes: a row of
the property table belongs to the committer that claimed it, until its edge is
written and for ever after, and every timestamp belongs to one transaction.
-/

namespace Neug.Transaction

open Function
open Storage Library

theorem rowData_inj {r r' : Nat} (h : rowData r = rowData r') : r = r' := by
  injection h with _ hpayload
  exact Int.ofNat_inj.mp hpayload

/-- An adjacency entry of the table, in either direction. -/
def HasNbr (et : EdgeTable) (nbr : Nbr) : Prop :=
  ∃ v, nbr ∈ et.outCsr.lists v ∨ nbr ∈ et.inCsr.lists v

/-- The row of the property table that a committer has claimed for its edge. -/
def IngestPc.row : IngestPc → Option Nat
  | putIn _ _ row | putOut _ _ row => row
  | setEdgeProp row _ => some row
  | _ => none

section Moves

variable (et : EdgeTable) (props : List Value) (ts : Nat)

/-- The moves of a committer that adds an edge at timestamp `ts`. -/
inductive EdgeMove : IngestPc → EdgeTable → IngestProgress → Prop
  | fail (pc : IngestPc) (e : TxnError) : EdgeMove pc et (.failed e)
  | bundle {src dst : Nat} (hbundled : et.isBundled = true) :
      EdgeMove (.beginEdge src dst) et (.running (.putIn src dst none))
  | claimRow {src dst : Nat} (hbundled : et.isBundled = false) :
      EdgeMove (.beginEdge src dst) { et with tableIdx := et.tableIdx + 1 }
        (.running (.putIn src dst (some et.tableIdx)))
  | putIn {src dst : Nat} {row : Option Nat} {csr : Csr}
      (hput : et.inCsr.putEdge dst src (edgeData props row) ts = .ok csr) :
      EdgeMove (.putIn src dst row) { et with inCsr := csr } (.running (.putOut src dst row))
  | putOut {src dst : Nat} {csr : Csr}
      (hput : et.outCsr.putEdge src dst (edgeData props none) ts = .ok csr) :
      EdgeMove (.putOut src dst none) { et with outCsr := csr } .applied
  | putOutRow {src dst row : Nat} {csr : Csr}
      (hput : et.outCsr.putEdge src dst (edgeData props (some row)) ts = .ok csr) :
      EdgeMove (.putOut src dst (some row)) { et with outCsr := csr }
        (.running (.setEdgeProp row 0))
  | setProp {row col : Nat} {v : Value} {c c' : Column} (hv : props[col]? = some v)
      (hc : et.table[col]? = some c) (hset : c.setAny row v false = .ok c') :
      EdgeMove (.setEdgeProp row col) { et with table := et.table.set col c' }
        (.running (.setEdgeProp row (col + 1)))
  | done {row col : Nat} (hcol : props[col]? = none) :
      EdgeMove (.setEdgeProp row col) et .applied

end Moves

theorem edgeStep_move (et : EdgeTable) (props : List Value) (ts : Nat) (pc : IngestPc) :
    EdgeMove et props ts pc (edgeStep et props ts pc).1 (edgeStep et props ts pc).2 := by
  cases pc with
  | beginEdge src dst =>
    simp only [edgeStep]
    split
    next hbundled => exact .bundle hbundled
    next hbundled =>
      split
      · exact .fail _ _
      · exact .claimRow (Bool.eq_false_iff.mpr hbundled)
  | putIn src dst row =>
    simp only [edgeStep]
    split
    next => exact .fail _ _
    next csr hput => exact .putIn hput
  | putOut src dst row =>
    simp only [edgeStep]
    split
    next => exact .fail _ _
    next csr hput =>
      cases row with
      | none => exact .putOut hput
      | some row => exact .putOutRow hput
  | setEdgeProp row col =>
    simp only [edgeStep]
    split
    next hcol => exact .done hcol
    next => exact .fail _ _
    next v c hv hc =>
      split
      next => exact .fail _ _
      next c' hset => exact .setProp hv hc hset
  | _ => exact .fail _ _

namespace EdgeMove

variable {et et' : EdgeTable} {props : List Value} {ts : Nat} {pc : IngestPc}
  {progress : IngestProgress}

section

variable (hmove : EdgeMove et props ts pc et' progress)
include hmove

theorem properties : et'.properties = et.properties := by
  cases hmove <;> rfl

theorem isBundled : et'.isBundled = et.isBundled := by
  unfold EdgeTable.isBundled
  rw [hmove.properties]

theorem tableIdx : et.tableIdx ≤ et'.tableIdx := by
  cases hmove with
  | claimRow => exact Nat.le_succ _
  | _ => exact Nat.le_refl _

/-- A move adds entries with the timestamp and the data of its edge only. -/
theorem hasNbr {nbr : Nbr} (h : HasNbr et' nbr) :
    HasNbr et nbr ∨ nbr.timestamp = ts ∧ nbr.data = edgeData props pc.row := by
  obtain ⟨v, hv⟩ := h
  cases hmove with
  | putIn hput =>
    rcases hv with hout | hin
    · exact .inl ⟨v, .inl hout⟩
    · rcases (Csr.putEdge_put hput).mem v nbr hin with hold | ⟨-, rfl⟩
      · exact .inl ⟨v, .inr hold⟩
      · exact .inr ⟨rfl, rfl⟩
  | putOut hput | putOutRow hput =>
    rcases hv with hout | hin
    · rcases (Csr.putEdge_put hput).mem v nbr hout with hold | ⟨-, rfl⟩
      · exact .inl ⟨v, .inl hold⟩
      · exact .inr ⟨rfl, rfl⟩
    · exact .inl ⟨v, .inr hin⟩
  | _ => exact .inl ⟨v, hv⟩

end

/-- An entry is added by a put, which does not change the claimed row. -/
theorem row_cases {pc' : IngestPc} {row : Nat}
    (hmove : EdgeMove et props ts pc et' (.running pc')) (h : pc'.row = some row) :
    pc.row = some row ∨ et.isBundled = false ∧ row = et.tableIdx ∧
      et'.tableIdx = et.tableIdx + 1 ∧ ∀ nbr, HasNbr et' nbr → HasNbr et nbr := by
  cases hmove with
  | bundle => cases h
  | claimRow hbundled =>
    exact .inr ⟨hbundled, (Option.some.inj h).symm, rfl, fun _ hnbr => hnbr⟩
  | putIn | putOutRow | setProp => exact .inl h

end EdgeMove

section Links

variable (policy : HashPolicy) (g : Graph) (ts : Nat) (label : EdgeLabel) (src dst : Value)
  (props : List Value)

/-- The moves of a committer on the graph while it applies a record of an edge. -/
inductive LinkMove : IngestPc → Graph → IngestProgress → Prop
  | fail (pc : IngestPc) (e : TxnError) : LinkMove pc g (.failed e)
  | foundSrc {lid : Nat} (hlid : g.getLid policy label.src src ts = some lid) :
      LinkMove .findSrc g (.running (.findDst lid))
  | foundDst {srcLid lid : Nat} (hlid : g.getLid policy label.dst dst ts = some lid) :
      LinkMove (.findDst srcLid) g (.running (.beginEdge srcLid lid))
  | table {pc : IngestPc} {et et' : EdgeTable} {progress : IngestProgress}
      (het : g.edges label = some et) (hmove : EdgeMove et props ts pc et' progress) :
      LinkMove pc (g.setEdges label et') progress

end Links

theorem ingestStep_link (policy : HashPolicy) (g : Graph) (ts : Nat) (label : EdgeLabel)
    (src dst : Value) (props : List Value) (pc : IngestPc) (spurious : Bool) :
    LinkMove policy g ts label src dst props pc
      (ingestStep policy g ts (.insertEdge label src dst props) pc spurious).1
      (ingestStep policy g ts (.insertEdge label src dst props) pc spurious).2 := by
  simp only [ingestStep]
  split
  · split
    next => exact .fail _ _
    next lid hlid => exact .foundSrc hlid
  · split
    next => exact .fail _ _
    next lid hlid => exact .foundDst hlid
  · split
    next => exact .fail _ _
    next et het => exact .table het (edgeStep_move et props ts _)

/-! ### Ownership -/

def IngestPc.Placing : IngestPc → Prop
  | putIn _ _ _ | putOut _ _ _ | setEdgeProp _ _ => True
  | _ => False

/-- What a committer at timestamp `ts` knows of the row it claimed: no entry of
another transaction refers to it. -/
def RowOk (et : EdgeTable) (ts : Nat) : Option Nat → Prop
  | none => et.isBundled = true
  | some row => et.isBundled = false ∧ row < et.tableIdx ∧
      ∀ nbr, HasNbr et nbr → nbr.data = rowData row → nbr.timestamp = ts

/-- Entries of a table with a property table refer to claimed rows. -/
def EntriesClaimed (et : EdgeTable) : Prop :=
  et.isBundled = false → ∀ nbr, HasNbr et nbr → ∃ row < et.tableIdx, nbr.data = rowData row

theorem RowOk.exists_row {et : EdgeTable} {ts : Nat} {row : Option Nat} (h : RowOk et ts row)
    (hbundled : et.isBundled = false) : ∃ r < et.tableIdx, row = some r := by
  cases row with
  | none =>
    rw [show et.isBundled = true from h] at hbundled
    cases hbundled
  | some r => exact ⟨r, h.2.1, rfl⟩

namespace EdgeMove

variable {et et' : EdgeTable} {props : List Value} {ts : Nat} {pc : IngestPc}
  {progress : IngestProgress}

section

variable (hmove : EdgeMove et props ts pc et' progress)
include hmove

theorem placing_of_hasNbr {nbr : Nbr} (h : HasNbr et' nbr) :
    HasNbr et nbr ∨ pc.Placing ∧ nbr.timestamp = ts ∧ nbr.data = edgeData props pc.row := by
  rcases hmove.hasNbr h with hold | hnew
  · exact .inl hold
  · cases hmove with
    | putIn | putOut | putOutRow => exact .inr ⟨trivial, hnew⟩
    | _ => exact .inl h

theorem entriesClaimed
    (h : EntriesClaimed et) (hrow : pc.Placing → RowOk et ts pc.row) : EntriesClaimed et' := by
  intro hbundled nbr hnbr
  rw [hmove.isBundled] at hbundled
  rcases hmove.placing_of_hasNbr hnbr with hold | ⟨hplacing, -, hdata⟩
  · obtain ⟨row, hlt, hdata⟩ := h hbundled nbr hold
    exact ⟨row, Nat.lt_of_lt_of_le hlt hmove.tableIdx, hdata⟩
  · obtain ⟨row, hlt, hclaimed⟩ := (hrow hplacing).exists_row hbundled
    rw [hclaimed] at hdata
    exact ⟨row, Nat.lt_of_lt_of_le hlt hmove.tableIdx, hdata⟩

/-- The owner of a row keeps it when another committer with another row moves. -/
theorem rowOk_foreign {ts' : Nat}
    {row : Option Nat} (h : RowOk et ts' row) (hrow : pc.Placing → RowOk et ts pc.row)
    (hne : ∀ r, row = some r → pc.row ≠ some r) : RowOk et' ts' row := by
  cases row with
  | none => exact hmove.isBundled.trans h
  | some r =>
    obtain ⟨hbundled, hlt, howner⟩ := h
    refine ⟨hmove.isBundled.trans hbundled, Nat.lt_of_lt_of_le hlt hmove.tableIdx, ?_⟩
    intro nbr hnbr hdata
    rcases hmove.placing_of_hasNbr hnbr with hold | ⟨hplacing, -, hdata'⟩
    · exact howner nbr hold hdata
    · obtain ⟨r', -, hclaimed⟩ := (hrow hplacing).exists_row hbundled
      rw [hclaimed] at hdata'
      have heq : r' = r := rowData_inj (hdata'.symm.trans hdata)
      exact absurd (heq ▸ hclaimed) (hne r rfl)

end

/-- A committer owns at its next point the row it has claimed. -/
theorem rowOk {pc' : IngestPc} (hmove : EdgeMove et props ts pc et' (.running pc'))
    (hentries : EntriesClaimed et) (hrow : pc.Placing → RowOk et ts pc.row) :
    pc'.Placing ∧ RowOk et' ts pc'.row := by
  have hkeep : ∀ row, RowOk et ts (some row) → pc.row = some row → RowOk et' ts (some row) := by
    rintro row ⟨hbundled, hlt, howner⟩ hclaimed
    refine ⟨hmove.isBundled.trans hbundled, Nat.lt_of_lt_of_le hlt hmove.tableIdx, ?_⟩
    intro nbr hnbr hdata
    rcases hmove.hasNbr hnbr with hold | ⟨hts, -⟩
    · exact howner nbr hold hdata
    · exact hts
  cases hmove with
  | bundle hbundled => exact ⟨trivial, hbundled⟩
  | claimRow hbundled =>
    refine ⟨trivial, hbundled, Nat.lt_succ_self _, ?_⟩
    intro nbr hnbr hdata
    obtain ⟨row, hlt, hdata'⟩ := hentries hbundled nbr hnbr
    exact absurd (rowData_inj (hdata'.symm.trans hdata)) (Nat.ne_of_lt hlt)
  | @putIn src dst row =>
    refine ⟨trivial, ?_⟩
    have hrow : RowOk et ts row := hrow trivial
    cases row with
    | none => exact hrow
    | some row => exact hkeep row hrow rfl
  | putOutRow | setProp => exact ⟨trivial, hkeep _ (hrow trivial) rfl⟩

end EdgeMove

section System

variable {Tid : Type*} [DecidableEq Tid] {policy : HashPolicy}

/-- The transaction is adding an edge of the label, at the given point. -/
def TxnLocal.Linking (l : TxnLocal) (label : EdgeLabel) (pc : IngestPc) : Prop :=
  ∃ src dst props rest, l.pc = .ingesting (.insertEdge label src dst props) pc rest

/-- Timestamps in the graph and in the log were handed out, or were there before. -/
structure InsertState.Recorded (s : InsertState Tid) : Prop where
  entry : ∀ label lid e, (s.graph.vertices label).vts.entry lid = some e → e = 0 ∨ e ∈ s.used
  nbr : ∀ label et nbr, s.graph.edges label = some et → HasNbr et nbr →
    nbr.timestamp = 0 ∨ nbr.timestamp = kDeletedTimestamp ∨ nbr.timestamp ∈ s.used
  wal : ∀ e records, (e, records) ∈ s.wal → e ∈ s.used

/-- Every timestamp and every claimed row has one owner. -/
structure InsertState.Owned (s : InsertState Tid) : Prop where
  recorded : s.Recorded
  claimed : ∀ label et, s.graph.edges label = some et → EntriesClaimed et
  stamps : ∀ t t', t ≠ t' → (s.threads t).pc ≠ .closed → (s.threads t').pc ≠ .closed →
    (s.threads t).txn.timestamp ≠ (s.threads t').txn.timestamp
  row : ∀ t label pc, (s.threads t).Linking label pc → pc.Placing →
    ∃ et, s.graph.edges label = some et ∧ RowOk et (s.threads t).txn.timestamp pc.row
  row_sole : ∀ t t' label pc pc' row, (s.threads t).Linking label pc →
    (s.threads t').Linking label pc' → pc.row = some row → pc'.row = some row → t = t'

variable {pc : IngestPc}

theorem IngestPc.placing_of_row {row : Nat} (h : pc.row = some row) : pc.Placing := by
  cases pc with
  | putIn _ _ _ | putOut _ _ _ | setEdgeProp _ _ => trivial
  | _ => cases h

namespace InsertState.Owned

variable {s s' : InsertState Tid} {t : Tid} {l : TxnLocal}

/-- What a step of one transaction has to establish. -/
theorem preserve (h : s.Owned) (hrecorded : s'.Recorded)
    (hthreads : s'.threads = update s.threads t l)
    (hclaimed : ∀ label et, s'.graph.edges label = some et → EntriesClaimed et)
    (hstamp : ∀ t', t' ≠ t → (s.threads t').pc ≠ .closed →
      l.txn.timestamp ≠ (s.threads t').txn.timestamp)
    (hother : ∀ t' label pc, t' ≠ t → (s.threads t').Linking label pc → pc.Placing →
      ∃ et, s'.graph.edges label = some et ∧ RowOk et (s.threads t').txn.timestamp pc.row)
    (hself : ∀ label pc, l.Linking label pc → pc.Placing →
      (∃ et, s'.graph.edges label = some et ∧ RowOk et l.txn.timestamp pc.row) ∧
        ∀ t' pc' row, t' ≠ t → (s.threads t').Linking label pc' → pc.row = some row →
          pc'.row ≠ some row) : s'.Owned := by
  refine ⟨hrecorded, hclaimed, ?_, ?_, ?_⟩ <;> rw [hthreads]
  · intro t₁ t₂ hne hopen₁ hopen₂
    by_cases h₁ : t₁ = t
    · subst h₁
      rw [update_self, update_of_ne hne.symm] at *
      exact hstamp t₂ hne.symm hopen₂
    · rw [update_of_ne h₁] at hopen₁ ⊢
      by_cases h₂ : t₂ = t
      · rw [h₂, update_self]
        exact (hstamp t₁ h₁ hopen₁).symm
      · rw [update_of_ne h₂] at hopen₂ ⊢
        exact h.stamps t₁ t₂ hne hopen₁ hopen₂
  · intro t' label pc hlink hplacing
    by_cases heq : t' = t
    · rw [heq, update_self] at hlink ⊢
      exact (hself label pc hlink hplacing).1
    · rw [update_of_ne heq] at hlink ⊢
      exact hother t' label pc heq hlink hplacing
  · intro t₁ t₂ label pc₁ pc₂ row hlink₁ hlink₂ hrow₁ hrow₂
    by_cases h₁ : t₁ = t
    · by_cases h₂ : t₂ = t
      · exact h₁.trans h₂.symm
      · rw [h₁, update_self] at hlink₁
        rw [update_of_ne h₂] at hlink₂
        exact absurd hrow₂ ((hself label pc₁ hlink₁ (IngestPc.placing_of_row hrow₁)).2 t₂ pc₂ row h₂
          hlink₂ hrow₁)
    · rw [update_of_ne h₁] at hlink₁
      by_cases h₂ : t₂ = t
      · rw [h₂, update_self] at hlink₂
        exact absurd hrow₁ ((hself label pc₂ hlink₂ (IngestPc.placing_of_row hrow₂)).2 t₁ pc₁ row h₁
          hlink₁ hrow₂)
      · rw [update_of_ne h₂] at hlink₂
        exact h.row_sole t₁ t₂ label pc₁ pc₂ row hlink₁ hlink₂ hrow₁ hrow₂

/-- A step that leaves the edge tables alone and places no edge. -/
theorem quiet (h : s.Owned) (hrecorded : s'.Recorded) (hthreads : s'.threads = update s.threads t l)
    (hedges : s'.graph.edges = s.graph.edges) (hstamp : ∀ t', t' ≠ t → (s.threads t').pc ≠ .closed →
      l.txn.timestamp ≠ (s.threads t').txn.timestamp)
    (hlinking : ∀ label pc, l.Linking label pc → ¬pc.Placing) : s'.Owned := by
  refine h.preserve hrecorded hthreads (hedges ▸ h.claimed) hstamp ?_ fun label pc hlink hplacing =>
    absurd hplacing (hlinking label pc hlink)
  rw [hedges]
  exact fun t' label pc _ => h.row t' label pc

variable {progress : IngestProgress} {props : List Value} {rest : List Redo} {pc : IngestPc}

section

variable (h : s.Owned) (hinv : s.Inv)
include h

omit [DecidableEq Tid] in
theorem stamps_of_open (hopen : (s.threads t).pc ≠ .closed) (t' : Tid) (hne : t' ≠ t)
    (hopen' : (s.threads t').pc ≠ .closed) :
    (s.threads t).txn.timestamp ≠ (s.threads t').txn.timestamp :=
  h.stamps t t' hne.symm hopen hopen'

include hinv

/-- The step of a committer on its edge table. -/
theorem place {label : EdgeLabel} {src dst : Value}
    {et et' : EdgeTable}
    (hpc : (s.threads t).pc = .ingesting (.insertEdge label src dst props) pc rest)
    (het : s.graph.edges label = some et)
    (hmove : EdgeMove et props (s.threads t).txn.timestamp pc et' progress) :
    InsertState.Owned { s with
      graph := s.graph.setEdges label et'
      threads := update s.threads t
        ⟨(s.threads t).txn, .ofProgress (.insertEdge label src dst props) rest progress⟩ } := by
  have hlink : (s.threads t).Linking label pc := ⟨src, dst, props, rest, hpc⟩
  have hopen : (s.threads t).pc ≠ .closed := by rw [hpc]; nofun
  have hrow : pc.Placing → RowOk et (s.threads t).txn.timestamp pc.row := by
    intro hplacing
    obtain ⟨et₀, het₀, hrow⟩ := h.row t label pc hlink hplacing
    cases het.symm.trans het₀
    exact hrow
  -- an edge table of the new graph is the moved one or an old one
  have htable : ∀ label₁ et₁, (s.graph.setEdges label et').edges label₁ = some et₁ →
      label₁ = label ∧ et₁ = et' ∨ label₁ ≠ label ∧ s.graph.edges label₁ = some et₁ := by
    intro label₁ et₁ h₁
    by_cases heq : label₁ = label
    · subst heq
      rw [Graph.setEdges_self] at h₁
      exact .inl ⟨rfl, (Option.some.inj h₁).symm⟩
    · rw [Graph.setEdges_of_ne _ heq] at h₁
      exact .inr ⟨heq, h₁⟩
  refine h.preserve ⟨h.recorded.entry, ?_, h.recorded.wal⟩ rfl ?_ (h.stamps_of_open hopen) ?_ ?_
  · intro label₁ et₁ nbr h₁ hnbr
    rcases htable label₁ et₁ h₁ with ⟨rfl, rfl⟩ | ⟨-, hold⟩
    · rcases hmove.hasNbr hnbr with hold | ⟨hts, -⟩
      · exact h.recorded.nbr label₁ et nbr het hold
      · exact .inr (.inr (hts ▸ (hinv.stamp t hopen).1))
    · exact h.recorded.nbr label₁ et₁ nbr hold hnbr
  · intro label₁ et₁ h₁
    rcases htable label₁ et₁ h₁ with ⟨rfl, rfl⟩ | ⟨-, hold⟩
    · exact hmove.entriesClaimed (h.claimed label₁ et het) hrow
    · exact h.claimed label₁ et₁ hold
  · intro t' label₁ pc₁ hne hlink₁ hplacing
    obtain ⟨et₁, het₁, hrow₁⟩ := h.row t' label₁ pc₁ hlink₁ hplacing
    by_cases hlabel : label₁ = label
    · subst hlabel
      rw [het] at het₁
      cases het₁
      refine ⟨et', Graph.setEdges_self _ _ _, hmove.rowOk_foreign hrow₁ hrow ?_⟩
      intro r hr hr'
      exact hne (h.row_sole t' t label₁ pc₁ pc r hlink₁ hlink hr hr')
    · exact ⟨et₁, (Graph.setEdges_of_ne _ hlabel _).trans het₁, hrow₁⟩
  · rintro label₁ pc₁ ⟨_, _, _, _, hlink₁⟩ hplacing
    rcases TxnPc.ofProgress_cases hlink₁ with ⟨hr, rfl⟩ | rfl
    · cases hr
      refine ⟨⟨et', Graph.setEdges_self _ _ _, (hmove.rowOk (h.claimed label et het) hrow).2⟩, ?_⟩
      -- another transaction never has the row of the acting one
      intro t' pc' row hne hlink' hrow₁ hrow'
      rcases hmove.row_cases hrow₁ with hold | ⟨-, rfl, -, -⟩
      · exact hne (h.row_sole t' t label pc' pc row hlink' hlink hrow' hold)
      · obtain ⟨et₀, het₀, hrowOk⟩ := h.row t' label pc' hlink' (IngestPc.placing_of_row hrow')
        cases het.symm.trans het₀
        rw [hrow'] at hrowOk
        exact Nat.lt_irrefl _ hrowOk.2.1
    · exact absurd hplacing id

theorem ingestVertex {label : Nat} {oid : Value} {vt : VertexTable}
    (hpc : (s.threads t).pc = .ingesting (.insertVertex label oid props) pc rest)
    (hmove : VertexMove policy (s.graph.vertices label) oid props
      (s.threads t).txn.timestamp pc vt progress) :
    InsertState.Owned { s with
      graph := s.graph.setVertices label vt
      threads := update s.threads t
        ⟨(s.threads t).txn, .ofProgress (.insertVertex label oid props) rest progress⟩ } := by
  have hopen : (s.threads t).pc ≠ .closed := by rw [hpc]; nofun
  have hstamp := hinv.stamp t hopen
  refine h.quiet ⟨?_, h.recorded.nbr, h.recorded.wal⟩ rfl rfl (h.stamps_of_open hopen) ?_
  · intro label₁ lid e he
    by_cases heq : label₁ = label
    · subst heq
      simp only [Graph.setVertices_self] at he
      rcases hmove.entry_cases (hinv.table label₁) (hinv.pc t label₁ pc ⟨oid, props, rest, hpc⟩)
        (Nat.ne_of_lt hstamp.2.2) he with hold | ⟨-, rfl⟩
      · exact h.recorded.entry label₁ lid e hold
      · exact .inr hstamp.1
    · simp only [Graph.setVertices_of_ne _ heq] at he
      exact h.recorded.entry label₁ lid e he
  · rintro label₁ pc₁ ⟨_, _, _, _, hlink⟩ hplacing
    rcases TxnPc.ofProgress_cases hlink with ⟨hr, -⟩ | rfl
    · cases hr
    · exact hplacing

theorem ingestEdge {label : EdgeLabel} {src dst : Value} {g : Graph}
    (hpc : (s.threads t).pc = .ingesting (.insertEdge label src dst props) pc rest)
    (hmove : LinkMove policy s.graph (s.threads t).txn.timestamp label src dst props pc g
      progress) :
    InsertState.Owned { s with
      graph := g
      threads := update s.threads t
        ⟨(s.threads t).txn, .ofProgress (.insertEdge label src dst props) rest progress⟩ } := by
  have hopen : (s.threads t).pc ≠ .closed := by rw [hpc]; nofun
  have hlooking : ∀ {p : IngestProgress}, (∀ pc', p = .running pc' → ¬pc'.Placing) →
      ∀ label₁ pc₁, TxnLocal.Linking ⟨(s.threads t).txn,
        .ofProgress (.insertEdge label src dst props) rest p⟩ label₁ pc₁ → ¬pc₁.Placing := by
    rintro p hp label₁ pc₁ ⟨_, _, _, _, hlink⟩
    rcases TxnPc.ofProgress_cases hlink with ⟨-, hrunning⟩ | rfl
    · exact hp pc₁ hrunning
    · exact id
  have hstamps := h.stamps_of_open hopen
  have hrec := h.recorded
  cases hmove with
  | fail =>
    exact h.quiet ⟨hrec.entry, hrec.nbr, hrec.wal⟩ rfl rfl hstamps (hlooking nofun)
  | foundSrc | foundDst =>
    refine h.quiet ⟨hrec.entry, hrec.nbr, hrec.wal⟩ rfl rfl hstamps (hlooking ?_)
    intro pc' hpc'
    cases hpc'
    exact id
  | table het hmove => exact h.place hinv hpc het hmove

theorem step (hstep : s.Step policy s') : s'.Owned := by
  obtain ⟨t, action, hnext⟩ := hstep
  have hopened : ∀ (txn : InsertTxn) label pc,
      TxnLocal.Linking ⟨txn, .opened⟩ label pc → ¬pc.Placing := by
    rintro txn label pc ⟨_, _, _, _, hpc⟩
    cases hpc
  have hrec := h.recorded
  cases next_move hnext with
  | rejected => exact h
  | @begin ts hpc hfresh =>
    refine h.quiet ⟨?_, ?_, ?_⟩ rfl rfl ?_ (hopened _)
    · intro label lid e he
      exact (hrec.entry label lid e he).imp_right (List.mem_cons_of_mem _)
    · intro label et nbr het hnbr
      exact (hrec.nbr label et nbr het hnbr).imp_right
        fun hused => hused.imp_right (List.mem_cons_of_mem _)
    · intro e records hmem
      exact List.mem_cons_of_mem _ (hrec.wal e records hmem)
    · intro t' _ hopen' heq
      change ts = _ at heq
      exact hfresh (heq ▸ (hinv.stamp t' hopen').1)
  | buffer hpc hcont =>
    refine h.quiet ⟨hrec.entry, hrec.nbr, hrec.wal⟩ rfl rfl ?_ (hopened _)
    intro t' hne hopen'
    rw [hcont.timestamp]
    exact h.stamps_of_open (by rw [hpc]; nofun) t' hne hopen'
  | finish hpc =>
    refine h.quiet ⟨hrec.entry, hrec.nbr, hrec.wal⟩ rfl rfl
      (h.stamps_of_open (by rw [hpc]; nofun)) ?_
    rintro label pc ⟨_, _, _, _, hpc'⟩
    cases hpc'
  | append hpc =>
    have hopen : (s.threads t).pc ≠ .closed := by rw [hpc]; nofun
    refine h.quiet ⟨hrec.entry, hrec.nbr, ?_⟩ rfl rfl (h.stamps_of_open hopen) ?_
    · intro e records hmem
      rcases List.mem_append.mp hmem with hold | hnew
      · exact hrec.wal e records hold
      · cases List.mem_singleton.mp hnew
        exact (hinv.stamp t hopen).1
    · rintro label pc ⟨_, _, _, _, hlink⟩
      rw [TxnPc.ofRecords_start hlink]
      exact id
  | @ingest r pc rest spurious _ hpc =>
    cases r with
    | insertVertex label oid props =>
      exact h.ingestVertex hinv hpc (vertexStep_move policy _ oid props
        (hinv.stamp_ne (by rw [hpc]; nofun)).1 pc spurious)
    | insertEdge label src dst props =>
      exact h.ingestEdge hinv hpc (ingestStep_link policy _ _ label src dst props pc spurious)

end

end InsertState.Owned

/-- A graph and a log in which every timestamp and row is accounted for, and no
transaction open. -/
structure InsertState.Accounted (s : InsertState Tid) : Prop where
  initial : s.Initial
  recorded : s.Recorded
  claimed : ∀ label et, s.graph.edges label = some et → EntriesClaimed et

omit [DecidableEq Tid] in
theorem InsertState.Owned.of_accounted {s : InsertState Tid} (h : s.Accounted) : s.Owned := by
  have hnot : ∀ t label pc, ¬(s.threads t).Linking label pc := by
    rintro t label pc ⟨_, _, _, _, hpc⟩
    rw [h.initial.closed t] at hpc
    cases hpc
  exact ⟨h.recorded, h.claimed, fun t _ _ hopen => absurd (h.initial.closed t) hopen,
    fun t label pc hlink => absurd hlink (hnot t label pc),
    fun t _ label pc _ _ hlink => absurd hlink (hnot t label pc)⟩

end System

end Neug.Transaction
