import Neug.Storage.VertexTable

/-! # Edge tables and the graph

An edge table keeps every edge in an outgoing and an incoming adjacency
structure.  Edges with at most one fixed-width property carry it inline;
otherwise the structures carry a row number and the properties are in a table.
The operations here are those of the writable view: they never grow anything and
fail when there is no room.
-/

namespace Neug.Storage

open Function List

/-- An edge table is named by the labels of its sources, destinations and edges. -/
structure EdgeLabel where
  src : Nat
  dst : Nat
  edge : Nat
  deriving DecidableEq, Repr

structure Nbr where
  neighbor : Nat
  timestamp : Nat
  data : Value
  deriving DecidableEq, Repr

/-- Adjacency layouts: lists, at most one entry per vertex, or nothing. -/
inductive CsrType where
  | mutable
  | singleMutable
  | empty
  deriving DecidableEq, Repr

/-- An adjacency structure.  With the single-entry layout a list has at most one
entry, and an entry marked deleted is a free place. -/
structure Csr where
  type : CsrType
  vertexCapacity : Nat
  lists : Nat → List Nbr

inductive EdgeError where
  | sourceOutOfRange (src capacity : Nat)
  | dataSizeMismatch
  | noSuchTable (label : EdgeLabel)
  | column (error : ColumnError)
  /-- `CHECK_EQ` of the single-entry layout; the process ends. -/
  | occupied
  | offsetOutOfBound
  | srcOutOfBound (src capacity : Nat)
  | columnOutOfRange (col : Int) (count : Nat)
  | bundledColumn (col : Nat)
  | invalidOeOffset
  | invalidIeOffset
  | unsupportedSearchType
  /-- `LOG(FATAL)` of the layout that keeps nothing; the process ends. -/
  | noView
  | defaultCount (expected got : Nat)
  /-- `CHECK_LT` of a row number; the process ends. -/
  | rowOutOfRange
  | sortKeyUnsupported
  deriving DecidableEq, Repr

def Csr.putEdge (csr : Csr) (src dst : Nat) (data : Value) (ts : Nat) : Except EdgeError Csr :=
  match csr.type with
  | .mutable =>
    if csr.vertexCapacity ≤ src then .error (.sourceOutOfRange src csr.vertexCapacity)
    else .ok { csr with
      lists := update csr.lists src (csr.lists src ++ [⟨dst, ts, data⟩]) }
  | .singleMutable =>
    if csr.vertexCapacity ≤ src then .error (.sourceOutOfRange src csr.vertexCapacity)
    else if ∀ nbr ∈ csr.lists src, nbr.timestamp = kDeletedTimestamp then
      .ok { csr with lists := update csr.lists src [⟨dst, ts, data⟩] }
    else .error .occupied
  | .empty => .ok csr

namespace Csr

def CanPut (csr : Csr) (src : Nat) : Prop :=
  match csr.type with
  | .mutable => src < csr.vertexCapacity
  | .singleMutable => src < csr.vertexCapacity ∧
      ∀ nbr ∈ csr.lists src, nbr.timestamp = kDeletedTimestamp
  | .empty => True

instance (csr : Csr) (src : Nat) : Decidable (csr.CanPut src) := by
  unfold CanPut
  cases csr.type <;> infer_instance

theorem putEdge_of_canPut {csr : Csr} {src : Nat} (h : csr.CanPut src) (dst : Nat)
    (data : Value) (ts : Nat) : ∃ csr', csr.putEdge src dst data ts = .ok csr' := by
  unfold CanPut at h
  unfold putEdge
  split at h
  next => exact ⟨_, if_neg (Nat.not_le.mpr h)⟩
  next => exact ⟨_, (if_neg (Nat.not_le.mpr h.1)).trans (if_pos h.2)⟩
  next => exact ⟨_, rfl⟩

/-- What an insertion does: entries that are not deleted stay at their places, and
unless the layout keeps nothing the new entry is at a place that was free. -/
structure Put (csr csr' : Csr) (src : Nat) (nbr : Nbr) : Prop where
  type_eq : csr'.type = csr.type
  kept : ∀ (v i : Nat) (old : Nbr), (csr.lists v)[i]? = some old →
    old.timestamp ≠ kDeletedTimestamp → (csr'.lists v)[i]? = some old
  added : csr.type ≠ .empty → ∃ slot : Nat, (csr'.lists src)[slot]? = some nbr ∧
    ∀ old : Nbr, (csr.lists src)[slot]? = some old → old.timestamp = kDeletedTimestamp
  mem : ∀ (v : Nat) (new : Nbr), new ∈ csr'.lists v → new ∈ csr.lists v ∨ v = src ∧ new = nbr

theorem putEdge_put {csr csr' : Csr} {src dst ts : Nat} {data : Value}
    (h : csr.putEdge src dst data ts = .ok csr') : Put csr csr' src ⟨dst, ts, data⟩ := by
  unfold putEdge at h
  split at h
  next htype =>
    split at h
    · cases h
    cases h
    refine ⟨rfl, ?_, ?_, ?_⟩
    · intro v i old hold _
      by_cases heq : v = src
      · subst heq
        obtain ⟨hlt, -⟩ := List.getElem?_eq_some_iff.mp hold
        simp only [update_self]
        rw [getElem?_append_left hlt, hold]
      · simpa only [update_of_ne heq] using hold
    · intro _
      refine ⟨(csr.lists src).length, by simp, ?_⟩
      intro old hold
      simp at hold
    · intro v new hnew
      by_cases heq : v = src
      · subst heq
        simp only [update_self, mem_append, mem_singleton] at hnew
        exact hnew.imp_right fun hnew => ⟨rfl, hnew⟩
      · simp only [update_of_ne heq] at hnew
        exact .inl hnew
  next htype =>
    split at h
    · cases h
    split at h
    next hfree =>
      cases h
      refine ⟨rfl, ?_, ?_, ?_⟩
      · intro v i old hold halive
        have hne : v ≠ src := by
          rintro rfl
          exact halive (hfree old (mem_of_getElem? hold))
        simpa only [update_of_ne hne] using hold
      · intro _
        refine ⟨0, by simp, ?_⟩
        intro old hold
        exact hfree old (mem_of_getElem? hold)
      · intro v new hnew
        by_cases heq : v = src
        · subst heq
          simp only [update_self, mem_singleton] at hnew
          exact .inr ⟨rfl, hnew⟩
        · simp only [update_of_ne heq] at hnew
          exact .inl hnew
    next => cases h
  next htype =>
    cases h
    exact ⟨rfl, fun _ _ _ h _ => h, fun hne => absurd htype hne, fun _ _ h => .inl h⟩

end Csr

structure EdgeTable where
  properties : List DataType
  outCsr : Csr
  inCsr : Csr
  table : List Column
  tableIdx : Nat
  capacity : Nat

/-- `is_bundled`: the properties are carried inline. -/
def EdgeTable.isBundled (et : EdgeTable) : Bool :=
  match et.properties with
  | [] => true
  | [.varchar _] => false
  | [_] => true
  | _ => false

def bundledData : List Value → Value
  | [] => .empty
  | v :: _ => v

/-- The inline data of an edge whose properties are in row `row`. -/
def rowData (row : Nat) : Value := .fixed .uint64 row

structure Graph where
  vertices : Nat → VertexTable
  edges : EdgeLabel → Option EdgeTable

namespace Graph

variable (g : Graph)

def setVertices (label : Nat) (vt : VertexTable) : Graph :=
  { g with vertices := update g.vertices label vt }

def setEdges (label : EdgeLabel) (et : EdgeTable) : Graph :=
  { g with edges := update g.edges label (some et) }

def getLid (policy : HashPolicy) (g : Graph) (label : Nat) (oid : Value) (ts : Nat) :
    Option Nat :=
  (g.vertices label).getLid policy oid ts

def getOid (label lid ts : Nat) : Except VertexError Value :=
  (g.vertices label).getOid lid ts

@[simp] theorem setVertices_self (label : Nat) (vt : VertexTable) :
    (g.setVertices label vt).vertices label = vt :=
  update_self _ _ _

@[simp] theorem setEdges_self (label : EdgeLabel) (et : EdgeTable) :
    (g.setEdges label et).edges label = some et :=
  update_self _ _ _

theorem setVertices_of_ne {label l : Nat} (h : l ≠ label) (vt : VertexTable) :
    (g.setVertices label vt).vertices l = g.vertices l :=
  update_of_ne h _ _

theorem setEdges_of_ne {label l : EdgeLabel} (h : l ≠ label) (et : EdgeTable) :
    (g.setEdges label et).edges l = g.edges l :=
  update_of_ne h _ _

end Graph

end Neug.Storage
