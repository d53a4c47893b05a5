import Neug.Execution.ReadGraph

/-! # Columns of vertices

A column of vertices has one label, segments with a label each, or a label in every row.
-/

namespace Neug.Execution

open List

inductive ExecError where
  /-- An access outside a vector; nothing is known of what follows it. -/
  | outOfBounds
  /-- The use of a null pointer; nothing is known of what follows it. -/
  | nullPointer
  /-- A failed `CHECK`; the process ends. -/
  | checkFailed
  | edgeTableNotFound
  /-- The use of an iterator into a vector that was cleared; nothing is known of what follows
  it. -/
  | invalidIterator
  /-- `RETURN_UNSUPPORTED_ERROR`. -/
  | unsupported (message : String)
  deriving DecidableEq, Repr

inductive VertexColumn (α : Type) where
  | single (label : Nat) (vertices : List α)
  | multiSegment (segments : List (Nat × List α))
  | multiple (labels : List Nat) (records : List (Nat × α))
  deriving DecidableEq, Repr

/-- `foreach_vertex`: the label and the id of each row. -/
def VertexColumn.foreachVertex {α : Type} : VertexColumn α → List (Nat × α)
  | single label vertices => vertices.map (Prod.mk label)
  | multiSegment segments => segments.flatMap fun seg => seg.2.map (Prod.mk seg.1)
  | multiple _ records => records

def VertexColumn.starts (col : VertexColumn Nat) : List VertexRecord :=
  col.foreachVertex.map fun row => ⟨row.1, row.2⟩

def VertexColumn.labelsSet {α : Type} : VertexColumn α → List Nat
  | single label _ => [label]
  | multiSegment segments => (segments.map (·.1)).dedup
  | multiple labels _ => labels.dedup

/-- A column without nulls whose label set holds the labels of its rows. -/
structure StartColumn where
  col : VertexColumn Nat
  label_mem : ∀ v ∈ col.starts, v.label ∈ col.labelsSet

/-- `MLVertexColumnBuilderOpt`: the labels seen are kept in a bitmap. -/
structure MLVertexColumnBuilderOpt where
  labelsBitmap : List Bool
  vertices : List VertexRecord
  deriving DecidableEq, Repr

namespace MLVertexColumnBuilderOpt

/-- The bitmap reaches the largest label that is expected. -/
def new (labels : List Nat) : MLVertexColumnBuilderOpt :=
  ⟨replicate (labels.foldr max 0 + 1) false, []⟩

/-- `push_back_opt`: the label is used as an index without a check. -/
def pushBackOpt (b : MLVertexColumnBuilderOpt) (v : VertexRecord) :
    Except ExecError MLVertexColumnBuilderOpt :=
  if v.label < b.labelsBitmap.length then
    .ok ⟨b.labelsBitmap.set v.label true, b.vertices ++ [v]⟩
  else .error .outOfBounds

@[simp] theorem vertices_new (labels : List Nat) : (new labels).vertices = [] := rfl

@[simp] theorem length_labelsBitmap_new (labels : List Nat) :
    (new labels).labelsBitmap.length = labels.foldr max 0 + 1 :=
  length_replicate

/-- The vertices are kept in their order, if all their labels are in the bitmap. -/
theorem vertices_foldlM_pushBackOpt (vs : List VertexRecord) (b : MLVertexColumnBuilderOpt) :
    (vs.foldlM pushBackOpt b).map vertices =
      if ∀ v ∈ vs, v.label < b.labelsBitmap.length then .ok (b.vertices ++ vs)
      else .error .outOfBounds := by
  induction vs generalizing b with
  | nil => simp [pure, Except.pure, Except.map]
  | cons v vs ih =>
    rw [foldlM_cons, pushBackOpt]
    by_cases hv : v.label < b.labelsBitmap.length
    · have hrest := ih ⟨b.labelsBitmap.set v.label true, b.vertices ++ [v]⟩
      simpa [hv, bind, Except.bind] using hrest
    · simp [hv, bind, Except.bind, Except.map]

end MLVertexColumnBuilderOpt

end Neug.Execution
