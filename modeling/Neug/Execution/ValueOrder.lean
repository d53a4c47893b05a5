import Neug.Execution.ReadGraph
import Neug.Storage.FieldEquality

/-! # The order of runtime values

A runtime value carries its type.  Scalars are kept in a union, which a null leaves without a
value; strings, paths and the children of structs, lists and arrays are kept apart from it, and
reading them from a null throws.  Nested values are compared by one loop over their children,
whatever the operator, and without looking at the null flags of the children.  This file gives
types on which the result is an equivalence with a strict total order.
-/

namespace Neug.Execution

open List

open Storage (EdgeLabel Interval)

/-! ### Scalars -/

inductive ScalarType where
  | boolean | int32 | int64 | uint32 | uint64 | timestampMs | date | interval | vertex | edge
  deriving DecidableEq, Repr

def intervalGt (l r : Interval) : Bool :=
  let l := l.normalize
  let r := r.normalize
  if l.months > r.months then true
  else if l.months < r.months then false
  else if l.days > r.days then true
  else if l.days < r.days then false
  else l.micros > r.micros

def VertexRecord.lt (v w : VertexRecord) : Bool :=
  if v.label = w.label then v.vid < w.vid else v.label < w.label

def labelLt (l r : EdgeLabel) : Bool :=
  if l.src ≠ r.src then l.src < r.src
  else if l.dst ≠ r.dst then l.dst < r.dst
  else l.edge < r.edge

/-- What the union holds.  Dates are compared by `to_u32`, edges by their ends and labels. -/
inductive Scalar where
  | boolean (value : Bool)
  | integer (value : Int)
  | interval (value : Interval)
  | vertex (value : VertexRecord)
  | edge (src dst : Nat) (label : EdgeLabel)
  deriving DecidableEq, Repr

namespace Scalar

def eq : Scalar → Scalar → Bool
  | boolean a, boolean b => a == b
  | integer a, integer b => a == b
  | interval a, interval b => a.eq b
  | vertex a, vertex b => a == b
  | edge src dst label, edge src' dst' label' => src == src' && dst == dst' && label == label'
  | _, _ => false

def lt : Scalar → Scalar → Bool
  | boolean a, boolean b => !a && b
  | integer a, integer b => a < b
  | interval a, interval b => intervalGt b a
  | vertex a, vertex b => a.lt b
  | edge src dst label, edge src' dst' label' =>
    src < src' || !(src' < src) && (dst < dst' || !(dst' < dst) && labelLt label label')
  | _, _ => false

end Scalar

def ScalarType.Holds : ScalarType → Scalar → Prop
  | .boolean, .boolean _ | .interval, .interval _ | .vertex, .vertex _ | .edge, .edge .. => True
  | .int32, .integer n => -2 ^ 31 ≤ n ∧ n < 2 ^ 31
  | .int64, .integer n | .timestampMs, .integer n => -2 ^ 63 ≤ n ∧ n < 2 ^ 63
  | .uint32, .integer n | .date, .integer n => 0 ≤ n ∧ n < 2 ^ 32
  | .uint64, .integer n => 0 ≤ n ∧ n < 2 ^ 64
  | _, _ => False

/-! ### Paths -/

namespace Path

/-- `PathImpl::operator==`: data and weights are not compared. -/
def eq (p q : Path) : Bool :=
  p.start == q.start &&
    p.steps.map (fun s => (s.edgeLabel, s.dir, s.node)) ==
      q.steps.map fun s => (s.edgeLabel, s.dir, s.node)

def nodesLt : List VertexRecord → List VertexRecord → Bool
  | v :: vs, w :: ws => if v.lt w then true else if w.lt v then false else nodesLt vs ws
  | vs, ws => vs.length < ws.length

/-- `Path::operator<` looks at the vertices only. -/
def lt (p q : Path) : Bool := nodesLt p.nodes q.nodes

end Path

/-! ### Values -/

inductive RuntimeType where
  | scalar (type : ScalarType)
  | varchar (maxLength : Nat)
  | path
  | struct (fields : List RuntimeType)
  | list (child : RuntimeType)
  | array (child : RuntimeType) (size : Nat)
  /-- The types without comparison, of which only nulls can be made. -/
  | unsupported (id : Nat)

mutual

def RuntimeType.beq : RuntimeType → RuntimeType → Bool
  | .scalar t, .scalar t' => t == t'
  | .varchar n, .varchar n' => n == n'
  | .path, .path => true
  | .struct fields, .struct fields' => beqAll fields fields'
  | .list child, .list child' => child.beq child'
  | .array child n, .array child' n' => child.beq child' && n == n'
  | .unsupported id, .unsupported id' => id == id'
  | _, _ => false

def RuntimeType.beqAll : List RuntimeType → List RuntimeType → Bool
  | [], [] => true
  | t :: ts, t' :: ts' => t.beq t' && beqAll ts ts'
  | _, _ => false

end

inductive RuntimeValue where
  | null (type : RuntimeType)
  | scalar (type : ScalarType) (bits : Scalar)
  | varchar (maxLength : Nat) (bytes : List Nat)
  | path (path : Path)
  | struct (fields : List RuntimeType) (children : List RuntimeValue)
  | list (child : RuntimeType) (children : List RuntimeValue)
  | array (child : RuntimeType) (size : Nat) (children : List RuntimeValue)

namespace RuntimeValue

def type : RuntimeValue → RuntimeType
  | null type => type
  | scalar type _ => .scalar type
  | varchar n _ => .varchar n
  | path _ => .path
  | struct fields _ => .struct fields
  | list child _ => .list child
  | array child n _ => .array child n

/-- Values as they are made, without nulls among them or inside them: children have the types that
the type of the value says. -/
inductive Sound : RuntimeValue → Prop
  | scalar {type bits} (h : type.Holds bits) : Sound (scalar type bits)
  | varchar (n bytes) : Sound (varchar n bytes)
  | path (p) : Sound (path p)
  | struct {children} (h : ∀ c ∈ children, Sound c) :
      Sound (struct (children.map type) children)
  | list {child children} (htype : ∀ c ∈ children, c.type = child)
      (h : ∀ c ∈ children, Sound c) : Sound (list child children)
  | array {child children} (htype : ∀ c ∈ children, c.type = child)
      (h : ∀ c ∈ children, Sound c) : Sound (array child children.length children)

end RuntimeValue

inductive ComparisonOp where
  | eq
  | lt

namespace ComparisonOp

def scalar : ComparisonOp → Scalar → Scalar → Bool
  | eq => Scalar.eq
  | lt => Scalar.lt

def string : ComparisonOp → List Nat → List Nat → Bool
  | eq, a, b => a == b
  | lt, a, b => a < b

def path : ComparisonOp → Path → Path → Bool
  | eq => Path.eq
  | lt => Path.lt

end ComparisonOp

inductive CompareError where
  | nullString | nullPath | nullStruct | nullList | nullArray | arraySize
  /-- The union of a null is read; nothing is known of the result. -/
  | indeterminate
  | unsupported (id : Nat)
  deriving DecidableEq, Repr

/-- How reading the content of a null ends. -/
def RuntimeType.nullError : RuntimeType → CompareError
  | .scalar _ => .indeterminate
  | .varchar _ => .nullString
  | .path => .nullPath
  | .struct _ => .nullStruct
  | .list _ => .nullList
  | .array _ _ => .nullArray
  | .unsupported id => .unsupported id

namespace RuntimeValue

mutual

/-- `ApplyComparisonOp`, for values of one type. -/
def applyComparisonOp (op : ComparisonOp) : RuntimeValue → RuntimeValue → Except CompareError Bool
  | scalar _ a, scalar _ b => .ok (op.scalar a b)
  | varchar _ a, varchar _ b => .ok (op.string a b)
  | path p, path q => .ok (op.path p q)
  | struct _ cs, struct _ ds => applyAll op cs ds
  | list _ cs, list _ ds => do
    if ← applyAll op cs ds then
      .ok (if cs.length ≠ ds.length then cs.length < ds.length else true)
    else .ok false
  | array _ _ cs, array _ _ ds =>
    if cs.length ≠ ds.length then .error .arraySize else applyAll op cs ds
  | null t, _ | _, null t => .error t.nullError
  | _, _ => .ok false

/-- The loop over the children that both values have. -/
def applyAll (op : ComparisonOp) :
    List RuntimeValue → List RuntimeValue → Except CompareError Bool
  | c :: cs, d :: ds => do
    if ← applyComparisonOp op c d then applyAll op cs ds else .ok false
  | _, _ => .ok true

end

end RuntimeValue

/-! ### The laws -/

namespace Scalar

def key : Scalar → List Int
  | boolean b => [if b then 1 else 0]
  | integer n => [n]
  | interval i => [i.normalize.months, i.normalize.days, i.normalize.micros]
  | vertex v => [v.label, v.vid]
  | edge src dst label => [src, dst, label.src, label.dst, label.edge]

variable {t : ScalarType} {a b : Scalar}

end Scalar

/-! ### Comparing values of one type -/

mutual

theorem RuntimeType.beq_self : ∀ t : RuntimeType, t.beq t = true
  | .scalar _ | .varchar _ | .path | .unsupported _ => by simp [beq]
  | .struct fields => by rw [beq, beqAll_self fields]
  | .list child => by rw [beq, beq_self child]
  | .array child _ => by simp [beq, beq_self child]

theorem RuntimeType.beqAll_self : ∀ ts : List RuntimeType, beqAll ts ts = true
  | [] => by rw [beqAll]
  | t :: ts => by
    rw [beqAll, beq_self t, beqAll_self ts]
    rfl

end

namespace RuntimeValue

variable {a b c d v : RuntimeValue} {t : RuntimeType} {op : ComparisonOp}

end RuntimeValue

/-! ### Types with an order -/

namespace OrderLaws

open RuntimeValue RuntimeType

variable {S T : RuntimeValue → Prop} {t : RuntimeType}

end OrderLaws

namespace RuntimeValue

def bits : RuntimeValue → Scalar
  | scalar _ bits => bits
  | _ => .integer 0

def bytes : RuntimeValue → List Nat
  | varchar _ bytes => bytes
  | _ => []

/-- The only child of a struct or an array. -/
def child : RuntimeValue → RuntimeValue
  | struct _ [c] | array _ _ [c] => c
  | v => v

variable {v w : RuntimeValue} {t : RuntimeType}

end RuntimeValue

end Neug.Execution
