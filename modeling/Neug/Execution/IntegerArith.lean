import Mathlib.Algebra.Group.Int.Defs
import Mathlib.Tactic.Common

/-! # Integer arithmetic in expressions

The operators of `Value` are those of the C++ types.  What a signed operation gives when its
result does not fit, or when it divides by zero, the language leaves undefined; an unsigned
result that does not fit wraps around.
-/

namespace Neug.Execution

/-- The integer types of `NUMERIC_DATA_TYPES`. -/
inductive IntType where
  | kInt32
  | kInt64
  | kUInt32
  | kUInt64

namespace IntType

def Fits : IntType → Int → Prop
  | kInt32, n => -2 ^ 31 ≤ n ∧ n < 2 ^ 31
  | kInt64, n => -2 ^ 63 ≤ n ∧ n < 2 ^ 63
  | kUInt32, n => 0 ≤ n ∧ n < 2 ^ 32
  | kUInt64, n => 0 ≤ n ∧ n < 2 ^ 64

instance (t : IntType) (n : Int) : Decidable (t.Fits n) :=
  match t with
  | kInt32 | kInt64 | kUInt32 | kUInt64 => instDecidableAnd

/-- What the operations of an unsigned type wrap around at. -/
def modulus : IntType → Option Int
  | kInt32 | kInt64 => none
  | kUInt32 => some (2 ^ 32)
  | kUInt64 => some (2 ^ 64)

/-- The implicit casts of `castInt32` and `castUInt32`, to types that hold every value. -/
def castsTo : IntType → IntType → Bool
  | kInt32, kInt64 | kUInt32, kInt64 | kUInt32, kUInt64 => true
  | _, _ => false

end IntType

/-- How an evaluation ends: with a value, where `none` is null, with an exception, or after an
operation that is undefined. -/
inductive Outcome where
  | value (v : Option Int)
  | error
  | undefined

inductive Arithmetic where
  | add
  | sub
  | mul
  | div
  | mod
  deriving DecidableEq

namespace Arithmetic

/-- The mathematical result of an operator, for a divisor that is not zero. -/
def result : Arithmetic → Int → Int → Int
  | add, l, r => l + r
  | sub, l, r => l - r
  | mul, l, r => l * r
  | div, l, r => l.tdiv r
  | mod, l, r => l.tmod r

def Divides (op : Arithmetic) : Prop := op = div ∨ op = mod

instance (op : Arithmetic) : Decidable op.Divides := instDecidableOr

/-- Where the operator has a result in exact arithmetic that fits the type. -/
def Exact (op : Arithmetic) (t : IntType) (l r : Int) : Prop :=
  (op.Divides → r ≠ 0) ∧ t.Fits (op.result l r)

instance (op : Arithmetic) (t : IntType) (l r : Int) : Decidable (op.Exact t l r) :=
  instDecidableAnd

/-- Where the operator of the type gives that result; a signed remainder does where its quotient
fits. -/
def Defined (op : Arithmetic) (t : IntType) (l r : Int) : Prop :=
  op.Exact t l r ∧ (op = mod → t.modulus = none → t.Fits (l.tdiv r))

instance (op : Arithmetic) (t : IntType) (l r : Int) : Decidable (op.Defined t l r) :=
  instDecidableAnd

/-- `AddOp::operation` to `ModOp::operation` on non-null operands. -/
def operation (op : Arithmetic) (t : IntType) (l r : Int) : Outcome :=
  if op.Divides ∧ r = 0 then .undefined
  else
    match t.modulus with
    | some m => .value (some (op.result l r % m))
    | none => if op.Defined t l r then .value (some (op.result l r)) else .undefined

variable {op : Arithmetic} {t : IntType} {l r : Int}

end Arithmetic

/-- Expressions as they are bound: both operands have the type of the result, a cast widens. -/
inductive IntExpr : IntType → Type where
  | operand {t : IntType} (v : Option { n : Int // t.Fits n }) : IntExpr t
  | cast {s t : IntType} (h : s.castsTo t = true) (e : IntExpr s) : IntExpr t
  | arith {t : IntType} (op : Arithmetic) (lhs rhs : IntExpr t) : IntExpr t

namespace IntExpr

/-- Both operands are evaluated before one of them is found to be null. -/
def eval {t : IntType} : IntExpr t → Outcome
  | operand v => .value (v.map Subtype.val)
  | cast _ e => e.eval
  | arith op lhs rhs =>
    match lhs.eval, rhs.eval with
    | .value (some l), .value (some r) => op.operation t l r
    | .value _, .value _ => .value none
    | .value _, failed => failed
    | failed, _ => failed

/-- What an expression means in exact arithmetic; `none` where it should be refused. -/
def exact {t : IntType} : IntExpr t → Option (Option Int)
  | operand v => some (v.map Subtype.val)
  | cast _ e => e.exact
  | arith op lhs rhs =>
    match lhs.exact, rhs.exact with
    | some (some l), some (some r) =>
      if op.Exact t l r then some (some (op.result l r)) else none
    | some _, some _ => some none
    | _, _ => none

def Correct {t : IntType} (e : IntExpr t) : Prop :=
  e.eval = match e.exact with
    | some v => .value v
    | none => .error

/-- Every operator of the expression meets operands for which it is defined. -/
def Defined {t : IntType} : IntExpr t → Prop
  | operand _ => True
  | cast _ e => e.Defined
  | arith op lhs rhs => lhs.Defined ∧ rhs.Defined ∧
    ∀ l r, lhs.exact = some (some l) → rhs.exact = some (some r) → op.Defined t l r

variable {t : IntType} {e : IntExpr t}

example : (arith (t := .kUInt32) .add (operand (some ⟨4294967295, by decide⟩))
    (operand (some ⟨1, by decide⟩))).eval = .value (some 0) := rfl

end IntExpr

end Neug.Execution
