import Neug.Storage.Column

/-! # Equality of stored fields

Stored values are compared with the equality of their C++ type, which is not equality of
bits for all of them.  A floating-point number that is not a number differs from itself,
and the two zeros are equal.  Intervals are equal when they agree after whole days are
carried from the microseconds to the days and whole months from the days to the months.
-/

namespace Neug.Storage

/-- Equality of floating-point numbers with fields of the given widths. -/
def floatEq (exponent mantissa : Nat) (a b : Int) : Bool :=
  let infinity : Int := (2 ^ exponent - 1) * 2 ^ mantissa
  let magnitude (x : Int) : Int := x % 2 ^ (exponent + mantissa)
  let bits (x : Int) : Int := x % 2 ^ (exponent + mantissa + 1)
  magnitude a ≤ infinity && magnitude b ≤ infinity &&
    (bits a = bits b || magnitude a = 0 && magnitude b = 0)

structure Interval where
  months : Int
  days : Int
  micros : Int
  deriving DecidableEq, Repr

namespace Interval

/-- The fields of a stored interval: two 32-bit numbers and a 64-bit number. -/
def ofPayload (payload : Int) : Interval :=
  ⟨payload.bmod (2 ^ 32), (payload / 2 ^ 32).bmod (2 ^ 32), (payload / 2 ^ 64).bmod (2 ^ 64)⟩

def normalize (i : Interval) : Interval :=
  let carryDays := i.micros.tdiv 86400000000
  let days := i.days + carryDays
  let carryMonths := days.tdiv 30
  ⟨i.months + carryMonths, days - carryMonths * 30, i.micros - carryDays * 86400000000⟩

def eq (a b : Interval) : Bool := a = b || a.normalize = b.normalize

end Interval

def FixedType.dataEq : FixedType → Int → Int → Bool
  | float, a, b => floatEq 8 23 a b
  | double, a, b => floatEq 11 52 a b
  | interval, a, b => (Interval.ofPayload a).eq (.ofPayload b)
  | _, a, b => a = b

/-- `nbr_data_eq`. -/
def Value.dataEq : Value → Value → Bool
  | fixed type a, fixed type' b => type = type' && type.dataEq a b
  | a, b => a = b

end Neug.Storage
