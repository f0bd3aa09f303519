/-! Double-precision numbers as bit patterns, and the double nearest to a fraction. -/
namespace CarvFront

/-- A binary64 number, given by its bits: sign, eleven of exponent, fifty-two of fraction. -/
structure Double where
  bits : UInt64
deriving DecidableEq

namespace Double

/-- The number zero. -/
def zero : Double := ⟨0⟩

/-- Positive infinity. -/
def infinity : Double := ⟨0x7ff0000000000000⟩

/-- Whether the sign bit is set. -/
def negative (d : Double) : Bool :=
  d.bits.toNat / Nat.pow 2 63 = 1

/-- The exponent field. -/
def exponentField (d : Double) : Nat :=
  d.bits.toNat / Nat.pow 2 52 % Nat.pow 2 11

/-- The fraction field. -/
def fractionField (d : Double) : Nat :=
  d.bits.toNat % Nat.pow 2 52

/-- The exponent of two below which no double has digits, negated. -/
def minExponent : Nat := 1074

/-- The greatest `e` with `2 ^ e ≤ num / den`, for positive `num` and `den`. -/
def log2Ratio (num den : Nat) : Int :=
  let e : Int := (Nat.log2 num : Int) - Nat.log2 den
  if num * Nat.pow 2 (-e).toNat < den * Nat.pow 2 e.toNat then e - 1 else e

/-- A quotient rounded to the nearest whole number, a half to the even one. -/
def roundDiv (num den : Nat) : Nat :=
  let q := num / den
  let r := num % den
  if den < 2 * r ∨ (2 * r = den ∧ q % 2 = 1) then q + 1 else q

/-- The double nearest to `num / den`: the fraction is rounded once, a half to the even neighbour,
and what is too large becomes infinity. -/
def ofRatio (num den : Nat) : Double :=
  if num = 0 then zero
  else
    -- the unit in the last place is `2 ^ q`
    let q : Int := max (log2Ratio num den - 52) (-(minExponent : Int))
    let m := roundDiv (num * Nat.pow 2 (-q).toNat) (den * Nat.pow 2 q.toNat)
    let bits := (q + minExponent).toNat * Nat.pow 2 52 + m
    if bits < 0x7ff0000000000000 then ⟨bits.toUInt64⟩ else infinity

/-- The double nearest to `digits` with its point moved left by `places`. -/
def ofDecimal (digits places : Nat) : Double :=
  ofRatio digits (Nat.pow 10 places)

end Double
end CarvFront
