import CarvFront.Double.Basic

/-! The text of a double: the fewest digits that read back as the same number, in positional
notation. -/
namespace CarvFront.Double

/-- A positive finite double as a point between the ends of the interval of reals that round to
it. All three are multiples of `unit / scale`, where one of the two is 1. -/
structure Interval where
  low : Nat
  value : Nat
  high : Nat
  scale : Nat
  /-- Whether the ends round to the number too. -/
  closed : Bool

/-- The interval of a positive finite double. The gap below a power of two is half as wide. -/
def interval (d : Double) : Interval :=
  let field := d.exponentField
  let m := if field = 0 then d.fractionField else d.fractionField + Nat.pow 2 52
  -- one step of `m` is `2 ^ q`; quarters of it are the unit here
  let q : Int := (if field = 0 then 1 else (field : Int)) - 1075 - 2
  let below := if d.fractionField = 0 ∧ 1 < field then 1 else 2
  let unit := Nat.pow 2 q.toNat
  { low := (4 * m - below) * unit
    value := 4 * m * unit
    high := (4 * m + 2) * unit
    scale := Nat.pow 2 (-q).toNat
    closed := m % 2 = 0 }

/-- Whether `num / den` rounds to the number. -/
def Interval.holds (i : Interval) (num den : Nat) : Bool :=
  if i.closed then i.low * den ≤ num * i.scale && num * i.scale ≤ i.high * den
  else i.low * den < num * i.scale && num * i.scale < i.high * den

/-- How many zeros follow the point of `num / den` before its first other digit, if fewer
than `n`. -/
def leadingZeros (den : Nat) : Nat → Nat → Nat
  | 0, _ => 0
  | n + 1, num => if den ≤ num * 10 then 0 else 1 + leadingZeros den n (num * 10)

/-- The number of digits before the point of `num / den`; for a fraction below one tenth, minus
the number of zeros after it. -/
def magnitude (num den : Nat) : Int :=
  if den ≤ num then (Nat.toDigits 10 (num / den)).length
  else -(leadingZeros den 400 num : Int)

/-- A decimal number: `digits * 10 ^ exponent`. -/
structure Decimal where
  digits : Nat
  exponent : Int

/-- The neighbour of the number on the grid of `10 ^ exponent` that rounds to it, if one does. Of
two the nearer is taken, and at equal distance the greater. -/
def Interval.onGrid? (i : Interval) (exponent : Int) : Option Decimal :=
  let up := Nat.pow 10 exponent.toNat
  let down := Nat.pow 10 (-exponent).toNat
  -- the number in units of the grid is `num / den`
  let num := i.value * down
  let den := i.scale * up
  let floor := num / den
  let holds (n : Nat) := i.holds (n * up) down
  match holds floor, holds (floor + 1) with
  | true, true => some ⟨if den ≤ 2 * (num % den) then floor + 1 else floor, exponent⟩
  | true, false => some ⟨floor, exponent⟩
  | false, true => some ⟨floor + 1, exponent⟩
  | false, false => none

/-- The decimal with the fewest digits that rounds to the number: grids are tried from the
coarsest on, and seventeen digits always suffice. -/
def Interval.shortest (i : Interval) : Decimal :=
  let top := magnitude i.value i.scale
  let grids := (List.range 17).map fun (n : Nat) => top - (n + 1)
  (grids.findSome? i.onGrid?).getD ⟨0, 0⟩

/-- Drop the zeros at the end of the digits, at most `n` of them. -/
def Decimal.trim : Nat → Decimal → Decimal
  | 0, d => d
  | n + 1, d =>
    if d.digits % 10 = 0 ∧ d.digits ≠ 0 then Decimal.trim n ⟨d.digits / 10, d.exponent + 1⟩ else d

/-- Positional notation, with zeros where the digits do not reach and no point without need. -/
def Decimal.positional (d : Decimal) : String :=
  let digits := Nat.toDigits 10 d.digits
  let places := (-d.exponent).toNat
  if places = 0 then String.ofList (digits ++ List.replicate d.exponent.toNat '0')
  else
    let digits := List.replicate (places + 1 - digits.length) '0' ++ digits
    let whole := digits.length - places
    String.ofList (digits.take whole ++ '.' :: digits.drop whole)

/-- The text of a double. -/
def text (d : Double) : String :=
  let sign := if d.negative then "-" else ""
  if d.exponentField = 2047 then
    if d.fractionField = 0 then sign ++ "inf" else "NaN"
  else if d.exponentField = 0 ∧ d.fractionField = 0 then sign ++ "0"
  else sign ++ (d.interval.shortest.trim 20).positional

end CarvFront.Double
