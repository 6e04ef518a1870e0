import SchemaTidy.Decimal.Binary

/-! The fewest digits that read back. A finite number stands for all reals that round to it. On
the grid of one digit, then of two, up to seventeen, the number's two neighbours are tried; the
first grid with a neighbour among those reals decides how many digits are written, and of two
such neighbours the nearer is taken. -/

namespace SchemaTidy.Decimal

/-- Reals that round to a number, in quarters of its last place over a common denominator. -/
structure Interval where
  low : Nat
  value : Nat
  high : Nat
  closed : Bool
  unit : Nat

/-- The neighbour below a power of two is only half as far away as the one above. -/
def interval (significand : Nat) (exponent : Int) : Interval :=
  let below :=
    if significand = Nat.pow 2 (Binary.precision - 1) ∧ Binary.leastExponent < exponent then 1 else 2
  let (factor, unit) := scale 2 1 1 (exponent - 2)
  ⟨(4 * significand - below) * factor, 4 * significand * factor, (4 * significand + 2) * factor,
    significand % 2 == 0, unit⟩

/-- Whether the fraction `num / den` rounds to the number. -/
def Interval.holds (i : Interval) (num den : Nat) : Bool :=
  let x := num * i.unit
  if i.closed then i.low * den ≤ x && x ≤ i.high * den else i.low * den < x && x < i.high * den

/-- The neighbour of a number on the grid of multiples of `10 ^ exponent` that rounds to it. -/
def Interval.onGrid (i : Interval) (exponent : Int) : Option Nat :=
  let (n, d) := scale 10 i.value i.unit (-exponent)
  let down := n / d
  let fits (digits : Nat) : Bool :=
    let (num, den) := scale 10 digits 1 exponent
    i.holds num den
  match fits down, fits (down + 1) with
  | true, true =>
    let twice := 2 * (n % d)
    some (if twice < d || (twice == d && down % 2 == 0) then down else down + 1)
  | true, false => some down
  | false, true => some (down + 1)
  | false, false => none

/-- The whole part of the decimal logarithm of a positive number. -/
def Interval.log10 (i : Interval) : Int :=
  (digitCount (i.value * Nat.pow 10 400 / i.unit) : Int) - 401

/-- Remove the zeros that end a numeral. -/
def dropZeros : Nat → Nat → Int → Nat × Int
  | 0, digits, exponent => (digits, exponent)
  | fuel + 1, digits, exponent =>
    if digits % 10 = 0 ∧ digits ≠ 0 then dropZeros fuel (digits / 10) (exponent + 1)
    else (digits, exponent)

/-- Digits and decimal exponent of the shortest numeral for a positive number. -/
def shortest (significand : Nat) (exponent : Int) : Nat × Int :=
  let i := interval significand exponent
  let top := i.log10
  let grids := (List.range 17).map fun (k : Nat) => top - (k : Int)
  match grids.findSome? fun g => (i.onGrid g).map fun digits => (digits, g) with
  | some (digits, g) => dropZeros 20 digits g
  | none => (significand, exponent)

end SchemaTidy.Decimal
