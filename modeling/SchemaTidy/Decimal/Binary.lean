/-! Floating-point numbers of 53 significant bits, as exact values. A decimal numeral is read to
the nearest of them, and a numeral half-way between two to the one with the even significand. -/

namespace SchemaTidy.Decimal

/-- A finite number is `significand * 2 ^ exponent`, with its sign; zero has a sign too. -/
inductive Binary where
  | nan
  | infinite (negative : Bool)
  | finite (negative : Bool) (significand : Nat) (exponent : Int)
deriving DecidableEq, Repr

namespace Binary

def precision : Nat := 53
def leastExponent : Int := -1074
def greatestExponent : Int := 971

def zero (negative : Bool) : Binary := .finite negative 0 leastExponent

def isFinite : Binary → Bool
  | .finite .. => true
  | _ => false

/-- Equality of numbers: both zeros are one number, and so are all results that are none. -/
def sameNumber : Binary → Binary → Bool
  | .finite _ 0 _, .finite _ 0 _ => true
  | a, b => a == b

end Binary

/-- The quotient rounded to the nearest whole number, a half to the even one. -/
def roundQuotient (num den : Nat) : Nat :=
  let q := num / den
  let twice := 2 * (num % den)
  if twice < den then q
  else if den < twice then q + 1
  else if q % 2 = 0 then q else q + 1

/-- The two sides of the fraction `num / den * base ^ exponent`. -/
def scale (base num den : Nat) (exponent : Int) : Nat × Nat :=
  if 0 ≤ exponent then (num * Nat.pow base exponent.toNat, den)
  else (num, den * Nat.pow base (-exponent).toNat)

/-- The whole part of the binary logarithm of a positive fraction. -/
def log2Quotient (num den : Nat) : Int :=
  let guess := (num.log2 : Int) - den.log2
  let (n, d) := scale 2 num den (-guess)
  if d ≤ n then guess else guess - 1

/-- The number nearest to a positive fraction. -/
def nearestQuotient (negative : Bool) (num den : Nat) : Binary :=
  let exponent := max (log2Quotient num den - (Binary.precision - 1 : Nat)) Binary.leastExponent
  let (n, d) := scale 2 num den (-exponent)
  let rounded := roundQuotient n d
  let (significand, exponent) :=
    if rounded = Nat.pow 2 Binary.precision then (Nat.pow 2 (Binary.precision - 1), exponent + 1)
    else (rounded, exponent)
  if Binary.greatestExponent < exponent then .infinite negative
  else .finite negative significand exponent

def digitCount (n : Nat) : Nat := (Nat.toDigits 10 n).length

/-- The number nearest to `digits * 10 ^ exponent`. Magnitudes from `10 ^ 310` on are out of
range, and those below `10 ^ -330` round to zero. -/
def nearest (negative : Bool) (digits : Nat) (exponent : Int) : Binary :=
  if digits = 0 then .zero negative
  else if 310 < digitCount digits + exponent then .infinite negative
  else if digitCount digits + exponent < -330 then .zero negative
  else
    let (n, d) := scale 10 digits 1 exponent
    nearestQuotient negative n d

end SchemaTidy.Decimal
