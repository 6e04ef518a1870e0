import SchemaTidy.Toml.Value

/-! Numbers of TOML. Digits may be grouped by single underscores; a whole number may be given in
base sixteen, eight or two. -/

namespace SchemaTidy.Toml
open Reader
open Decimal (Binary)

/-- Digits, with an underscore allowed between any two of them. -/
def groupedDigits (isDigit : Char → Bool) : Reader (List Char) := do
  let groups ← separated (char '_') (takeSome isDigit)
  pure groups.flatten

/-- Digits of a number in base ten, which starts with a zero only if it is zero. -/
def decimalDigits : Reader (List Char) := do
  let digits ← groupedDigits Char.isDigit
  if digits.head? = some '0' ∧ 1 < digits.length then failure else pure digits

def readSign : Reader Bool := do return (← Reader.optional (oneOf ['+', '-'])) == some '-'

def integer (n : Int) : Reader Int := if isInteger n then pure n else failure

def readBase (marker : Char) (base : Nat) : Reader Int := do
  literal ['0', marker]
  let digits ← groupedDigits fun c => (Decimal.digitIn? base c).isSome
  match Decimal.ofBase? base digits with
  | some n => integer n
  | none => failure

def readInteger : Reader Int :=
  readBase 'x' 16 <|> readBase 'o' 8 <|> readBase 'b' 2 <|> do
    let negative ← readSign
    let n : Int := Decimal.ofDigits (← decimalDigits)
    integer (if negative then -n else n)

def readExponent : Reader Int := do
  discard (oneOf ['e', 'E'])
  let negative ← readSign
  let n : Int := Decimal.ofDigits (← groupedDigits Char.isDigit)
  pure (if negative then -n else n)

/-- A number with a fraction, an exponent or both; one beyond the largest is refused. -/
def readNumeral : Reader Binary := do
  let negative ← readSign
  let digits ← decimalDigits
  let fraction ← Reader.optional (char '.' *> groupedDigits Char.isDigit)
  let exponent ← Reader.optional readExponent
  if fraction.isNone && exponent.isNone then failure
  let fraction := fraction.getD []
  let number := Decimal.nearest negative (Decimal.ofDigits (digits ++ fraction))
    (exponent.getD 0 - fraction.length)
  if number = .infinite false then failure else pure number

def readReal : Reader Binary :=
  readNumeral <|> do
    let negative ← readSign
    (do literal "inf".toList; pure (.infinite negative)) <|>
      (do literal "nan".toList; pure .nan)

/-! ## Writing -/

/-- A number with a point always, and without an exponent. -/
def realText : Binary → List Char
  | .nan => "nan".toList
  | .infinite negative => (if negative then "-inf" else "inf").toList
  | .finite negative significand exponent =>
    let text := Decimal.positional negative significand exponent
    if text.contains '.' then text else text ++ ['.', '0']

end SchemaTidy.Toml
