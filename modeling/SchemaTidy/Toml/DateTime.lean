import SchemaTidy.Toml.Reader
import SchemaTidy.Decimal.Numeral

/-! Dates and times, each with or without the other. Their written form has two digits for every
part of a time, as many digits for the fraction of a second as it needs, and a capital `T` and
`Z`. -/

namespace SchemaTidy.Toml
open Reader

structure Date where
  year : Nat
  month : Nat
  day : Nat
deriving DecidableEq, Repr

structure Time where
  hour : Nat
  minute : Nat
  second : Nat
  nanosecond : Nat
deriving DecidableEq, Repr

inductive Offset where
  | utc
  | minutes (n : Int)
deriving DecidableEq, Repr

/-- An offset comes only with a date and a time. -/
structure DateTime where
  date : Option Date
  time : Option Time
  offset : Option Offset
deriving DecidableEq, Repr

/-! ## Reading -/

/-- A number of exactly `count` digits. -/
def paddedNumber (count : Nat) : Reader Nat := do
  let digits := (← get).take count
  if digits.length = count ∧ digits.all Char.isDigit then
    modify (·.drop count)
    pure (Decimal.ofDigits digits)
  else failure

def numberIn (count least greatest : Nat) : Reader Nat := do
  let n ← paddedNumber count
  if least ≤ n ∧ n ≤ greatest then pure n else failure

def isLeapYear (year : Nat) : Bool := year % 4 == 0 && (year % 100 != 0 || year % 400 == 0)

def daysInMonth (year month : Nat) : Nat :=
  if month = 2 then (if isLeapYear year then 29 else 28)
  else if month ∈ [4, 6, 9, 11] then 30
  else 31

def readDate : Reader Date := do
  let year ← paddedNumber 4
  char '-'
  let month ← numberIn 2 1 12
  char '-'
  return ⟨year, month, ← numberIn 2 1 (daysInMonth year month)⟩

/-- The digits after the point; those after the ninth do not count. -/
def readFraction : Reader Nat := do
  char '.'
  let digits := (← takeSome Char.isDigit).take 9
  pure (Decimal.ofDigits digits * Nat.pow 10 (9 - digits.length))

/-- The last minute may have a leap second. -/
def readTime : Reader Time := do
  let hour ← numberIn 2 0 23
  char ':'
  let minute ← numberIn 2 0 59
  char ':'
  let second ← numberIn 2 0 60
  return ⟨hour, minute, second, (← Reader.optional readFraction).getD 0⟩

def readOffset : Reader Offset := do
  let sign ← oneOf ['Z', 'z', '+', '-']
  if sign = 'Z' ∨ sign = 'z' then return .utc
  let hour ← numberIn 2 0 23
  char ':'
  let total := 60 * hour + (← numberIn 2 0 59)
  return .minutes (if sign = '-' then -total else total)

def readDateTime : Reader DateTime :=
  (do
    let date ← readDate
    let timed := do
      discard (oneOf ['T', 't', ' '])
      return (← readTime, ← Reader.optional readOffset)
    match ← Reader.optional timed with
    | some (time, offset) => return ⟨some date, some time, offset⟩
    | none => return ⟨some date, none, none⟩) <|>
  (return ⟨none, some (← readTime), none⟩)

/-! ## Writing -/

def padded (width n : Nat) : List Char :=
  let digits := Nat.toDigits 10 n
  List.replicate (width - digits.length) '0' ++ digits

def Date.text (d : Date) : List Char :=
  padded 4 d.year ++ '-' :: padded 2 d.month ++ '-' :: padded 2 d.day

def fractionText (nanosecond : Nat) : List Char :=
  if nanosecond = 0 then []
  else '.' :: ((padded 9 nanosecond).reverse.dropWhile (· == '0')).reverse

def Time.text (t : Time) : List Char :=
  padded 2 t.hour ++ ':' :: padded 2 t.minute ++ ':' :: padded 2 t.second ++
    fractionText t.nanosecond

def Offset.text : Offset → List Char
  | .utc => ['Z']
  | .minutes n =>
    (if n < 0 then '-' else '+') :: padded 2 (n.natAbs / 60) ++ ':' :: padded 2 (n.natAbs % 60)

def DateTime.text (d : DateTime) : List Char :=
  let date := d.date.elim [] Date.text
  let time := d.time.elim [] Time.text
  let joined := if d.date.isSome && d.time.isSome then date ++ 'T' :: time else date ++ time
  joined ++ d.offset.elim [] Offset.text

end SchemaTidy.Toml
