import SchemaTidy.Decimal.Numeral

/-! Values of YAML documents. A mapping keeps the order of its entries, and its keys may be any
values; what counts as the same key is equality of values. -/

namespace SchemaTidy.Yaml
open Decimal

/-- Whole numbers keep their value, all others are floating-point numbers. -/
inductive Number where
  | whole (n : Int)
  | real (x : Binary)
deriving DecidableEq, Repr

inductive Value where
  | null
  | bool (b : Bool)
  | number (n : Number)
  | string (s : String)
  | sequence (items : List Value)
  | mapping (entries : List (Value × Value))
  | tagged (tag : String) (value : Value)
deriving Repr

instance : Inhabited Value := ⟨.null⟩

/-- The entries of a mapping. -/
abbrev Entries := List (Value × Value)

namespace Number

def same : Number → Number → Bool
  | .whole m, .whole n => m == n
  | .real x, .real y => x.sameNumber y
  | _, _ => false

/-- Numbers with up to sixteen digits before the point, or up to four zeros after it, are
written without an exponent. -/
def layout : Layout := ⟨16, 5⟩

def text : Number → List Char
  | .whole n => intText n
  | .real .nan => ".nan".toList
  | .real (.infinite negative) => (if negative then "-.inf" else ".inf").toList
  | .real (.finite negative significand exponent) => layout.text negative significand exponent

end Number

namespace Value

mutual

/-- Equality of values. Mappings are equal when they have equal entries, in whatever order. -/
def same : Value → Value → Bool
  | .null, .null => true
  | .bool a, .bool b => a == b
  | .number m, .number n => m.same n
  | .string s, .string t => s == t
  | .sequence xs, .sequence ys => sameItems xs ys
  | .mapping xs, .mapping ys => xs.length == ys.length && sameEntries xs ys
  | .tagged t x, .tagged u y => t == u && same x y
  | _, _ => false

def sameItems : List Value → List Value → Bool
  | [], [] => true
  | x :: xs, y :: ys => same x y && sameItems xs ys
  | _, _ => false

def sameEntries : Entries → Entries → Bool
  | [], _ => true
  | (k, v) :: rest, ys => ys.any (fun (k', v') => same k k' && same v v') && sameEntries rest ys

end

mutual

/-- Whether two values are built alike. Zeros of both signs differ here, and so do mappings with
their entries in another order. -/
def identical : Value → Value → Bool
  | .null, .null => true
  | .bool a, .bool b => a == b
  | .number m, .number n => m == n
  | .string s, .string t => s == t
  | .sequence xs, .sequence ys => identicalItems xs ys
  | .mapping xs, .mapping ys => identicalEntries xs ys
  | .tagged t x, .tagged u y => t == u && identical x y
  | _, _ => false

def identicalItems : List Value → List Value → Bool
  | [], [] => true
  | x :: xs, y :: ys => identical x y && identicalItems xs ys
  | _, _ => false

def identicalEntries : Entries → Entries → Bool
  | [], [] => true
  | (k, v) :: xs, (l, w) :: ys => identical k l && identical v w && identicalEntries xs ys
  | _, _ => false

end

mutual

theorem identical_iff : ∀ v w : Value, v.identical w = true ↔ v = w
  | .null, w => by cases w <;> simp [identical]
  | .bool _, w => by cases w <;> simp [identical]
  | .number _, w => by cases w <;> simp [identical]
  | .string _, w => by cases w <;> simp [identical]
  | .sequence xs, w => by cases w <;> simp [identical, identicalItems_iff xs]
  | .mapping xs, w => by cases w <;> simp [identical, identicalEntries_iff xs]
  | .tagged _ v, w => by cases w <;> simp [identical, identical_iff v]

theorem identicalItems_iff : ∀ xs ys : List Value, identicalItems xs ys = true ↔ xs = ys
  | [], ys => by cases ys <;> simp [identicalItems]
  | x :: xs, ys => by cases ys <;> simp [identicalItems, identical_iff x, identicalItems_iff xs]

theorem identicalEntries_iff : ∀ xs ys : Entries, identicalEntries xs ys = true ↔ xs = ys
  | [], ys => by cases ys <;> simp [identicalEntries]
  | (k, v) :: xs, ys => by
    cases ys <;>
      simp [identicalEntries, identical_iff k, identical_iff v, identicalEntries_iff xs,
        Prod.ext_iff]

end

instance : DecidableEq Value := fun v w => decidable_of_iff _ (identical_iff v w)

def isString (text : String) : Value → Bool
  | .string s => s == text
  | _ => false

/-- The string that a value is, tags aside. -/
def untaggedString? : Value → Option String
  | .string s => some s
  | .tagged _ v => v.untaggedString?
  | _ => none

end Value

namespace Entries

/-- The value under a string key. -/
def get? (entries : Entries) (key : String) : Option Value :=
  (entries.find? fun entry => entry.1.isString key).map (·.2)

/-- Set the value of a key. A key that is there keeps its place, a new one goes to the end. -/
def insert : Entries → Value → Value → Entries
  | [], key, value => [(key, value)]
  | (k, v) :: rest, key, value =>
    if k.same key then (k, value) :: rest else (k, v) :: insert rest key value

end Entries

end SchemaTidy.Yaml
