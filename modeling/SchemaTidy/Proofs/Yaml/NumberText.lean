import SchemaTidy.Yaml.Value

/-! # The characters of numbers

A number is written with digits, signs, points, the mark of an exponent and the names of special
numbers. So it never reads like a word with other letters in it (`Number.text_ne`). -/

namespace SchemaTidy.Decimal

/-- The letters are those of `e`, `inf` and `nan`. -/
def isNumberChar (c : Char) : Bool := c.isDigit || "-.einfa".toList.contains c

theorem all_toDigits (n : Nat) : (Nat.toDigits 10 n).all isNumberChar = true :=
  List.all_eq_true.2 fun c hc => by
    rw [isNumberChar, Nat.isDigit_of_mem_toDigits (by decide) (by decide) hc, Bool.true_or]

theorem all_zeros (n : Nat) : (List.replicate n '0').all isNumberChar = true :=
  List.all_eq_true.2 fun c hc => by rw [List.eq_of_mem_replicate hc]; rfl

theorem all_intText (n : Int) : (intText n).all isNumberChar = true := by
  unfold intText
  split
  · rw [List.all_cons, all_toDigits]
    rfl
  · exact all_toDigits _

/-- Zeros are all that is put to the digits around a point. -/
theorem all_places {digits : List Char} (h : digits.all isNumberChar = true) (exponent : Int) :
    (places digits exponent).1.all isNumberChar = true ∧
      (places digits exponent).2.all isNumberChar = true := by
  unfold places
  split
  · exact ⟨by rw [List.all_append, h, all_zeros]; rfl, rfl⟩
  · dsimp only
    rw [List.splitAt_eq, ← Bool.and_eq_true, ← List.all_append, List.take_append_drop,
      List.all_append, all_zeros, h]
    rfl

theorem all_text (layout : Layout) (negative : Bool) (significand : Nat) (exponent : Int) :
    (layout.text negative significand exponent).all isNumberChar = true := by
  unfold Layout.text
  split
  next number exponent _ =>
  extract_lets digits point mantissa body
  have hdigits : digits.all isNumberChar = true := all_toDigits number
  clear_value digits
  have hmantissa : mantissa.all isNumberChar = true := by
    unfold mantissa
    split
    · simpa [isNumberChar] using hdigits
    · exact hdigits
  have hbody : body.all isNumberChar = true := by
    unfold body
    split
    · obtain ⟨hwhole, hfraction⟩ := all_places hdigits exponent
      rw [List.all_append, List.all_cons, hwhole]
      split
      · rfl
      · exact hfraction
    · rw [List.all_append, List.all_cons, hmantissa, all_intText]
      rfl
  split
  · rw [List.all_cons, hbody]
    rfl
  · exact hbody

end SchemaTidy.Decimal

namespace SchemaTidy.Yaml

open Decimal

theorem Number.all_text (n : Number) : n.text.all isNumberChar = true := by
  cases n with
  | whole n => exact all_intText n
  | real x =>
    cases x with
    | nan => decide
    | infinite negative => cases negative <;> decide
    | finite negative significand exponent => exact Decimal.all_text ..

/-- A word with a letter that no number has is not the text of a number. -/
theorem Number.text_ne {word : List Char} (h : word.all isNumberChar = false) (n : Number) :
    n.text ≠ word := fun htext => by
  rw [← htext, n.all_text] at h
  cases h

end SchemaTidy.Yaml
