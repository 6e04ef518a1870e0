import SchemaTidy.Toml.Read
import SchemaTidy.Proofs.Toml.Reader

/-! # Counts in TOML documents

Main statement: `readNumber_toDigits`. Decimal digits are read as a whole number, and as neither a
date nor a number with a fraction, when no such thing is continued behind them. -/

namespace SchemaTidy.Toml
open Reader

variable {cs rest : List Char}

/-- What may stand behind a value. -/
def enders : List Char := ['\n', ',', ']']

def EndsValue (rest : List Char) : Prop := ∀ c ∈ rest.head?, c ∈ enders

theorem EndsValue.head?_ne {c : Char} (h : EndsValue rest) (hc : c ∉ enders) :
    rest.head? ≠ some c := fun heq => hc (h c heq)

theorem EndsValue.oneOf_eq_none {chars : List Char} (h : EndsValue rest)
    (hchars : enders.any chars.contains = false) : oneOf chars rest = none :=
  Reader.oneOf_eq_none fun c hc hmem =>
    List.any_eq_false.1 hchars c (h c hc) (List.contains_iff_mem.2 hmem)

theorem EndsValue.not_isDigit (h : EndsValue rest) : ∀ c ∈ rest.head?, c.isDigit = false := by
  have henders : enders.any Char.isDigit = false := by decide
  exact fun c hc => Bool.eq_false_iff.2 (List.any_eq_false.1 henders c (h c hc))

/-! ## Digits -/

/-- Digits of a whole number, which start with a zero only if it is zero. -/
structure Digits (digits : List Char) : Prop where
  ne_nil : digits ≠ []
  isDigit : ∀ c ∈ digits, c.isDigit = true
  no_zero : digits.head? = some '0' → digits.length ≤ 1

theorem digitChar_ne_zero : ∀ n < 10, 0 < n → n.digitChar ≠ '0' := by decide

theorem head?_toDigits {n : Nat} (h : 0 < n) : (Nat.toDigits 10 n).head? ≠ some '0' := by
  induction n using Nat.strongRecOn with
  | ind n ih =>
    by_cases hlt : n < 10
    · rw [Nat.toDigits_of_lt_base hlt, List.head?_cons]
      exact fun heq => digitChar_ne_zero n hlt h (Option.some.inj heq)
    · rw [Nat.toDigits_of_base_le (by decide) (by omega), List.head?_append,
        Option.or_of_isSome (by simp)]
      exact ih (n / 10) (by omega) (by omega)

theorem digits_toDigits (n : Nat) : Digits (Nat.toDigits 10 n) where
  ne_nil := Nat.toDigits_ne_nil
  isDigit _ hc := Nat.isDigit_of_mem_toDigits (by decide) (by decide) hc
  no_zero h := by
    rcases Nat.eq_zero_or_pos n with rfl | hpos
    · exact Nat.le_refl _
    · exact absurd h (head?_toDigits hpos)

theorem ofDigits_toDigits (n : Nat) : Decimal.ofDigits (Nat.toDigits 10 n) = n :=
  Nat.ofDigitChars_ten_toDigits

/-- A number of a date or a time is taken from the digits alone. -/
theorem paddedNumber_append {digits : List Char} (hrest : EndsValue rest) {count : Nat}
    {x : Nat × List Char} (hx : paddedNumber count (digits ++ rest) = some x) :
    x.2 = digits.drop count ++ rest := by
  rw [paddedNumber, bind_apply, get_apply, Option.bind_some] at hx
  dsimp only at hx
  split at hx
  next htake =>
    have hcount : count ≤ digits.length := by
      refine Nat.le_of_not_lt fun hlt => ?_
      cases rest with
      | nil =>
        rw [List.append_nil, List.length_take] at htake
        omega
      | cons c rest =>
        have hmem : c ∈ (digits ++ c :: rest).take count := by
          obtain ⟨k, hk⟩ := Nat.exists_eq_add_of_lt hlt
          rw [hk, Nat.add_assoc, List.take_length_add_append, List.take_succ_cons]
          simp
        have hdigit := List.all_eq_true.1 htake.2 c hmem
        rw [hrest.not_isDigit c rfl] at hdigit
        cases hdigit
    cases hx
    exact List.drop_append_of_le_length hcount
  next => cases hx

theorem isInteger_natCast {n : Nat} (h : n < Nat.pow 2 63) : isInteger n = true := by
  rw [isInteger, Bool.and_eq_true, decide_eq_true_eq, decide_eq_true_eq]
  exact ⟨by simp, Int.ofNat_lt.2 h⟩

theorem readDateTime_eq_none (hdate : readDate cs = none) (htime : readTime cs = none) :
    readDateTime cs = none := by
  rw [readDateTime, orElse_apply, bind_apply, hdate, bind_apply, htime]
  rfl

namespace Digits

variable {digits : List Char}

theorem exists_cons (h : Digits digits) :
    ∃ c more, digits = c :: more ∧ c.isDigit = true := by
  obtain ⟨c, more, rfl⟩ := List.exists_cons_of_ne_nil h.ne_nil
  exact ⟨c, more, rfl, h.isDigit c List.mem_cons_self⟩

/-- Behind digits there is none of the characters that go on with a date or a time. -/
theorem char_drop (h : Digits digits) (hrest : EndsValue rest) {c : Char} (hc : c.isDigit = false)
    (hend : c ∉ enders) (count : Nat) : char c (digits.drop count ++ rest) = none := by
  refine char_eq_none fun heq => ?_
  rw [List.head?_append] at heq
  cases hdrop : (digits.drop count).head? with
  | none =>
    rw [hdrop, Option.none_or] at heq
    exact hrest.head?_ne hend heq
  | some d =>
    rw [hdrop, Option.some_or] at heq
    cases heq
    have hdigit := h.isDigit c (List.mem_of_mem_drop (List.mem_of_mem_head? hdrop))
    rw [hc] at hdigit
    cases hdigit

theorem readDateTime (h : Digits digits) (hrest : EndsValue rest) :
    Toml.readDateTime (digits ++ rest) = none := by
  have hdate : readDate (digits ++ rest) = none := by
    rw [readDate, bind_apply]
    cases hyear : Toml.paddedNumber 4 (digits ++ rest) with
    | none => rfl
    | some x =>
      rw [Option.bind_some, bind_apply, paddedNumber_append hrest hyear,
        h.char_drop hrest (by decide) (by decide)]
      rfl
  have htime : readTime (digits ++ rest) = none := by
    rw [readTime, bind_apply, numberIn, bind_apply]
    cases hhour : Toml.paddedNumber 2 (digits ++ rest) with
    | none => rfl
    | some x =>
      rw [Option.bind_some, paddedNumber_append hrest hhour]
      split
      · rw [pure_apply, Option.bind_some, bind_apply, h.char_drop hrest (by decide) (by decide)]
        rfl
      · rfl
  exact readDateTime_eq_none hdate htime

theorem oneOf_eq_none (h : Digits digits) {chars : List Char}
    (hchars : chars.any Char.isDigit = false) (rest : List Char) :
    oneOf chars (digits ++ rest) = none := by
  obtain ⟨c, more, rfl, hc⟩ := h.exists_cons
  refine Reader.oneOf_eq_none fun d hd hmem => ?_
  cases hd
  exact List.any_eq_false.1 hchars c hmem hc

theorem readSign (h : Digits digits) (rest : List Char) :
    Toml.readSign (digits ++ rest) = some (false, digits ++ rest) := by
  rw [Toml.readSign, bind_apply, optional_apply, h.oneOf_eq_none (by decide)]
  rfl

theorem decimalDigits (h : Digits digits) (hrest : EndsValue rest) :
    Toml.decimalDigits (digits ++ rest) = some (digits, rest) := by
  have hgrouped : groupedDigits Char.isDigit (digits ++ rest) = some (digits, rest) := by
    have hrun := takeSome_apply h.isDigit h.ne_nil hrest.not_isDigit
    have hsingle := separated_apply hrun (char_eq_none (hrest.head?_ne (c := '_') (by decide)))
    rw [groupedDigits, bind_apply, hsingle]
    simp
  rw [Toml.decimalDigits, bind_apply, hgrouped, Option.bind_some, if_neg]
  · rfl
  · rintro ⟨hzero, hlong⟩
    exact Nat.not_lt_of_le (h.no_zero hzero) hlong

theorem readReal (h : Digits digits) (hrest : EndsValue rest) :
    Toml.readReal (digits ++ rest) = none := by
  have hnumeral : readNumeral (digits ++ rest) = none := by
    have hpoint : (Reader.char '.' *> groupedDigits Char.isDigit) rest = none := by
      rw [seqRight_apply, char_eq_none (hrest.head?_ne (by decide))]
      rfl
    have hexponent : readExponent rest = none := by
      rw [readExponent, bind_apply, discard_apply, hrest.oneOf_eq_none (by decide)]
      rfl
    rw [readNumeral, bind_apply, h.readSign, Option.bind_some, bind_apply, h.decimalDigits hrest,
      Option.bind_some, bind_apply, optional_apply, hpoint, Option.bind_some, bind_apply,
      optional_apply, hexponent]
    rfl
  have hinf : literal "inf".toList (digits ++ rest) = none :=
    literal_cons_eq_none (h.char_drop hrest (by decide) (by decide) 0) _
  have hnan : literal "nan".toList (digits ++ rest) = none :=
    literal_cons_eq_none (h.char_drop hrest (by decide) (by decide) 0) _
  rw [Toml.readReal, orElse_apply, hnumeral, bind_apply, h.readSign, Option.bind_some, orElse_apply,
    bind_apply, bind_apply, hinf, hnan]
  rfl

theorem readBase (h : Digits digits) (hrest : EndsValue rest) {marker : Char}
    (hmarker : marker.isDigit = false) (hend : marker ∉ enders) (base : Nat) :
    Toml.readBase marker base (digits ++ rest) = none := by
  have hliteral : literal ['0', marker] (digits ++ rest) = none := by
    obtain ⟨c, more, hdigits, -⟩ := h.exists_cons
    have hsecond := h.char_drop hrest hmarker hend 1
    rw [hdigits] at hsecond ⊢
    by_cases hc : c = '0'
    · rw [hc, List.cons_append]
      change (Reader.char '0' ('0' :: (more ++ rest))).bind (fun x => literal [marker] x.2) = none
      rw [char_cons, Option.bind_some]
      exact literal_cons_eq_none hsecond []
    · exact literal_cons_eq_none (char_eq_none (by simpa using hc)) _
  rw [Toml.readBase, bind_apply, hliteral]
  rfl

theorem readInteger (h : Digits digits) (hrest : EndsValue rest)
    (hlimit : Decimal.ofDigits digits < Nat.pow 2 63) :
    Toml.readInteger (digits ++ rest) = some ((Decimal.ofDigits digits : Int), rest) := by
  rw [Toml.readInteger, orElse_apply, h.readBase hrest (by decide) (by decide), Option.none_or,
    orElse_apply, h.readBase hrest (by decide) (by decide), Option.none_or,
    orElse_apply, h.readBase hrest (by decide) (by decide), Option.none_or,
    bind_apply, h.readSign, Option.bind_some, bind_apply, h.decimalDigits hrest, Option.bind_some]
  change integer (Decimal.ofDigits digits) rest = _
  rw [integer, if_pos (isInteger_natCast hlimit)]
  rfl

end Digits

theorem readNumber_toDigits (n : Nat) (hn : n < Nat.pow 2 63) (hrest : EndsValue rest) :
    readNumber (Nat.toDigits 10 n ++ rest) = some (.integer n, rest) := by
  have h := digits_toDigits n
  have hinteger := h.readInteger hrest (by rwa [ofDigits_toDigits])
  rw [ofDigits_toDigits] at hinteger
  rw [readNumber, orElse_apply, orElse_apply, map_apply, map_apply, map_apply, h.readDateTime hrest,
    h.readReal hrest, hinteger]
  rfl

end SchemaTidy.Toml
