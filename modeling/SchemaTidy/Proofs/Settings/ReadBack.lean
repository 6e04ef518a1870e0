import Mathlib.Data.List.Induction
import SchemaTidy.Settings.Scalar
import SchemaTidy.Proofs.Toml.Number

/-! # Texts of variables read back

The text of a variable is taken for a truth value or a number if it can be, and where a text is
wanted that value is written out again. `ReadBack` says what comes of it. Main statements:
`ReadBack.eq_iff`, which texts come back as they were, and `verbatim_of_word`, that words do. -/

namespace SchemaTidy.Decimal

variable {digits cs : List Char} {c : Char} {m n : Nat}

theorem isDigit_iff : c.isDigit = true ↔ 48 ≤ c.toNat ∧ c.toNat ≤ 57 := by
  rw [Char.isDigit, Bool.and_eq_true, decide_eq_true_eq, decide_eq_true_eq]
  rfl

theorem digitIn?_ten (c : Char) :
    digitIn? 10 c = if c.isDigit then some (digitValue c) else none := by
  unfold digitIn?
  split
  next hdigit =>
    obtain ⟨hlow, hhigh⟩ := isDigit_iff.1 hdigit
    exact Option.filter_eq_some_iff.2 ⟨rfl, decide_eq_true (by
      have hzero : '0'.toNat = 48 := rfl
      rw [digitValue]
      omega)⟩
  next =>
    -- The letters stand for ten and more.
    refine Option.filter_eq_none_iff.2 fun value hvalue => ?_
    split at hvalue
    · cases hvalue
      simp
    · split at hvalue <;> cases hvalue
      simp

theorem ofDigits_concat (digits : List Char) (c : Char) :
    ofDigits (digits ++ [c]) = 10 * ofDigits digits + digitValue c :=
  List.foldl_append ..

theorem foldlM_digitIn? (h : cs.foldlM (fun n c => (digitIn? 10 c).map (10 * n + ·)) m = some n) :
    (∀ c ∈ cs, c.isDigit = true) ∧ n = cs.foldl (fun n c => 10 * n + digitValue c) m := by
  induction cs generalizing m with
  | nil => exact ⟨List.forall_mem_nil _, (Option.some.inj h).symm⟩
  | cons c cs ih =>
    rw [List.foldlM_cons, digitIn?_ten] at h
    by_cases hdigit : c.isDigit = true
    · rw [if_pos hdigit] at h
      obtain ⟨hall, hvalue⟩ := ih h
      exact ⟨List.forall_mem_cons.2 ⟨hdigit, hall⟩, hvalue⟩
    · rw [if_neg hdigit] at h
      cases h

/-- What is read in base ten are decimal digits. -/
theorem ofBase?_ten (h : ofBase? 10 cs = some n) :
    cs ≠ [] ∧ (∀ c ∈ cs, c.isDigit = true) ∧ n = ofDigits cs := by
  unfold ofBase? at h
  split at h
  · cases h
  next hne => exact ⟨by simpa using hne, foldlM_digitIn? h⟩

theorem digitChar_digitValue (h : c.isDigit = true) : (digitValue c).digitChar = c := by
  obtain ⟨hlow, hhigh⟩ := isDigit_iff.1 h
  have hall : ∀ k < 10, (digitValue (Char.ofNat (48 + k))).digitChar = Char.ofNat (48 + k) := by
    decide
  have hc := hall (c.toNat - 48) (by omega)
  rwa [Nat.add_sub_cancel' hlow, Char.ofNat_toNat] at hc

theorem digitValue_lt (h : c.isDigit = true) : digitValue c < 10 := by
  obtain ⟨hlow, hhigh⟩ := isDigit_iff.1 h
  have hzero : '0'.toNat = 48 := rfl
  rw [digitValue]
  omega

/-- Digits that stand for zero have a zero in front. -/
theorem ofDigits_pos (hne : digits ≠ []) (hdigit : ∀ c ∈ digits, c.isDigit = true)
    (hhead : digits.head? ≠ some '0') : 0 < ofDigits digits := by
  induction digits using List.reverseRecOn with
  | nil => exact absurd rfl hne
  | append_singleton front c ih =>
    rw [ofDigits_concat]
    cases front with
    | nil =>
      have hc := digitChar_digitValue (hdigit c (by simp))
      rcases Nat.eq_zero_or_pos (digitValue c) with hzero | hpos
      · rw [hzero] at hc
        exact absurd (congrArg some hc.symm) hhead
      · omega
    | cons first more =>
      have hfront := ih (by simp) (fun d hd => hdigit d (List.mem_append_left _ hd)) hhead
      omega

theorem toDigits_ofDigits (h : Toml.Digits digits) : Nat.toDigits 10 (ofDigits digits) = digits := by
  induction digits using List.reverseRecOn with
  | nil => exact absurd rfl h.ne_nil
  | append_singleton front c ih =>
    have hc : c.isDigit = true := h.isDigit c (by simp)
    have hvalue := digitValue_lt hc
    rw [ofDigits_concat]
    cases front with
    | nil =>
      rw [show ofDigits [] = 0 from rfl, Nat.mul_zero, Nat.zero_add,
        Nat.toDigits_of_lt_base hvalue, digitChar_digitValue hc, List.nil_append]
    | cons first more =>
      have hdigit : ∀ d ∈ first :: more, d.isDigit = true :=
        fun d hd => h.isDigit d (List.mem_append_left _ hd)
      have hhead : (first :: more).head? ≠ some '0' := fun heq => by
        have hlong := h.no_zero heq
        simp at hlong
      have hpos := ofDigits_pos (List.cons_ne_nil _ _) hdigit hhead
      rw [Nat.toDigits_of_base_le (by decide) (by omega), Nat.mul_add_div (by decide),
        Nat.div_eq_of_lt hvalue, Nat.add_zero, Nat.mul_add_mod, Nat.mod_eq_of_lt hvalue,
        digitChar_digitValue hc, ih ⟨List.cons_ne_nil _ _, hdigit, fun heq => absurd heq hhead⟩]

/-- Digits are written as they were read when no zero stands in front of others. -/
theorem toDigits_ofDigits_iff (hne : digits ≠ []) (hdigit : ∀ c ∈ digits, c.isDigit = true) :
    Nat.toDigits 10 (ofDigits digits) = digits ↔ (digits.head? = some '0' → digits = ['0']) := by
  constructor
  · intro h hhead
    have hshort := (h ▸ Toml.digits_toDigits _ : Toml.Digits digits).no_zero hhead
    cases digits with
    | nil => exact absurd rfl hne
    | cons first more =>
      cases hhead
      rw [List.length_eq_zero_iff.1 (Nat.le_zero.1 (Nat.le_of_succ_le_succ hshort))]
  · intro h
    exact toDigits_ofDigits ⟨hne, hdigit, fun hhead => by rw [h hhead]; exact Nat.le_refl _⟩

end SchemaTidy.Decimal

namespace SchemaTidy.Settings
open Decimal (splitSign ofDigits intText)

variable {text : List Char} {value result : String} {n : Int}

/-- A whole number is written without a plus sign, and with a zero in front only if it is zero. -/
def PlainInteger (text : List Char) : Prop :=
  text.head? ≠ some '+' ∧ ((splitSign text).2.head? = some '0' → text = ['0'])

theorem head?_intText_ne (n : Int) : (intText n).head? ≠ some '+' := by
  unfold Decimal.intText
  split
  · simp
  · intro hhead
    have hplus := (Toml.digits_toDigits n.natAbs).isDigit '+' (List.mem_of_head? hhead)
    cases hplus

theorem integer?_eq_some (h : integer? text = some n) :
    ∃ m, Decimal.ofBase? 10 (splitSign text).2 = some m ∧
      n = if (splitSign text).1 then -(m : Int) else m := by
  simp only [integer?, Option.bind_eq_bind, Option.bind_eq_some_iff] at h
  obtain ⟨m, hm, h⟩ := h
  rw [Option.ite_none_right_eq_some] at h
  exact ⟨m, hm, (Option.some.inj h.2).symm⟩

theorem intText_neg {m : Nat} (h : 0 < m) : intText (-(m : Int)) = '-' :: Nat.toDigits 10 m := by
  rw [Decimal.intText, if_pos (by omega), Int.natAbs_neg, Int.natAbs_natCast]

theorem intText_natCast (m : Nat) : intText (m : Int) = Nat.toDigits 10 m := by
  rw [Decimal.intText, if_neg (by omega), Int.natAbs_natCast]

/-- The zero with a minus sign is written without it. -/
theorem intText_neg_eq_iff {digits : List Char} (hne : digits ≠ [])
    (hdigit : ∀ c ∈ digits, c.isDigit = true) :
    intText (-(ofDigits digits : Int)) = '-' :: digits ↔ digits.head? ≠ some '0' := by
  constructor
  · intro h hhead
    rcases Nat.eq_zero_or_pos (ofDigits digits) with hzero | hpos
    · rw [hzero] at h
      cases h
    · rw [intText_neg hpos] at h
      rw [(Decimal.toDigits_ofDigits_iff hne hdigit).1 (List.cons.inj h).2 hhead] at hpos
      cases hpos
  · intro hhead
    rw [intText_neg (Decimal.ofDigits_pos hne hdigit hhead),
      (Decimal.toDigits_ofDigits_iff hne hdigit).2 fun heq => absurd heq hhead]

/-- **Whole numbers that are written as they were read.** -/
theorem intText_eq_iff (h : integer? text = some n) : intText n = text ↔ PlainInteger text := by
  obtain ⟨m, hm, rfl⟩ := integer?_eq_some h
  obtain ⟨hne, hdigit, rfl⟩ := Decimal.ofBase?_ten hm
  clear h hm
  revert hne hdigit
  unfold PlainInteger
  fun_cases Decimal.splitSign text
  case case1 digits =>
    intro hne hdigit
    exact (intText_neg_eq_iff hne hdigit).trans (by simp)
  case case2 digits =>
    intro _ _
    exact iff_of_false (fun h => head?_intText_ne _ (congrArg List.head? h)) fun h => h.1 rfl
  case case3 hminus hplus =>
    intro hne hdigit
    have hhead : text.head? ≠ some '+' := fun heq => by
      cases hdigit '+' (List.mem_of_mem_head? heq)
    rw [and_iff_right hhead, ← Decimal.toDigits_ofDigits_iff hne hdigit, ← intText_natCast]
    rfl

/-! ## The text of a variable where a text is wanted -/

/-- A text as it is written once it has been taken for the first it can be of a truth value, a
whole number and any number. -/
inductive ReadBack (value : String) : String → Prop
  | truth {b : Bool} (h : truthValue? value.toList = some b) :
      ReadBack value (if b then "true" else "false")
  | integer {n : Int} (htruth : truthValue? value.toList = none)
      (h : integer? value.toList = some n) : ReadBack value (String.ofList (intText n))
  | real {x : Decimal.Binary} (htruth : truthValue? value.toList = none)
      (hinteger : integer? value.toList = none) (h : real? value.toList = some x) :
      ReadBack value (String.ofList (numberText x))
  | plain (htruth : truthValue? value.toList = none) (hinteger : integer? value.toList = none)
      (h : real? value.toList = none) : ReadBack value value

/-- Texts that stand as they are written, for what they are taken for. -/
def Verbatim (text : List Char) : Prop :=
  match truthValue? text, integer? text, real? text with
  | some b, _, _ => text = (if b then "true" else "false").toList
  | none, some _, _ => PlainInteger text
  | none, none, some x => text = numberText x
  | none, none, none => True

theorem table?_variableValue (value : String) : (variableValue value).table? = none := by
  unfold variableValue
  dsimp only
  split <;> rfl

theorem readBack_variableValue (value : String) :
    ∃ result, text? (variableValue value) = some result ∧ ReadBack value result := by
  unfold variableValue
  dsimp only
  split
  next htruth => exact ⟨_, rfl, .truth htruth⟩
  next htruth hinteger => exact ⟨_, rfl, .integer htruth hinteger⟩
  next htruth hinteger hreal => exact ⟨_, rfl, .real htruth hinteger hreal⟩
  next htruth hinteger hreal => exact ⟨_, rfl, .plain htruth hinteger hreal⟩

/-- **Which texts come back as they were.** -/
theorem ReadBack.eq_iff (h : ReadBack value result) : result = value ↔ Verbatim value.toList := by
  unfold Verbatim
  cases h with
  | truth htruth =>
    rw [htruth, String.ext_iff, eq_comm]
  | integer htruth hinteger =>
    rw [htruth, hinteger, ← intText_eq_iff hinteger, String.ext_iff, String.toList_ofList]
  | real htruth hinteger hreal =>
    rw [htruth, hinteger, hreal, String.ext_iff, String.toList_ofList, eq_comm]
  | plain htruth hinteger hreal =>
    rw [htruth, hinteger, hreal]
    exact iff_of_true rfl trivial

/-! ## Words -/

/-- A text starts as no number does. -/
def StartsWord (text : List Char) : Prop :=
  ∀ c ∈ text.head?, c.isDigit = false ∧ "+-.".toList.contains c = false

theorem StartsWord.splitSign (h : StartsWord text) : splitSign text = (false, text) := by
  fun_cases Decimal.splitSign text
  case case1 digits => cases (h '-' rfl).2
  case case2 digits => cases (h '+' rfl).2
  case case3 => rfl

theorem StartsWord.integer? (h : StartsWord text) : integer? text = none := by
  refine Option.eq_none_iff_forall_ne_some.2 fun n hn => ?_
  obtain ⟨m, hm, -⟩ := integer?_eq_some hn
  rw [h.splitSign] at hm
  obtain ⟨hne, hdigit, -⟩ := Decimal.ofBase?_ten hm
  obtain ⟨c, more, rfl⟩ := List.exists_cons_of_ne_nil hne
  have hc := hdigit c List.mem_cons_self
  rw [(h c rfl).1] at hc
  cases hc

theorem StartsWord.numeral? (h : StartsWord text) : Decimal.numeral? text = none := by
  have hwhole : text.takeWhile Char.isDigit = [] := by
    cases text with
    | nil => rfl
    | cons c more => exact List.takeWhile_cons_of_neg (by simp [(h c rfl).1])
  unfold Decimal.numeral?
  rw [h.splitSign]
  dsimp only
  rw [hwhole, List.length_nil, List.drop_zero]
  split
  next more => cases (h '.' rfl).2
  next => rfl

/-- **Words come back as they were**, all but those for truth values and for infinity and results
that are no numbers. -/
theorem verbatim_of_word (h : StartsWord text)
    (htruth : ∀ word ∈ ["true", "false"], Text.lowercase text ≠ word.toList)
    (hnamed : ∀ word ∈ ["inf", "infinity", "nan"], text.map Char.toLower ≠ word.toList) :
    Verbatim text := by
  have htruth : truthValue? text = none := by
    rw [truthValue?, if_neg (htruth _ (by simp)), if_neg (htruth _ (by simp))]
  have hreal : real? text = none := by
    rw [real?, h.numeral?, named?, h.splitSign]
    dsimp only
    rw [if_neg fun heq => heq.elim (hnamed _ (by simp)) (hnamed _ (by simp)),
      if_neg (hnamed _ (by simp))]
    rfl
  rw [Verbatim, htruth, h.integer?, hreal]
  trivial

end SchemaTidy.Settings
