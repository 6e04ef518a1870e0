import SchemaTidy.Toml.Quoted
import SchemaTidy.Proofs.Toml.Reader

/-! # Strings of TOML, written and read

Main statement: `readString_stringText`. Every string is written so that it reads back, whatever
form is chosen for it, when no quote follows. -/

namespace SchemaTidy.Toml
open Reader

variable {c : Char} {cs tail rest : List Char}

/-! ## Characters of basic strings -/

/-- The ways to write a character between double quotes. -/
inductive WrittenChar (keepLines : Bool) (c : Char) : List Char → Prop where
  | plain (h : isBasic c = true) : WrittenChar keepLines c [c]
  | feed (hkeep : keepLines = true) (hc : c = '\n') : WrittenChar keepLines c [c]
  | escape {letter : Char} (h : escaped? letter = some c) : WrittenChar keepLines c ['\\', letter]
  | code {w x y z : Char} (h : character? [w, x, y, z] = some c) :
    WrittenChar keepLines c ['\\', 'u', w, x, y, z]

/-- Codes have four digits. Only characters of ASCII are written so. -/
theorem hexEscape_of_lt : ∀ n < 128, ∃ digits, hexEscape (Char.ofNat n) = '\\' :: 'u' :: digits ∧
    digits.length = 4 ∧ character? digits = some (Char.ofNat n) := by
  have h : ∀ n < 128, hexEscape (Char.ofNat n) =
      '\\' :: 'u' :: (hexEscape (Char.ofNat n)).drop 2 ∧
      ((hexEscape (Char.ofNat n)).drop 2).length = 4 ∧
      character? ((hexEscape (Char.ofNat n)).drop 2) = some (Char.ofNat n) := by decide +kernel
  exact fun n hn => ⟨_, h n hn⟩

theorem lt_of_not_isPlain (h : ¬ isPlain c = true) : c.toNat < 128 := by
  simp [isPlain] at h
  omega

theorem writtenChar_hexEscape (h : ¬ isPlain c = true) (keepLines : Bool) :
    WrittenChar keepLines c (hexEscape c) := by
  obtain ⟨digits, hescape, hlength, hread⟩ := hexEscape_of_lt c.toNat (lt_of_not_isPlain h)
  rw [Char.ofNat_toNat] at hescape hread
  match digits, hlength with
  | [w, x, y, z], _ => exact hescape ▸ .code hread

theorem writtenChar_basicChar (keepLines : Bool) (c : Char) :
    WrittenChar keepLines c (basicChar keepLines c) := by
  unfold basicChar
  split
  · exact .escape rfl
  · exact .escape rfl
  · split
    next hkeep => exact .feed hkeep rfl
    · exact .escape rfl
  · exact .escape rfl
  · exact .escape rfl
  · exact .escape rfl
  · exact .escape rfl
  next hquote hbackslash =>
    split
    next hplain =>
      refine .plain ?_
      rw [isBasic, hplain, Bool.true_and, Bool.and_eq_true, bne_iff_ne, bne_iff_ne]
      exact ⟨hquote, hbackslash⟩
    next hplain => exact writtenChar_hexEscape hplain keepLines

theorem isBasic_iff : isBasic c = true ↔ isPlain c = true ∧ c ≠ '"' ∧ c ≠ '\\' := by
  rw [isBasic, Bool.and_eq_true, Bool.and_eq_true, bne_iff_ne, bne_iff_ne, and_assoc]

theorem ne_return_of_isPlain (h : isPlain c = true) : c ≠ '\r' := by
  rintro rfl
  revert h
  decide

/-- A quote is not written as it is. -/
theorem WrittenChar.exists_cons {keepLines : Bool} {written : List Char}
    (h : WrittenChar keepLines c written) : ∃ d ds, written = d :: ds ∧ d ≠ '"' := by
  cases h with
  | plain h => exact ⟨_, _, rfl, (isBasic_iff.1 h).2.1⟩
  | feed _ hc => exact ⟨_, _, rfl, hc ▸ by decide⟩
  | escape | code => exact ⟨_, _, rfl, by decide⟩

/-- A written character is read. -/
theorem basic_append {written : List Char} (h : WrittenChar false c written) (tail : List Char) :
    basic (written ++ tail) = (basic tail).map fun x => (c :: x.1, x.2) := by
  cases h with
  | plain h =>
    obtain ⟨-, hquote, hbackslash⟩ := isBasic_iff.1 h
    rw [List.singleton_append, basic, if_pos h]
    · cases basic tail <;> rfl
    · exact hquote
    all_goals intros; exact hbackslash ‹_›
  | feed hkeep => cases hkeep
  | @escape letter h =>
    have hu : letter ≠ 'u' := by rintro rfl; cases h
    have hU : letter ≠ 'U' := by rintro rfl; cases h
    rw [List.cons_append, List.singleton_append, basic, h]
    · cases basic tail <;> rfl
    all_goals intros; contradiction
  | code h =>
    simp only [List.cons_append, List.nil_append]
    rw [basic, h]
    cases basic tail <;> rfl

theorem basic_flatMap (cs rest : List Char) :
    basic (cs.flatMap (basicChar false) ++ '"' :: rest) = some (cs, rest) := by
  induction cs with
  | nil => rfl
  | cons c cs ih =>
    rw [List.flatMap_cons, List.append_assoc, basic_append (writtenChar_basicChar false c), ih]
    rfl

/-! ## Quotes that do not close -/

theorem closing?_of_ne {quote : Char} (h : c ≠ quote) (cs : List Char) :
    closing? quote (c :: cs) = none := by
  rw [closing?, List.takeWhile_cons_of_neg (by simpa using h)]
  rfl

/-- Three quotes close a string when no quote follows. -/
theorem closing?_quotes {quote : Char} (h : rest.head? ≠ some quote) :
    closing? quote (quote :: quote :: quote :: rest) = some ([], rest) := by
  have hrest : rest.takeWhile (· == quote) = [] := by
    cases rest with
    | nil => rfl
    | cons c rest => exact List.takeWhile_cons_of_neg (by simpa using h)
  have hquotes :
      (quote :: quote :: quote :: rest).takeWhile (· == quote) = [quote, quote, quote] := by
    simp [hrest]
  rw [closing?, hquotes]
  rfl

/-- Quotes in a text that has no three of them in a row and does not end in one close nothing. -/
theorem closing?_append {quote : Char} (hne : cs ≠ []) (htriple : hasTriple quote cs = false)
    (hlast : cs.getLast? ≠ some quote) (tail : List Char) : closing? quote (cs ++ tail) = none := by
  have hlength : ((cs ++ tail).takeWhile (· == quote)).length < 3 := by
    match cs with
    | [a] =>
      have ha : a ≠ quote := by simpa using hlast
      simp [ha]
    | [a, b] =>
      have hb : b ≠ quote := by simpa using hlast
      by_cases ha : a = quote <;> simp [ha, hb]
    | a :: b :: c :: more =>
      rw [hasTriple, Bool.or_eq_false_iff] at htriple
      by_cases ha : a = quote <;> by_cases hb : b = quote <;> by_cases hc : c = quote <;>
        simp_all
  rw [closing?, if_pos hlength]

theorem hasTriple_tail {quote : Char} (h : hasTriple quote (c :: cs) = false) :
    hasTriple quote cs = false := by
  match cs with
  | [] | [_] => rfl
  | _ :: _ :: _ =>
    rw [hasTriple, Bool.or_eq_false_iff] at h
    exact h.2

/-! ## Strings over lines -/

/-- A character with a backslash before it does not end its line. -/
theorem endsLine_of_escaped? {letter : Char} (h : escaped? letter = some c) (cs : List Char) :
    endsLine (letter :: cs) = false := by
  unfold escaped? at h
  split at h
  case h_8 => cases h
  all_goals rfl

theorem longBasic_append {written : List Char} (h : WrittenChar true c written)
    (tail : List Char) :
    longBasic false (written ++ tail) = (longBasic false tail).map fun x => (c :: x.1, x.2) := by
  cases h with
  | plain h =>
    obtain ⟨hplain, hquote, hbackslash⟩ := isBasic_iff.1 h
    rw [List.singleton_append, longBasic, closing?_of_ne hquote, h]
    · cases longBasic false tail <;> rfl
    · intros; exact ne_return_of_isPlain hplain ‹_›
    all_goals intros; exact hbackslash ‹_›
  | feed hkeep hc =>
    subst hc
    rw [List.singleton_append, longBasic, closing?_of_ne (by decide)]
    · cases longBasic false tail <;> rfl
    all_goals intros; contradiction
  | @escape letter h =>
    have hu : letter ≠ 'u' := by rintro rfl; cases h
    have hU : letter ≠ 'U' := by rintro rfl; cases h
    rw [List.cons_append, List.singleton_append, longBasic, endsLine_of_escaped? h, h]
    · cases longBasic false tail <;> rfl
    all_goals intros; contradiction
  | code h =>
    simp only [List.cons_append, List.nil_append]
    rw [longBasic, h]
    cases longBasic false tail <;> rfl

theorem longBasic_flatMap (cs : List Char) (hrest : rest.head? ≠ some '"') :
    longBasic false (cs.flatMap (basicChar true) ++ '"' :: '"' :: '"' :: rest) =
      some (cs, rest) := by
  induction cs with
  | nil =>
    rw [List.flatMap_nil, List.nil_append, longBasic, closing?_quotes hrest]
    · rfl
    all_goals intros; contradiction
  | cons c cs ih =>
    rw [List.flatMap_cons, List.append_assoc, longBasic_append (writtenChar_basicChar true c), ih]
    rfl

theorem longLiteral_append (hchars : ∀ c ∈ cs, isPlain c = true ∨ c = '\n')
    (htriple : hasTriple '\'' cs = false) (hlast : cs.getLast? ≠ some '\'')
    (hrest : rest.head? ≠ some '\'') :
    longLiteral (cs ++ '\'' :: '\'' :: '\'' :: rest) = some (cs, rest) := by
  induction cs with
  | nil =>
    rw [List.nil_append, longLiteral, closing?_quotes hrest]
    intro _ heq
    exact absurd heq (by decide)
  | cons c cs ih =>
    have hc := hchars c List.mem_cons_self
    have hreturn : c ≠ '\r' := by
      rcases hc with hc | rfl
      · exact ne_return_of_isPlain hc
      · decide
    have hmore := ih (fun d hd => hchars d (List.mem_cons_of_mem _ hd)) (hasTriple_tail htriple)
      fun h => hlast (by rw [List.getLast?_cons, h]; rfl)
    have hopen := closing?_append (List.cons_ne_nil c cs) htriple hlast
      ('\'' :: '\'' :: '\'' :: rest)
    rw [List.cons_append] at hopen ⊢
    rw [longLiteral, hopen, hmore]
    · have htest : (isPlain c || c == '\n') = true := by simpa using hc
      simp only [htest]
      rfl
    · intros; exact hreturn ‹_›

/-! ## The choice of a form -/

theorem readLiteral_append (hchars : ∀ c ∈ cs, isLiteral c = true) (rest : List Char) :
    readLiteral (cs ++ '\'' :: rest) = some (cs, rest) := by
  rw [readLiteral, List.takeWhile_append_of_pos hchars, List.dropWhile_append_of_pos hchars,
    List.takeWhile_cons_of_neg (by decide), List.dropWhile_cons_of_neg (by decide), List.append_nil]
  rfl

/-- No quote follows, so that the quotes which end a string are no more than these. -/
def NoQuote (rest : List Char) : Prop := rest.head? ≠ some '"' ∧ rest.head? ≠ some '\''

/-- A string starts with one quote only when no two more follow it. -/
theorem readString_eq_readShort {quote second : Char} {more : List Char}
    (h : second ≠ quote ∨ more.head? ≠ some quote) :
    readString (quote :: second :: more) = readShort (quote :: second :: more) := by
  rw [readString]
  all_goals
    intro more' heq
    injection heq with hquote heq
    injection heq with hsecond heq
    subst hquote hsecond heq
    simp at h

theorem readShort_basicText (cs rest : List Char) :
    readShort (basicText cs ++ rest) = some (String.ofList cs, rest) := by
  rw [basicText, List.append_assoc, List.cons_append, readShort, List.singleton_append,
    basic_flatMap]
  rfl

theorem readString_basicText (cs : List Char) (hrest : NoQuote rest) :
    readString (basicText cs ++ rest) = some (String.ofList cs, rest) := by
  rw [← readShort_basicText, basicText, List.append_assoc, List.cons_append]
  cases cs with
  | nil => exact readString_eq_readShort (.inr hrest.1)
  | cons c cs =>
    obtain ⟨d, ds, hwritten, hd⟩ := (writtenChar_basicChar false c).exists_cons
    rw [List.flatMap_cons, hwritten]
    exact readString_eq_readShort (.inl hd)

theorem dropNewline_of_isPlain (h : isPlain c = true) (cs : List Char) :
    dropNewline (c :: cs) = c :: cs := by
  have hfeed : c ≠ '\n' := by rintro rfl; revert h; decide
  rw [dropNewline]
  · rintro _ heq
    exact hfeed (List.cons.inj heq).1
  · rintro _ heq
    exact ne_return_of_isPlain h (List.cons.inj heq).1

/-- What a text is like that is written as a literal string. -/
theorem of_prefersLiteral (h : prefersLiteral cs = true) :
    cs ≠ [] ∧ (∀ c ∈ cs, isPlain c = true ∨ c = '\n') ∧ hasTriple '\'' cs = false ∧
      cs.getLast? ≠ some '\'' := by
  simp only [prefersLiteral, Bool.and_eq_true, List.all_eq_true, Bool.or_eq_true, beq_iff_eq,
    Bool.not_eq_true', bne_iff_ne] at h
  obtain ⟨⟨⟨hany, hchars⟩, htriple⟩, hlast⟩ := h
  refine ⟨?_, hchars, htriple, hlast⟩
  rintro rfl
  cases hany

/-- A literal string that spans lines or holds a quote has three quotes around it. -/
theorem readString_of_prefersLiteral (h : prefersLiteral cs = true) (hrest : NoQuote rest) :
    readString (stringText cs ++ rest) = some (String.ofList cs, rest) := by
  obtain ⟨hne, hchars, htriple, hlast⟩ := of_prefersLiteral h
  have hlong := longLiteral_append hchars htriple hlast hrest.2
  rw [stringText, if_pos h]
  split
  · -- the line feed behind the opening quotes is dropped
    simp only [String.reduceToList, List.cons_append, List.nil_append, List.append_assoc]
    rw [readString, dropNewline, hlong]
    rfl
  next hfeed =>
    have hplain : ∀ c ∈ cs, isPlain c = true := fun c hc =>
      (hchars c hc).resolve_right fun heq => hfeed (by simpa [heq] using hc)
    obtain ⟨c, more, rfl⟩ := List.exists_cons_of_ne_nil hne
    split
    · simp only [String.reduceToList, List.cons_append, List.nil_append, List.append_assoc]
        at hlong ⊢
      rw [readString, dropNewline_of_isPlain (hplain c List.mem_cons_self), hlong]
      rfl
    next hquote =>
      have hliteral : ∀ d ∈ c :: more, isLiteral d = true := fun d hd => by
        rw [isLiteral, hplain d hd, Bool.true_and, bne_iff_ne]
        exact fun heq => hquote (by simpa [heq] using hd)
      have hc : c ≠ '\'' := fun heq => hquote (by simp [heq])
      have hshort := readLiteral_append hliteral rest
      simp only [List.cons_append, List.nil_append, List.append_assoc] at hshort ⊢
      rw [readString_eq_readShort (.inl hc), readShort, hshort]
      rfl

/-- **Strings read back.** -/
theorem readString_stringText (cs : List Char) (hrest : NoQuote rest) :
    readString (stringText cs ++ rest) = some (String.ofList cs, rest) := by
  by_cases hliteral : prefersLiteral cs = true
  · exact readString_of_prefersLiteral hliteral hrest
  rw [stringText, if_neg hliteral]
  split
  · simp only [String.reduceToList, List.cons_append, List.nil_append, List.append_assoc]
    rw [readString, dropNewline, longBasic_flatMap cs hrest.1]
    rfl
  · exact readString_basicText cs hrest

end SchemaTidy.Toml
