import SchemaTidy.Toml.Write
import SchemaTidy.Proofs.Toml.Number
import SchemaTidy.Proofs.Toml.Quoted

/-! # Values of TOML, written and read

Main statement: `readValue_text`. A truth value, a count, a string and a list of these read back as
they were written. -/

namespace SchemaTidy.Toml
open Reader

variable {cs rest : List Char} {c : Char} {v : Value}

/-! ## Blanks -/

/-- What is neither blank nor the start of a line break or a comment. -/
def isInk (c : Char) : Bool := !isGap c && c != '\n' && c != '\r' && c != '#'

/-- A text goes on with ink, or ends. -/
def Inked (cs : List Char) : Prop := ∀ c ∈ cs.head?, isInk c = true

theorem inked_cons (h : isInk c = true) (cs : List Char) : Inked (c :: cs) := fun _ hd =>
  Option.some.inj hd ▸ h

theorem isInk_iff : isInk c = true ↔ isGap c = false ∧ c ≠ '\n' ∧ c ≠ '\r' ∧ c ≠ '#' := by
  simp [isInk, and_assoc]

/-- Characters of a kind that has no blanks in it are ink. -/
theorem isInk_of_passes {test : Char → Bool} (h : test c = true)
    (hblanks : [' ', '\t', '\n', '\r', '#'].any test = false) : isInk c = true := by
  have hne : ∀ d ∈ [' ', '\t', '\n', '\r', '#'], c ≠ d := fun d hd =>
    ne_of_passes h (Bool.eq_false_iff.2 (List.any_eq_false.1 hblanks d hd))
  rw [isInk_iff, isGap, Bool.or_eq_false_iff, beq_eq_false_iff_ne, beq_eq_false_iff_ne]
  exact ⟨⟨hne _ (by decide), hne _ (by decide)⟩, hne _ (by decide), hne _ (by decide),
    hne _ (by decide)⟩

theorem Inked.head?_ne (h : Inked cs) (hc : isInk c = false) : cs.head? ≠ some c := fun heq => by
  rw [h c heq] at hc
  cases hc

/-- One of the things that may stand between statements and between items. -/
def blank : Reader Unit := discard (takeSome isGap) <|> newline <|> comment

theorem Inked.blank (h : Inked cs) : blank cs = none := by
  have hspace : takeSome isGap cs = none := takeSome_eq_none fun c hc => (isInk_iff.1 (h c hc)).1
  have hreturn : literal ['\r', '\n'] cs = none :=
    literal_cons_eq_none (char_eq_none (h.head?_ne (by decide))) _
  rw [Toml.blank, orElse_apply, discard_apply, hspace, orElse_apply, newline, orElse_apply,
    char_eq_none (h.head?_ne (by decide)), hreturn, comment, seqRight_apply,
    char_eq_none (h.head?_ne (by decide))]
  rfl

/-- Blanks and line breaks lead from one place of a text to another, where ink follows. -/
def Blanks (cs rest : List Char) : Prop := ∃ us, Run blank cs us rest

theorem Inked.blanks (h : Inked cs) : Blanks cs cs := ⟨[], .stop h.blank⟩

theorem Blanks.feed (h : Blanks cs rest) : Blanks ('\n' :: cs) rest := by
  obtain ⟨us, hus⟩ := h
  exact ⟨() :: us, .step rfl (Nat.lt_succ_self _) hus⟩

theorem Inked.spaces (h : Inked cs) {n : Nat} (hn : n ≠ 0) :
    Blanks (List.replicate n ' ' ++ cs) cs := by
  have htake : takeSome isGap (List.replicate n ' ' ++ cs) = some (List.replicate n ' ', cs) :=
    takeSome_apply (fun c hc => by rw [List.eq_of_mem_replicate hc]; rfl)
      (by rwa [Ne, List.replicate_eq_nil_iff]) fun c hc => (isInk_iff.1 (h c hc)).1
  have hblank : Toml.blank (List.replicate n ' ' ++ cs) = some ((), cs) := by
    rw [Toml.blank, orElse_apply, discard_apply, htake]
    rfl
  refine ⟨[()], .step hblank ?_ (.stop h.blank)⟩
  rw [List.length_append, List.length_replicate]
  omega

theorem Blanks.blankLines (h : Blanks cs rest) : blankLines cs = some ((), rest) := by
  obtain ⟨us, hus⟩ := h
  have hmany := many_apply hus
  rw [Toml.blankLines, discard_apply]
  change (many blank cs).map _ = _
  rw [hmany]
  rfl

/-! ## Single values -/

/-- The values that are read without looking into brackets or braces. -/
inductive Scalar : Value → Prop where
  | bool (b : Bool) : Scalar (.bool b)
  | count {n : Nat} (h : n < Nat.pow 2 63) : Scalar (.integer n)
  | string (s : String) : Scalar (.string s)

theorem exists_cons_stringText (cs : List Char) :
    ∃ quote more, stringText cs = quote :: more ∧ (quote = '"' ∨ quote = '\'') := by
  unfold stringText
  split
  · split
    · exact ⟨_, _, rfl, .inr rfl⟩
    · split <;> exact ⟨_, _, rfl, .inr rfl⟩
  · split <;> exact ⟨_, _, rfl, .inl rfl⟩

theorem text_count (n : Nat) : (Value.integer n).text = Nat.toDigits 10 n := by
  rw [Value.text, Decimal.intText, if_neg (by omega), Int.natAbs_natCast]

theorem Scalar.exists_cons (h : Scalar v) :
    ∃ c more, v.text = c :: more ∧ isInk c = true ∧ c ≠ ']' := by
  cases h with
  | bool b => cases b <;> exact ⟨_, _, rfl, by decide⟩
  | @count n h =>
    obtain ⟨c, more, hdigits, hc⟩ := (digits_toDigits n).exists_cons
    exact ⟨c, more, by rw [text_count, hdigits], isInk_of_passes hc (by decide),
      ne_of_passes hc rfl⟩
  | string s =>
    obtain ⟨quote, more, htext, hquote⟩ := exists_cons_stringText s.toList
    refine ⟨quote, more, htext, ?_⟩
    rcases hquote with rfl | rfl <;> decide

theorem Scalar.inked (h : Scalar v) (rest : List Char) : Inked (v.text ++ rest) := by
  obtain ⟨c, more, htext, hc, -⟩ := h.exists_cons
  rw [htext]
  exact inked_cons hc _

/-- The characters that tell of what kind a value is. -/
def openers : List Char := ['"', '\'', '[', '\x7b', 't', 'f']

/-- A value that starts with none of these characters is a number, if it is one. -/
theorem readValue_eq_readNumber (h : c ∉ openers) (depth : Nat) (cs : List Char) :
    readValue (depth + 1) (c :: cs) = readNumber (c :: cs) := by
  rw [readValue, bind_apply, peek?_apply, Option.bind_some, List.head?_cons]
  refine congrFun ?_ (c :: cs)
  dsimp only
  split
  case h_7 => rfl
  all_goals
    cases ‹some c = some _›
    exact absurd (by decide) h

theorem EndsValue.noQuote (h : EndsValue rest) : NoQuote rest :=
  ⟨h.head?_ne (by decide), h.head?_ne (by decide)⟩

theorem readValue_scalar (h : Scalar v) (hrest : EndsValue rest) (depth : Nat) :
    readValue (depth + 1) (v.text ++ rest) = some (v, rest) := by
  cases h with
  | bool b =>
    have hliteral := literal_append (if b then "true" else "false").toList rest
    rw [Value.text, readValue, bind_apply, peek?_apply, Option.bind_some, List.head?_append]
    cases b <;> simp_all
  | @count n h =>
    obtain ⟨c, more, hdigits, hc⟩ := (digits_toDigits n).exists_cons
    have hread := readNumber_toDigits n h hrest
    have hnone : openers.any Char.isDigit = false := by decide
    have hopener : c ∉ openers := fun hmem => List.any_eq_false.1 hnone c hmem hc
    rw [hdigits] at hread
    rw [text_count, hdigits, List.cons_append, readValue_eq_readNumber hopener,
      ← List.cons_append, hread]
  | string s =>
    obtain ⟨quote, more, htext, hquote⟩ := exists_cons_stringText s.toList
    have hread := readString_stringText s.toList hrest.noQuote
    have hvalue : readValue (depth + 1) (stringText s.toList ++ rest) =
        (Value.string <$> readString) (stringText s.toList ++ rest) := by
      rw [htext, List.cons_append, readValue, bind_apply]
      rcases hquote with rfl | rfl <;> rfl
    rw [Value.text, hvalue, map_apply, hread, String.ofList_toList]
    rfl

/-! ## Lists -/

/-- A bracket that closes starts no value. -/
theorem readValue_bracket (depth : Nat) (cs : List Char) : readValue depth (']' :: cs) = none := by
  cases depth with
  | zero => rfl
  | succ depth =>
    have hpadded (count : Nat) (hcount : count ≠ 0) : paddedNumber count (']' :: cs) = none := by
      obtain ⟨k, rfl⟩ := Nat.exists_eq_succ_of_ne_zero hcount
      rw [paddedNumber, bind_apply, get_apply, Option.bind_some, if_neg]
      · rfl
      · rintro ⟨-, hall⟩
        cases hall
    have hdate : readDate (']' :: cs) = none := by
      rw [readDate, bind_apply, hpadded 4 (by decide)]
      rfl
    have htime : readTime (']' :: cs) = none := by
      rw [readTime, bind_apply, numberIn, bind_apply, hpadded 2 (by decide)]
      rfl
    have hreal : readReal (']' :: cs) = none := rfl
    have hinteger : readInteger (']' :: cs) = none := rfl
    rw [readValue_eq_readNumber (by decide), readNumber, orElse_apply, orElse_apply, map_apply,
      map_apply, map_apply, readDateTime_eq_none hdate htime, hreal, hinteger]
    rfl

/-- An item of a list, with the comma behind it or in front of the bracket that closes the list. -/
def listItem (item : Reader Value) : Reader Value :=
  blankLines *> item <* blankLines <* (char ',' <|> do
    if (← peek?) = some ']' then pure () else failure)

/-- A value is written in ink, and an item reader reads it where a value ends. -/
structure ReadsBack (item : Reader Value) (v : Value) : Prop where
  ne_nil : v.text ≠ []
  inked (rest : List Char) : Inked (v.text ++ rest)
  read {rest : List Char} : EndsValue rest → item (v.text ++ rest) = some (v, rest)

variable {item : Reader Value} {items : List Value}

theorem listItem_of_comma (hitem : ReadsBack item v) (hcs : Blanks cs (v.text ++ ',' :: rest)) :
    listItem item cs = some (v, rest) := by
  have hends : EndsValue (',' :: rest) := fun c hc => by cases hc; decide
  have hblanks := (inked_cons (c := ',') rfl rest).blanks
  rw [listItem, seqLeft_apply, seqLeft_apply, seqRight_apply, hcs.blankLines, Option.bind_some,
    hitem.read hends, Option.bind_some, hblanks.blankLines]
  rfl

theorem listItem_of_bracket (hitem : ReadsBack item v) (hcs : Blanks cs (v.text ++ ']' :: rest)) :
    listItem item cs = some (v, ']' :: rest) := by
  have hends : EndsValue (']' :: rest) := fun c hc => by cases hc; decide
  have hblanks := (inked_cons (c := ']') rfl rest).blanks
  rw [listItem, seqLeft_apply, seqLeft_apply, seqRight_apply, hcs.blankLines, Option.bind_some,
    hitem.read hends, Option.bind_some, hblanks.blankLines]
  rfl

theorem listItem_eq_none (hitem : item (']' :: rest) = none) (hcs : Blanks cs (']' :: rest)) :
    listItem item cs = none := by
  rw [listItem, seqLeft_apply, seqLeft_apply, seqRight_apply, hcs.blankLines, Option.bind_some,
    hitem]
  rfl

/-- Items are read from their lines. -/
theorem run_itemsText (hclose : ∀ cs, item (']' :: cs) = none)
    (hitems : ∀ v ∈ items, ReadsBack item v) (rest : List Char) :
    Run (listItem item) ('\n' :: (itemsText items ++ ']' :: rest)) items ('\n' :: ']' :: rest) := by
  induction items with
  | nil => exact .stop (listItem_eq_none (hclose rest) (inked_cons (c := ']') rfl rest).blanks.feed)
  | cons v items ih =>
    have hitem := hitems v List.mem_cons_self
    have hmore := ih fun v hv => hitems v (List.mem_cons_of_mem _ hv)
    have hink := hitem.inked (',' :: '\n' :: (itemsText items ++ ']' :: rest))
    have hblanks := (hink.spaces (n := 4) (by decide)).feed
    have hline : itemsText (v :: items) ++ ']' :: rest =
        List.replicate 4 ' ' ++ (v.text ++ ',' :: '\n' :: (itemsText items ++ ']' :: rest)) := by
      simp [itemsText]
    rw [hline]
    refine .step (listItem_of_comma hitem hblanks) ?_ hmore
    simp only [List.length_append, List.length_cons]
    omega

theorem readItems_text (hclose : ∀ cs, item (']' :: cs) = none)
    (hitems : ∀ v ∈ items, ReadsBack item v) (rest : List Char) :
    readItems item ((Value.array items).text ++ rest) = some (items, rest) := by
  -- what is read behind the opening bracket, up to blanks in front of the closing one
  have hrun : ∃ body blanks, (Value.array items).text ++ rest = '[' :: body ∧
      Run (listItem item) body items blanks ∧ Blanks blanks (']' :: rest) := by
    have hbracket := (inked_cons (c := ']') rfl rest).blanks
    have hstop : Run (listItem item) (']' :: rest) [] (']' :: rest) :=
      .stop (listItem_eq_none (hclose rest) hbracket)
    match items with
    | [] => exact ⟨_, _, rfl, hstop, hbracket⟩
    | [v] =>
      have hitem := hitems v List.mem_cons_self
      have hlength := List.length_pos_iff.2 hitem.ne_nil
      refine ⟨v.text ++ ']' :: rest, ']' :: rest, by simp [Value.text],
        .step (listItem_of_bracket hitem (hitem.inked _).blanks) ?_ hstop, hbracket⟩
      rw [List.length_append]
      omega
    | v :: w :: more =>
      exact ⟨_, _, by simp [Value.text], run_itemsText hclose hitems rest, hbracket.feed⟩
  obtain ⟨body, blanks, htext, hbody, hblanks⟩ := hrun
  have hmany := many_apply hbody
  rw [htext, readItems, bind_apply, char_cons, Option.bind_some, bind_apply]
  change (many (listItem item) body).bind _ = _
  rw [hmany, Option.bind_some, bind_apply, hblanks.blankLines, Option.bind_some, bind_apply,
    char_cons]
  rfl

theorem exists_cons_text_array (items : List Value) :
    ∃ body, (Value.array items).text = '[' :: body := by
  match items with
  | [] | [_] | _ :: _ :: _ => exact ⟨_, rfl⟩

/-- The values of settings: single ones, and lists of them. -/
inductive Legible : Value → Prop where
  | scalar {v : Value} (h : Scalar v) : Legible v
  | list {items : List Value} (h : ∀ v ∈ items, Scalar v) : Legible (.array items)

theorem Legible.inked (h : Legible v) (rest : List Char) : Inked (v.text ++ rest) := by
  cases h with
  | scalar h => exact h.inked rest
  | @list items _ =>
    obtain ⟨body, hbody⟩ := exists_cons_text_array items
    rw [hbody]
    exact inked_cons (c := '[') rfl _

theorem Scalar.readsBack (h : Scalar v) (depth : Nat) : ReadsBack (readValue (depth + 1)) v where
  ne_nil := by
    obtain ⟨c, more, htext, -⟩ := h.exists_cons
    rw [htext]
    nofun
  inked := h.inked
  read hrest := readValue_scalar h hrest depth

/-- **Values of settings read back.** -/
theorem readValue_text (h : Legible v) (hrest : EndsValue rest) (depth : Nat) :
    readValue (depth + 2) (v.text ++ rest) = some (v, rest) := by
  cases h with
  | scalar h => exact readValue_scalar h hrest (depth + 1)
  | @list items h =>
    have hitems := readItems_text (readValue_bracket (depth + 1))
      (fun v hv => (h v hv).readsBack depth) rest
    have hvalue : readValue (depth + 2) ((Value.array items).text ++ rest) =
        (Value.array <$> readItems (readValue (depth + 1))) ((Value.array items).text ++ rest) := by
      obtain ⟨body, hbody⟩ := exists_cons_text_array items
      rw [hbody, List.cons_append, readValue, bind_apply]
      rfl
    rw [hvalue, map_apply, hitems]
    rfl

end SchemaTidy.Toml
