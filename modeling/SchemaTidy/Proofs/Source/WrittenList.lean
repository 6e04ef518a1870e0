import SchemaTidy.Proofs.Source.FlatList

/-! # Lists of names written on one line

`key: [id, "full name"] # comment`, with blanks around the names and the brackets. The list is cut
at every comma and at the mark of a comment before a quote is looked for, so that a quoted name comes
back unless it holds one of them. Main statement: `flowItems_written`. -/

namespace SchemaTidy.Source
open Text

variable {b c m q : Char} {start : Nat} {cs xs rest head after : List Char}

/-! ## Marks and blanks -/

theorem not_mem_of_blanks (h : cs.all isBlank = true) (hc : isBlank c = false) : c ∉ cs := by
  intro hm
  rw [List.all_eq_true.1 h c hm] at hc
  cases hc

theorem not_mark_of_not_mem (h : m ∉ xs) (b : Char) : ¬ [b, m] <:+: xs :=
  fun hm => h (hm.subset (by simp))

/-- The mark of a comment stands on one side of what is neither blank nor `#`. -/
theorem mark_infix_cons (hb : isBlank b = true) (hc : isBlank c = false ∧ c ≠ '#')
    (h : [b, '#'] <:+: xs ++ c :: cs) : [b, '#'] <:+: xs ∨ [b, '#'] <:+: cs := by
  rcases pair_infix_append h with h | h | ⟨-, hhead⟩
  · exact .inl h
  · rcases List.infix_cons_iff.1 h with h | h
    · obtain ⟨rfl, -⟩ := List.cons_prefix_cons.1 h
      rw [hb] at hc
      cases hc.1
    · exact .inr h
  · exact absurd (Option.some.inj hhead) hc.2

theorem quote_opens (h : q = '"' ∨ q = '\'') : isBlank q = false ∧ q ≠ '#' := by
  rcases h with rfl | rfl <;> decide

/-! ## Scalars -/

/-- A scalar that no quote encloses is kept from its first character on. -/
theorem scalar?_cons (hblank : isBlank c = false) (hmark : c ≠ '#')
    (hquote : quotedBody (c :: cs) = none) :
    scalar? start (c :: cs) = some ⟨start, c :: trimEnd (beforeComment cs)⟩ := by
  have hbefore : beforeComment (c :: cs) = c :: beforeComment cs := by
    have hnot (b : Char) : ¬ [b, '#'] <:+: [c] := not_mark_of_not_mem (by simpa using hmark.symm) b
    have hlast (d : Char) (hd : [c].getLast? = some d) : isBlank d = false := by
      obtain rfl : c = d := Option.some.inj hd
      exact hblank
    rw [← List.singleton_append, beforeComment_append hlast (hnot ' ') (.inr (hnot '\t'))]
    rfl
  have htrim : trimEnd (c :: beforeComment cs) = c :: trimEnd (beforeComment cs) := by
    rw [trimEnd, hblank]
    cases trimEnd (beforeComment cs) <;> rfl
  unfold scalar?
  simp [trimStart, hblank, hmark, hquote, hbefore, htrim]

theorem scalar?_blanks (h : cs.all isBlank = true) : scalar? start cs = none := by
  have hnone : scalar? (start + width cs) [] = none := rfl
  rw [← hnone, ← scalar?_append h (by simp), List.append_nil]

/-- The text of the scalar in one part of a list. -/
def partText (part : List Char) : Option (List Char) := (scalar? 0 part).map (·.text)

theorem partText_eq (start : Nat) (part : List Char) :
    partText part = (scalar? start part).map (·.text) := by
  rw [partText, ← Nat.zero_add start, scalar?_move, Option.map_map]
  rfl

theorem partText_append (hb : cs.all isBlank = true)
    (hhead : ∀ c, rest.head? = some c → isBlank c = false) :
    partText (cs ++ rest) = partText rest := by
  rw [partText, scalar?_append hb hhead, ← partText_eq]

theorem map_text_partScalars (start : Nat) (parts : List (List Char)) :
    (partScalars start parts).map (·.text) = parts.filterMap partText := by
  induction parts generalizing start with
  | nil => rfl
  | cons part parts ih =>
    rw [partScalars, List.map_append, ih, List.filterMap_cons, partText_eq start part]
    cases scalar? start part <;> rfl

/-! ## Names -/

/-- What a list holds at its ends alone. -/
def brackets : List Char := ['[', ']', '\x7b', '\x7d']

theorem not_bracket_of_isBlank (h : isBlank c = true) : c ∉ brackets := by
  intro hm
  simp only [brackets, List.mem_cons, List.not_mem_nil, or_false] at hm
  rcases hm with rfl | rfl | rfl | rfl <;> cases h

/-- What no written name holds. -/
def reserved : List Char := brackets ++ ['"', '\'', '\\', '\n', '\r']

/-- What a name may hold that stands without quotes. -/
def isWordChar (c : Char) : Bool := !isBlank c && c != ',' && c != '#'

/-- A name in a list, with the blanks around it. Between quotes it may hold blanks, commas and the
marks of comments; without them it is one word. -/
structure WrittenName where
  name : List Char
  quote : Option Char
  before : List Char
  after : List Char
  unreserved : name.all (!reserved.contains ·) = true
  quote_eq : ∀ q ∈ quote, q = '"' ∨ q = '\''
  word : quote = none → name ≠ [] ∧ name.all isWordChar = true
  before_blank : before.all isBlank = true
  after_blank : after.all isBlank = true

namespace WrittenName

def text (i : WrittenName) : List Char :=
  i.before ++ (i.quote.toList ++ (i.name ++ (i.quote.toList ++ i.after)))

/-- The names that are read from where this name stands. -/
def found (i : WrittenName) : List (List Char) := (splitOn ',' i.text).filterMap partText

variable {i : WrittenName}

theorem not_mem_reserved (h : c ∈ i.name) : c ∉ reserved := by
  simpa using List.all_eq_true.1 i.unreserved c h

theorem wordChar_of_mem (hquote : i.quote = none) (h : c ∈ i.name) :
    isBlank c = false ∧ c ≠ ',' ∧ c ≠ '#' := by
  simpa [isWordChar, and_assoc] using List.all_eq_true.1 (i.word hquote).2 c h

theorem quote_not_mem (i : WrittenName) (h : q = '"' ∨ q = '\'') : q ∉ i.name := by
  intro hm
  refine not_mem_reserved hm ?_
  rcases h with rfl | rfl <;> decide

theorem mem_text (h : c ∈ i.text) : isBlank c = true ∨ (c = '"' ∨ c = '\'') ∨ c ∈ i.name := by
  have hquote (hm : c ∈ i.quote.toList) : c = '"' ∨ c = '\'' := i.quote_eq c (by simpa using hm)
  simp only [text, List.mem_append] at h
  rcases h with h | h | h | h | h
  · exact .inl (List.all_eq_true.1 i.before_blank c h)
  · exact .inr (.inl (hquote h))
  · exact .inr (.inr h)
  · exact .inr (.inl (hquote h))
  · exact .inl (List.all_eq_true.1 i.after_blank c h)

theorem not_bracket_of_mem_text (h : c ∈ i.text) : c ∉ brackets := by
  rcases mem_text h with hc | hc | hc
  · exact not_bracket_of_isBlank hc
  · rcases hc with rfl | rfl <;> decide
  · exact fun hm => not_mem_reserved hc (List.mem_append_left _ hm)

theorem text_of_quote (h : i.quote = some q) :
    i.text = i.before ++ q :: (i.name ++ q :: i.after) := by
  rw [text, h]
  rfl

/-- A comment can be opened inside of the name alone: around it stand blanks and quotes. -/
theorem mark_infix_text (hb : isBlank b = true) :
    [b, '#'] <:+: i.text ↔ [b, '#'] <:+: i.name := by
  constructor
  · intro h
    cases hquote : i.quote with
    | none =>
      have hm : '#' ∈ i.text := h.subset (by simp)
      rcases mem_text hm with hm | hm | hm
      · cases hm
      · exact absurd hm (by decide)
      · exact absurd rfl (wordChar_of_mem hquote hm).2.2
    | some q =>
      have hopens := quote_opens (i.quote_eq q hquote)
      rw [text_of_quote hquote] at h
      rcases mark_infix_cons hb hopens h with h | h
      · exact absurd h (not_mark_of_not_mem (not_mem_of_blanks i.before_blank rfl) b)
      · rcases mark_infix_cons hb hopens h with h | h
        · exact h
        · exact absurd h (not_mark_of_not_mem (not_mem_of_blanks i.after_blank rfl) b)
  · intro h
    exact h.trans ⟨i.before ++ i.quote.toList, i.quote.toList ++ i.after, by simp [text]⟩

theorem partText_plain (h : i.quote = none) : partText i.text = some i.name := by
  have hne := (i.word h).1
  have hhead (c : Char) (hc : i.name.head? = some c) :
      isBlank c = false ∧ c ≠ '#' ∧ c ≠ '"' ∧ c ≠ '\'' := by
    have hm := List.mem_of_mem_head? hc
    obtain ⟨hblank, -, hmark⟩ := wordChar_of_mem h hm
    refine ⟨hblank, hmark, ?_, ?_⟩ <;> intro hquote
    · exact i.quote_not_mem (.inl hquote) hm
    · exact i.quote_not_mem (.inr hquote) hm
  have hlast (c : Char) (hc : i.name.getLast? = some c) : isBlank c = false :=
    (wordChar_of_mem h (List.mem_of_getLast? hc)).1
  have hmark (b : Char) : ¬ [b, '#'] <:+: i.name :=
    not_mark_of_not_mem (fun hm => (wordChar_of_mem h hm).2.2 rfl) b
  have htrim : trimEnd (beforeComment (i.name ++ i.after)) = i.name := by
    rw [beforeComment_append hlast (hmark ' ') (.inr (hmark '\t'))]
    exact trimEnd_append_of_isBlank (beforeComment_blanks i.after_blank) hlast
  have htext : i.text = i.before ++ (i.name ++ i.after) := by
    rw [text, h]
    rfl
  have hstart (c : Char) (hc : (i.name ++ i.after).head? = some c) : isBlank c = false := by
    rw [List.head?_append_of_ne_nil _ hne] at hc
    exact (hhead c hc).1
  rw [htext, partText_append i.before_blank hstart, partText, scalar?_plain hne hhead htrim]
  rfl

theorem partText_quoted (h : i.quote = some q) : partText i.text = some i.name := by
  have hq := i.quote_eq q h
  have hstart (c : Char) (hc : (q :: (i.name ++ q :: i.after)).head? = some c) :
      isBlank c = false := by
    obtain rfl : q = c := Option.some.inj hc
    exact (quote_opens hq).1
  rw [text_of_quote h, partText_append i.before_blank hstart, partText,
    scalar?_quoted hq (i.quote_not_mem hq)]
  rfl

/-- A name without a comma is read back. -/
theorem found_of_not_mem (h : ',' ∉ i.name) : i.found = [i.name] := by
  have hcomma : ',' ∉ i.text := by
    intro hm
    rcases mem_text hm with hm | hm | hm
    · cases hm
    · exact absurd hm (by decide)
    · exact h hm
  have hpart : partText i.text = some i.name := by
    cases hquote : i.quote with
    | none => exact partText_plain hquote
    | some q => exact partText_quoted hquote
  rw [found, splitOn_of_not_mem hcomma, List.filterMap_cons, hpart]
  rfl

/-- Where a name holds a comma, its opening quote is read as a part of a name. -/
theorem quote_mem_found (h : ',' ∈ i.name) :
    ∃ t ∈ i.found, ∃ q, (q = '"' ∨ q = '\'') ∧ q ∈ t := by
  cases hquote : i.quote with
  | none => exact absurd rfl (wordChar_of_mem hquote h).2.1
  | some q =>
    have hq := i.quote_eq q hquote
    obtain ⟨hblank, hmark⟩ := quote_opens hq
    obtain ⟨xs, ys, hname, hcomma⟩ := List.eq_append_cons_of_mem h
    have htext : i.text = (i.before ++ q :: xs) ++ ',' :: (ys ++ q :: i.after) := by
      rw [text_of_quote hquote, hname]
      simp
    have hfirst : ',' ∉ i.before ++ q :: xs := by
      simp only [List.mem_append, List.mem_cons, not_or]
      refine ⟨not_mem_of_blanks i.before_blank rfl, ?_, hcomma⟩
      rcases hq with rfl | rfl <;> decide
    have hopen : quotedBody (q :: xs) = none := by
      rw [quotedBody, if_neg]
      intro hclosed
      refine i.quote_not_mem hq ?_
      rw [hname]
      exact List.mem_append_left _ hclosed.2
    have hpart : partText (i.before ++ q :: xs) = some (q :: trimEnd (beforeComment xs)) := by
      have hstart (c : Char) (hc : (q :: xs).head? = some c) : isBlank c = false := by
        obtain rfl : q = c := Option.some.inj hc
        exact hblank
      rw [partText_append i.before_blank hstart, partText, scalar?_cons hblank hmark hopen]
      rfl
    refine ⟨q :: trimEnd (beforeComment xs), ?_, q, hq, List.mem_cons_self⟩
    rw [found, htext, splitOn_append hfirst, List.filterMap_cons, hpart]
    exact List.mem_cons_self

end WrittenName

/-! ## What stands between the brackets -/

/-- The names one behind the other; between empty brackets stands `gap`. -/
def innerText (gap : List Char) : List WrittenName → List Char
  | [] => gap
  | [i] => i.text
  | i :: is => i.text ++ ',' :: innerText gap is

variable {gap : List Char} {items : List WrittenName}

theorem not_bracket_of_mem_innerText (hgap : gap.all isBlank = true) (h : c ∈ innerText gap items) :
    c ∉ brackets := by
  fun_induction innerText gap items with
  | case1 => exact not_bracket_of_isBlank (List.all_eq_true.1 hgap c h)
  | case2 i => exact WrittenName.not_bracket_of_mem_text h
  | case3 i is _ ih =>
    rcases List.mem_append.1 h with h | h
    · exact WrittenName.not_bracket_of_mem_text h
    · rcases List.mem_cons.1 h with rfl | h
      · decide
      · exact ih h

theorem mark_infix_innerText (hgap : gap.all isBlank = true) (hb : isBlank b = true) :
    [b, '#'] <:+: innerText gap items ↔ ∃ i ∈ items, [b, '#'] <:+: i.name := by
  fun_induction innerText gap items with
  | case1 =>
    have hmark : '#' ∉ gap := not_mem_of_blanks hgap rfl
    simpa using not_mark_of_not_mem hmark b
  | case2 i => simpa using WrittenName.mark_infix_text hb
  | case3 i is _ ih =>
    rw [List.exists_mem_cons_iff, ← ih, ← WrittenName.mark_infix_text hb]
    constructor
    · exact mark_infix_cons hb (by decide)
    · intro h
      rcases h with h | h
      · exact h.trans (List.prefix_append _ _).isInfix
      · exact h.trans ⟨i.text ++ [','], [], by simp⟩

/-- The names that are read: those of each name for itself. -/
theorem filterMap_splitOn_innerText (hgap : gap.all isBlank = true) :
    (splitOn ',' (innerText gap items)).filterMap partText = items.flatMap WrittenName.found := by
  fun_induction innerText gap items with
  | case1 =>
    rw [splitOn_of_not_mem (not_mem_of_blanks hgap rfl), List.filterMap_cons, partText,
      scalar?_blanks hgap]
    rfl
  | case2 i => simp [WrittenName.found]
  | case3 i is _ ih =>
    rw [splitOn_append_cons, List.filterMap_append, ih, List.flatMap_cons]
    rfl

/-! ## Lines -/

/-- A text with a colon behind it. -/
def keyLine (head : List Char) : Line := ⟨head ++ [':'], .none⟩

/-- With a colon behind it the text is read as a key, up to that colon. -/
def EndsKey (head : List Char) : Prop :=
  (keyLine head).key.isSome ∧
    (key? (keyLine head).indent (keyLine head).body).map (·.after) = some []

instance (head : List Char) : Decidable (EndsKey head) := inferInstanceAs (Decidable (_ ∧ _))

/-- Whatever stands behind the colon is read as the value. -/
theorem EndsKey.kind (h : EndsKey head) (hafter : separates after = true) (t : Terminator) :
    ∃ key, (⟨head ++ ':' :: after, t⟩ : Line).kind =
      .entry key (scalar? (width head + 1) after) := by
  obtain ⟨hkey, hend⟩ := h
  obtain ⟨key, hkey⟩ := Option.isSome_iff_exists.1 hkey
  obtain ⟨value, hkind⟩ := Line.kind_of_key hkey
  obtain ⟨cut, hcut, hopen, -, -⟩ := Line.key?_of_kind hkind
  obtain ⟨before, colon, hsits⟩ := key?_sits hcut
  have hnil : cut.after = [] := by
    rw [hcut] at hend
    exact Option.some.inj hend
  have hhead : head ++ [':'] = (keyLine head).spaces ++ (before ++ cut.key.text ++ colon) := by
    have hcontent := (keyLine head).content_eq
    rwa [hsits.text_eq, hnil, List.append_nil] at hcontent
  have hwidth : (keyLine head).indent + width (before ++ cut.key.text ++ colon) = width head + 1 := by
    rw [← Line.width_spaces_eq, ← width_append, ← hhead, width_append]
    rfl
  have hcontent : (⟨head ++ ':' :: after, t⟩ : Line).content =
      (keyLine head).spaces ++ (before ++ cut.key.text ++ colon ++ after) := by
    rw [← List.append_assoc, ← hhead]
    simp
  obtain ⟨-, hentry⟩ := Line.kind_of_sits hsits hopen (.inl rfl) hafter hcontent
  rw [hwidth] at hentry
  exact ⟨_, hentry⟩

/-- A list written on one line behind a key, and the comment that may follow it. -/
structure WrittenList where
  head : List Char
  pad : List Char
  gap : List Char
  items : List WrittenName
  blanks : List Char
  comment : Option (List Char)
  head_endsKey : EndsKey head
  pad_separates : pad.head? = some ' ' ∨ pad.head? = some '\t'
  pad_blank : pad.all isBlank = true
  gap_blank : gap.all isBlank = true
  blanks_blank : blanks.all isBlank = true

namespace WrittenList

variable {w : WrittenList} {t : Terminator}

/-- What stands between the brackets. -/
def inner (w : WrittenList) : List Char := innerText w.gap w.items

/-- What stands behind the list. -/
def tail (w : WrittenList) : List Char :=
  match w.comment with
  | none => w.blanks
  | some comment => w.blanks ++ ' ' :: '#' :: comment

def text (w : WrittenList) : List Char :=
  w.head ++ ':' :: (w.pad ++ '[' :: (w.inner ++ ']' :: w.tail))

def line (w : WrittenList) (t : Terminator) : Line := ⟨w.text, t⟩

/-- No name holds what is taken for the mark of a comment. A mark behind a tab is not looked for
where the line ends in a comment. -/
def Uncut (w : WrittenList) : Prop :=
  ¬ [' ', '#'] <:+: w.inner ∧ (w.comment = none → ¬ ['\t', '#'] <:+: w.inner)

theorem uncut_iff : w.Uncut ↔ ∀ i ∈ w.items, ¬ [' ', '#'] <:+: i.name ∧
    (w.comment = none → ¬ ['\t', '#'] <:+: i.name) := by
  rw [Uncut, inner, mark_infix_innerText w.gap_blank rfl, mark_infix_innerText w.gap_blank rfl]
  constructor
  · intro h i hi
    exact ⟨fun hm => h.1 ⟨i, hi, hm⟩, fun hnone hm => h.2 hnone ⟨i, hi, hm⟩⟩
  · intro h
    exact ⟨fun ⟨i, hi, hm⟩ => (h i hi).1 hm, fun hnone ⟨i, hi, hm⟩ => (h i hi).2 hnone hm⟩

theorem value_eq (w : WrittenList) (t : Terminator) :
    (w.line t).value = some ⟨width w.head + 1 + width w.pad,
      '[' :: trimEnd (beforeComment (w.inner ++ ']' :: w.tail))⟩ := by
  have hseparates : separates (w.pad ++ '[' :: (w.inner ++ ']' :: w.tail)) = true := by
    rcases w.pad_separates with h | h <;> obtain ⟨more, hpad⟩ := List.head?_eq_some_iff.1 h <;>
      rw [hpad] <;> rfl
  obtain ⟨key, hkind⟩ := w.head_endsKey.kind hseparates t
  have hscalar : scalar? (width w.head + 1) (w.pad ++ '[' :: (w.inner ++ ']' :: w.tail)) =
      some ⟨width w.head + 1 + width w.pad,
        '[' :: trimEnd (beforeComment (w.inner ++ ']' :: w.tail))⟩ := by
    have hstart (c : Char) (hc : ('[' :: (w.inner ++ ']' :: w.tail)).head? = some c) :
        isBlank c = false := by
      obtain rfl := Option.some.inj hc
      rfl
    rw [scalar?_append w.pad_blank hstart]
    exact scalar?_cons rfl (by decide) (quotedBody_of_ne (by decide))
  rw [hscalar] at hkind
  unfold Line.value line text
  rw [hkind]

theorem bracket_not_mem_inner (w : WrittenList) : ']' ∉ w.inner := fun hm =>
  not_bracket_of_mem_innerText w.gap_blank hm (by decide)

theorem beforeComment_tail (w : WrittenList) : (beforeComment w.tail).all isBlank = true := by
  unfold tail
  split
  · exact beforeComment_blanks w.blanks_blank
  next comment _ => exact beforeComment_blanks_mark w.blanks_blank comment

/-- The value ends in the closing bracket. -/
theorem value_of_uncut (h : w.Uncut) :
    trimEnd (beforeComment (w.inner ++ ']' :: w.tail)) = w.inner ++ [']'] := by
  have hlast (c : Char) (hc : (w.inner ++ [']']).getLast? = some c) : isBlank c = false := by
    rw [List.getLast?_concat] at hc
    obtain rfl := Option.some.inj hc
    rfl
  have hmark {b : Char} (hb : isBlank b = true) (hm : [b, '#'] <:+: w.inner ++ [']']) :
      [b, '#'] <:+: w.inner := by
    rcases mark_infix_cons hb (by decide) hm with hm | hm
    · exact hm
    · exact absurd hm (by simp)
  have htab : [' ', '#'] <:+: w.tail ∨ ¬ ['\t', '#'] <:+: w.inner ++ [']'] := by
    unfold tail
    split
    next hnone => exact .inr fun hm => h.2 hnone (hmark rfl hm)
    next comment _ => exact .inl ⟨w.blanks, comment, by simp⟩
  rw [List.append_cons, beforeComment_append hlast (fun hm => h.1 (hmark rfl hm)) htab]
  exact trimEnd_append_of_isBlank w.beforeComment_tail hlast

theorem flowItems_of_uncut (h : w.Uncut) : ∃ start,
    (w.line t).flowItems = some (partScalars start (splitOn ',' w.inner)) := by
  have hbody : listBody ('[' :: trimEnd (beforeComment (w.inner ++ ']' :: w.tail))) =
      some w.inner := by
    rw [value_of_uncut h]
    exact listBody_of_brackets fun c hc => not_bracket_of_mem_innerText w.gap_blank hc
  exact ⟨_, Line.flowItems_of_value (w.value_eq t) hbody⟩

/-- A mark inside of the brackets cuts the closing one off. -/
theorem bracket_not_mem_of_mark (hmark : [b, '#'] <:+: w.inner)
    (hnot : ¬ [b, '#'] <:+: beforeComment (w.inner ++ ']' :: w.tail)) :
    ']' ∉ beforeComment (w.inner ++ ']' :: w.tail) := by
  obtain ⟨xs, rest, hinner⟩ := hmark
  have hwhole : w.inner ++ ']' :: w.tail = xs ++ b :: '#' :: (rest ++ ']' :: w.tail) := by
    rw [← hinner]
    simp
  obtain ⟨more, hmore⟩ := beforeComment_prefix_self (w.inner ++ ']' :: w.tail)
  have hwithin := prefix_of_mark ⟨more, hmore.trans hwhole⟩ hnot
  intro hm
  refine w.bracket_not_mem_inner ?_
  rw [← hinner, List.append_cons]
  exact List.mem_append_left _ (List.mem_append_left _ (hwithin.subset hm))

theorem bracket_not_mem_of_not_uncut (h : ¬ w.Uncut) :
    ']' ∉ beforeComment (w.inner ++ ']' :: w.tail) := by
  by_cases hspace : [' ', '#'] <:+: w.inner
  · exact bracket_not_mem_of_mark hspace (not_space_mark_beforeComment _)
  · obtain ⟨hnone, htab⟩ : w.comment = none ∧ ['\t', '#'] <:+: w.inner := by
      unfold Uncut at h
      tauto
    have htail : '#' ∉ w.tail := by
      rw [tail, hnone]
      exact not_mem_of_blanks w.blanks_blank rfl
    refine bracket_not_mem_of_mark htab (not_tab_mark_beforeComment fun hm => ?_)
    rcases mark_infix_cons rfl (by decide) hm with hm | hm
    · exact hspace hm
    · exact not_mark_of_not_mem htail ' ' hm

theorem flowItems_of_not_uncut (h : ¬ w.Uncut) : (w.line t).flowItems = none := by
  rw [Option.eq_none_iff_forall_ne_some]
  intro found hfound
  obtain ⟨v, body, hv, hbody, -⟩ := Line.flowItems_some hfound
  rw [w.value_eq t] at hv
  obtain rfl := Option.some.inj hv
  obtain ⟨htext, -⟩ := listBody_some hbody
  obtain ⟨blanks, hblanks, -⟩ := trimEnd_append_blanks (beforeComment (w.inner ++ ']' :: w.tail))
  refine bracket_not_mem_of_not_uncut h ?_
  rw [hblanks, (List.cons.inj htext).2]
  simp

/-- What is read is what was written exactly when no comma stands in a name. -/
theorem found_eq_names_iff (w : WrittenList) :
    w.items.flatMap WrittenName.found = w.items.map (·.name) ↔ ∀ i ∈ w.items, ',' ∉ i.name := by
  constructor
  · intro h i hi hcomma
    obtain ⟨text, htext, q, hq, hmem⟩ := WrittenName.quote_mem_found hcomma
    have hfound : text ∈ w.items.flatMap WrittenName.found := List.mem_flatMap.2 ⟨i, hi, htext⟩
    rw [h] at hfound
    obtain ⟨j, -, rfl⟩ := List.mem_map.1 hfound
    exact j.quote_not_mem hq hmem
  · intro h
    rw [List.map_eq_flatMap]
    exact List.flatMap_congr fun i hi => WrittenName.found_of_not_mem (h i hi)

/-- **A list of names written on one line is read back name for name** exactly when no name holds a
comma or what is taken for the mark of a comment. Whatever is read stands in the line. -/
theorem flowItems_written (w : WrittenList) (t : Terminator) :
    (((w.line t).flowItems.map fun found => found.map (·.text)) = some (w.items.map (·.name)) ↔
      ∀ i ∈ w.items, ',' ∉ i.name ∧ ¬ [' ', '#'] <:+: i.name ∧
        (w.comment = none → ¬ ['\t', '#'] <:+: i.name)) ∧
    ∀ found, (w.line t).flowItems = some found → ∀ p ∈ found, p.StandsIn w.text := by
  refine ⟨?_, fun found hfound p hp => Line.item_standsIn hfound hp⟩
  rw [forall₂_and, ← uncut_iff, ← w.found_eq_names_iff]
  by_cases h : w.Uncut
  · obtain ⟨start, hitems⟩ := flowItems_of_uncut (t := t) h
    rw [hitems, Option.map_some, map_text_partScalars, inner,
      filterMap_splitOn_innerText w.gap_blank, Option.some.injEq]
    exact (and_iff_left h).symm
  · rw [flowItems_of_not_uncut h, Option.map_none]
    exact iff_of_false (by simp) fun hread => h hread.2

/-- `    slots: [id , "full name"] # refs` -/
def idAndFullName : WrittenList where
  head := "    slots".toList
  pad := " ".toList
  gap := []
  items := [
    { name := "id".toList, quote := none, before := [], after := " ".toList,
      unreserved := rfl, quote_eq := by simp, word := fun _ => by decide,
      before_blank := rfl, after_blank := rfl },
    { name := "full name".toList, quote := some '"', before := " ".toList, after := [],
      unreserved := rfl, quote_eq := by simp, word := by simp,
      before_blank := rfl, after_blank := rfl }]
  blanks := []
  comment := some " refs".toList
  head_endsKey := by decide +kernel
  pad_separates := .inl rfl
  pad_blank := rfl
  gap_blank := rfl
  blanks_blank := rfl

/-- A blank in a quoted name does no harm. -/
theorem flowItems_written_id_and_full_name :
    idAndFullName.text = "    slots: [id , \"full name\"] # refs".toList ∧
    ((idAndFullName.line .lf).flowItems.map fun found => found.map (·.text)) =
      some ["id".toList, "full name".toList] ∧
    ∀ p ∈ ((idAndFullName.line .lf).flowItems.getD []), p.StandsIn idAndFullName.text := by
  obtain ⟨hread, hstands⟩ := flowItems_written idAndFullName .lf
  have hnames := hread.2 (by decide +kernel)
  refine ⟨by decide +kernel, hnames, ?_⟩
  obtain ⟨found, hfound, -⟩ := Option.map_eq_some_iff.1 hnames
  rw [hfound]
  exact hstands found hfound

/-- `    slots: ["a, b", c]` -/
def commaName : WrittenList where
  head := "    slots".toList
  pad := " ".toList
  gap := []
  items := [
    { name := "a, b".toList, quote := some '"', before := [], after := [],
      unreserved := rfl, quote_eq := by simp, word := by simp,
      before_blank := rfl, after_blank := rfl },
    { name := "c".toList, quote := none, before := " ".toList, after := [],
      unreserved := rfl, quote_eq := by simp, word := fun _ => by decide,
      before_blank := rfl, after_blank := rfl }]
  blanks := []
  comment := none
  head_endsKey := by decide +kernel
  pad_separates := .inl rfl
  pad_blank := rfl
  gap_blank := rfl
  blanks_blank := rfl

/-- A comma in a quoted name cuts it in two, each part with one of the quotes. -/
theorem flowItems_split_at_quoted_comma :
    commaName.text = "    slots: [\"a, b\", c]".toList ∧
    commaName.items.map (·.name) = ["a, b".toList, "c".toList] ∧
    ((commaName.line .lf).flowItems.map fun found => found.map (·.text)) =
      some ["\"a".toList, "b\"".toList, "c".toList] := by
  decide +kernel

end WrittenList

end SchemaTidy.Source
