import SchemaTidy.Proofs.Dedupe.Spacing
import SchemaTidy.Proofs.Schema.BlockSchema

/-! # Block style, read line by line

What the lines of a text in block style are read as, one by one: the keys and dashes of a block
stand at its column, whatever is inside of it deeper, and a list on one line is cut into the names
that are in it. -/

namespace SchemaTidy.Source
open Text Yaml
open Yaml.Lexer (isBlankText isBlankText_cases LineEnd)

variable {l : Line} {n start : Nat} {cs name value tail : List Char} {v : Option Leaf}
  {below after : List Line}

/-! ## Lines without structure -/

theorem Line.not_isSignificant_of_blankText (h : isBlankText l.content = true) :
    l.isSignificant = false := by
  obtain ⟨content, terminator⟩ := l
  obtain ⟨n, rest, heq, hrest⟩ := isBlankText_cases h
  obtain rfl : content = List.replicate n ' ' ++ rest := heq
  have hspaces : ∀ c ∈ List.replicate n ' ', c = ' ' := fun c hc => (List.mem_replicate.1 hc).2
  rcases hrest with rfl | ⟨body, rfl, -⟩
  · rw [List.append_nil]
    exact Line.not_isSignificant_of_spaces hspaces terminator
  · exact Line.not_isSignificant_of_comment hspaces body terminator

/-! ## Values -/

/-- Before a trailing comment, and in a line that has none, only blanks are left. -/
theorem beforeComment_blankText (h : isBlankText tail = true) (happart : tail.head? ≠ some '#') :
    (beforeComment tail).all isBlank = true := by
  obtain ⟨n, rest, rfl, hrest⟩ := isBlankText_cases h
  have hblank (n : Nat) : (List.replicate n ' ').all isBlank = true :=
    List.all_eq_true.2 fun c hc => by rw [(List.mem_replicate.1 hc).2]; rfl
  rcases hrest with rfl | ⟨body, rfl, -⟩
  · rw [List.append_nil]
    exact beforeComment_blanks (hblank n)
  · cases n with
    | zero => exact absurd rfl happart
    | succ n =>
      rw [List.replicate_succ', List.append_assoc]
      exact beforeComment_blanks_mark (hblank n) body

/-- A value with no mark of a comment in it is found, whatever stands around it. -/
theorem scalar?_value (hne : value ≠ [])
    (hhead : ∀ c, value.head? = some c → isBlank c = false ∧ c ≠ '#' ∧ c ≠ '"' ∧ c ≠ '\'')
    (hlast : ∀ c, value.getLast? = some c → isBlank c = false) (hmark : '#' ∉ value)
    (hblank : isBlankText tail = true) (happart : tail.head? ≠ some '#') (start n : Nat) :
    scalar? start (List.replicate n ' ' ++ (value ++ tail)) =
      some ⟨start + width (List.replicate n ' '), value⟩ := by
  have hnone : ∀ b, ¬ [b, '#'] <:+: value := fun b h => hmark (h.subset (by simp))
  have hhead' : ∀ c, (value ++ tail).head? = some c → isBlank c = false := by
    obtain ⟨d, ds, rfl⟩ := List.exists_cons_of_ne_nil hne
    intro c hc
    exact (hhead c hc).1
  have hspaces : (List.replicate n ' ').all isBlank = true :=
    List.all_eq_true.2 fun c hc => by rw [(List.mem_replicate.1 hc).2]; rfl
  rw [scalar?_append hspaces hhead']
  refine scalar?_plain hne hhead ?_
  rw [beforeComment_append hlast (hnone ' ') (.inr (hnone '\t'))]
  exact trimEnd_append_of_isBlank (beforeComment_blankText hblank happart) hlast

theorem scalar?_name (hname : IsName name) (hblank : isBlankText tail = true)
    (happart : tail.head? ≠ some '#') (start n : Nat) :
    scalar? start (List.replicate n ' ' ++ (name ++ tail)) =
      some ⟨start + width (List.replicate n ' '), name⟩ :=
  have hfits := fits_of_isName hname []
  scalar?_value hname.1 hfits.head hfits.last (hname.not_mem (by decide)) hblank happart start n

/-- Where nothing stands but a comment, there is no value. -/
theorem scalar?_blankText (hblank : isBlankText tail = true) (start : Nat) :
    scalar? start tail = none := by
  obtain ⟨n, rest, rfl, hrest⟩ := isBlankText_cases hblank
  have hspaces : (List.replicate n ' ').all isBlank = true :=
    List.all_eq_true.2 fun c hc => by rw [(List.mem_replicate.1 hc).2]; rfl
  rcases hrest with rfl | ⟨body, rfl, -⟩
  · rw [scalar?_append hspaces (by simp)]
    rfl
  · rw [scalar?_append hspaces (by rintro c ⟨⟩; rfl)]
    rfl

/-! ## Lists on one line -/

theorem mem_flowItem {i : FlowItem} {c : Char} (h : c ∈ i.text) : c = ' ' ∨ c ∈ i.words.text := by
  simp only [FlowItem.text, List.mem_append, List.mem_replicate] at h
  tauto

/-- The list holds only names, commas and spaces. -/
theorem mem_flowItems {items : FlowItems} (hnames : ∀ w ∈ items.words, IsName w.text) {c : Char}
    (h : c ∈ items.text) : c = ' ' ∨ c = ',' ∨ isNameChar c = true := by
  induction items with
  | none n => exact .inl (List.mem_replicate.1 h).2
  | last i =>
    rcases mem_flowItem h with h | h
    · exact .inl h
    · exact .inr (.inr ((hnames _ List.mem_cons_self).2 c h))
  | cons i more ih =>
    obtain ⟨hi, hmore⟩ := List.forall_mem_cons.1 hnames
    rcases List.mem_append.1 h with h | h
    · rcases mem_flowItem h with h | h
      · exact .inl h
      · exact .inr (.inr (hi.2 c h))
    · rcases List.mem_cons.1 h with h | h
      · exact .inr (.inl h)
      · exact ih hmore h

theorem isBlankText_spaces (n : Nat) : isBlankText (List.replicate n ' ') = true := by
  unfold isBlankText
  rw [List.dropWhile_eq_nil_iff.2 fun c hc => by rw [(List.mem_replicate.1 hc).2]; rfl]

theorem scalar?_flowItem {i : FlowItem} (hname : IsName i.words.text) (start : Nat) :
    ∃ at', scalar? start i.text = some ⟨at', i.words.text⟩ :=
  ⟨_, scalar?_name hname (isBlankText_spaces i.after)
    (by cases i.after <;> simp [List.replicate_succ]) start i.before⟩

/-- The parts of a list are the names in it. -/
theorem partScalars_flowItems {items : FlowItems} (hnames : ∀ w ∈ items.words, IsName w.text)
    (start : Nat) :
    (partScalars start (splitOn ',' items.text)).map (·.text) = items.words.map (·.text) := by
  have hcomma {i : FlowItem} (hi : IsName i.words.text) : ',' ∉ i.text := fun h => by
    rcases mem_flowItem h with h | h
    · cases h
    · exact hi.not_mem (by decide) h
  induction items generalizing start with
  | none n =>
    have hnot : ',' ∉ List.replicate n ' ' := fun h => by cases (List.mem_replicate.1 h).2
    rw [FlowItems.text, splitOn_of_not_mem hnot, partScalars,
      scalar?_blankText (isBlankText_spaces n)]
    rfl
  | last i =>
    have hi := hnames _ List.mem_cons_self
    obtain ⟨at', hscalar⟩ := scalar?_flowItem hi start
    rw [FlowItems.text, splitOn_of_not_mem (hcomma hi), partScalars, hscalar]
    rfl
  | cons i more ih =>
    obtain ⟨hi, hmore⟩ := List.forall_mem_cons.1 hnames
    obtain ⟨at', hscalar⟩ := scalar?_flowItem hi start
    rw [FlowItems.text, splitOn_append (hcomma hi), partScalars, hscalar, List.map_append, ih hmore]
    rfl

/-- A list of names is read as the names. -/
theorem listBody_flowItems {items : FlowItems} (hnames : ∀ w ∈ items.words, IsName w.text) :
    listBody (Inline.list items).text = some items.text := by
  refine listBody_of_brackets fun c hc hm => ?_
  rcases mem_flowItems hnames hc with rfl | rfl | hname
  · exact absurd hm (by decide)
  · exact absurd hm (by decide)
  · exact not_mem_of_isNameChar hname (by decide) hm

theorem listBody_of_name (hname : IsName name) : listBody name = none := by
  obtain ⟨c, cs, rfl, hc⟩ := hname.exists_cons
  unfold listBody
  split
  · rename_i heq
    rw [(List.cons.inj heq).1] at hc
    cases hc
  · rfl

/-! ## Keys and dashes -/

theorem head_of_lineEnd (h : LineEnd tail) : tail = [] ∨ ∃ rest, tail = ' ' :: rest := by
  obtain ⟨n, rest, rfl, hrest⟩ := isBlankText_cases h.blank
  cases n with
  | succ n => exact .inr ⟨_, rfl⟩
  | zero =>
    rcases hrest with rfl | ⟨body, rfl, -⟩
    · exact .inl rfl
    · exact absurd rfl h.apart

theorem head_of_holds (h : Holds n cs below after v) : cs = [] ∨ ∃ rest, cs = ' ' :: rest := by
  cases h with
  | none htail => exact head_of_lineEnd htail
  | inline k => exact .inr ⟨_, rfl⟩
  | text k => exact .inr ⟨_, rfl⟩

theorem separates_of_head (h : cs = [] ∨ ∃ rest, cs = ' ' :: rest) : separates cs = true := by
  rcases h with rfl | ⟨rest, rfl⟩ <;> rfl

/-- A name with a colon at the column of a block is read as a key. -/
theorem Line.kind_of_name (hname : IsName name) (hl : Indented l n (name ++ ':' :: cs))
    (hcs : Source.separates cs = true) :
    l.indent = n ∧ l.kind = .entry ⟨n, name⟩ (scalar? (n + width name + 1) cs) := by
  have hnone : ([] : List Char).all isBlank = true := rfl
  have hsplit : splitColon false (name ++ ':' :: cs) = some (name ++ [], cs) := by
    have hcolon : splitColon false ([] ++ ':' :: cs) = some ([], cs) :=
      splitColon_blanks hnone hcs false
    rw [splitColon_name hname, ← List.nil_append (':' :: cs), hcolon]
    rfl
  have hplain : plainKey? n (name ++ ':' :: cs) =
      some ⟨⟨n, name⟩, n + width name + 1, cs⟩ := by
    rw [plainKey?_of_split hname.1 (fits_of_isName hname []).last hnone hsplit, List.append_nil]
  obtain ⟨c, ds, rfl, hc⟩ := hname.exists_cons
  have hother : ∀ d ∈ [' ', '#', '-', '"', '\''], c ≠ d := by
    rintro d hd rfl
    exact not_mem_of_isNameChar hc (by decide) hd
  obtain ⟨hindent, hbody⟩ := hl.cut (hother ' ' (by decide))
  have hopen : MayOpenKey l.body := by
    rw [Line.body, hbody]
    exact mayOpenKey_of_head ⟨hother ' ' (by decide), hother '#' (by decide), hother '-' (by decide)⟩
  have hkey : Source.key? l.indent l.body = some ⟨⟨n, c :: ds⟩, n + width (c :: ds) + 1, cs⟩ := by
    rw [Line.body, hbody, hindent, ← hplain]
    exact if_neg (not_or.2 ⟨hother '"' (by decide), hother '\'' (by decide)⟩)
  exact ⟨hindent, kind_of_key? hopen hkey⟩

/-- A dash at the column of a block is read as an item. -/
theorem Line.kind_of_dash (hl : Indented l n ('-' :: cs)) (hcs : cs = [] ∨ ∃ rest, cs = ' ' :: rest) :
    l.indent = n ∧ l.kind = .item (scalar? (n + 1) cs) := by
  obtain ⟨hindent, hbody⟩ := hl.cut (by decide)
  refine ⟨hindent, ?_⟩
  rcases hcs with rfl | ⟨rest, rfl⟩
  · simp only [Line.kind, hbody]
    rfl
  · simp only [Line.kind, hbody, hindent]

/-! ## The line of three dashes -/

theorem splitColon_spaces (h : splitColon true value = none) (n : Nat) (gap : Bool) :
    splitColon gap (List.replicate (n + 1) ' ' ++ value) = none := by
  induction n generalizing gap with
  | zero =>
    rw [List.replicate_one, List.singleton_append, splitColon, if_neg (by simp), if_neg (by simp)]
    exact congrArg _ h
  | succ n ih =>
    rw [List.replicate_succ, List.cons_append, splitColon, if_neg (by simp), if_neg (by simp),
      ih (' ' == ' ' || ' ' == '\t')]
    rfl

theorem splitColon_lineEnd (h : LineEnd tail) : splitColon false tail = none := by
  obtain ⟨n, rest, rfl, hrest⟩ := isBlankText_cases h.blank
  cases n with
  | zero =>
    rcases hrest with rfl | ⟨body, rfl, -⟩
    · rfl
    · exact absurd rfl h.apart
  | succ n =>
    refine splitColon_spaces ?_ n false
    rcases hrest with rfl | ⟨body, rfl, -⟩ <;> rfl

/-- Three dashes are no key. -/
theorem Line.key_of_marker (hl : Indented l 0 ('-' :: '-' :: '-' :: tail)) (htail : LineEnd tail) :
    l.key = none := by
  obtain ⟨-, hbody⟩ := hl.cut (by decide)
  have hsplit : splitColon false ('-' :: '-' :: '-' :: tail) = none := by
    simp [splitColon, splitColon_lineEnd htail]
  unfold Line.key
  split
  · rename_i key value hkind
    obtain ⟨cut, hcut, -⟩ := key?_of_kind hkind
    rw [Line.body, hbody] at hcut
    simp [Source.key?, plainKey?, hsplit] at hcut
  · rfl

end SchemaTidy.Source
