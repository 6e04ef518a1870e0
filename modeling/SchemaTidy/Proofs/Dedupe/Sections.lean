import SchemaTidy.Dedupe.Layout
import SchemaTidy.Proofs.Source.FlatList

/-! # Where definitions and references stand

Definitions stand in the slot section and references in the class section, and these share no
line. Both are found from top to bottom; the references of one line stand apart in it, from left
to right. -/

namespace SchemaTidy.Source

/-! ## Sections -/

theorem blockEnd_le {ls : List Line} {header parentIndent j : Nat} {l : Line} (hj : header < j)
    (hl : ls[j]? = some l) (hcloses : l.closes parentIndent = true) :
    blockEnd ls header parentIndent ≤ j := by
  have hdrop : (ls.drop (header + 1))[j - (header + 1)]? = some l := by
    rw [List.getElem?_drop, Nat.add_sub_cancel' hj, hl]
  unfold blockEnd
  split
  · rename_i k hk
    obtain ⟨hkbound, -, hbefore⟩ := List.findIdx?_eq_some_iff_getElem.1 hk
    obtain ⟨hbound, hget⟩ := List.getElem?_eq_some_iff.1 hdrop
    rcases Nat.lt_or_ge (j - (header + 1)) k with hlt | hge
    · exact absurd (by rw [hget]; exact hcloses) (hbefore (j - (header + 1)) hlt)
    · omega
  · rename_i hnone
    have := List.findIdx?_eq_none_iff.1 hnone l (List.mem_of_getElem? hdrop)
    rw [hcloses] at this
    cases this

/-- A section starts behind a header and ends at the next line that closes it. -/
theorem topSection_some {ls : List Line} {name : List Char} {start stop : Nat}
    (h : topSection ls name = some (start, stop)) :
    ∃ header l, start = header + 1 ∧ stop = blockEnd ls header 0 ∧ ls[header]? = some l ∧
      l.indent = 0 ∧ l.hasKey name = true := by
  unfold topSection at h
  obtain ⟨header, hfind, heq⟩ := Option.map_eq_some_iff.1 h
  obtain ⟨rfl, rfl⟩ := Prod.mk.inj heq
  obtain ⟨hbound, hp, -⟩ := List.findIdx?_eq_some_iff_getElem.1 hfind
  rw [Bool.and_eq_true, beq_iff_eq] at hp
  exact ⟨header, ls[header], rfl, rfl, List.getElem?_eq_getElem hbound, hp.1, hp.2⟩

theorem Line.hasKey_iff {l : Line} {name : List Char} :
    l.hasKey name = true ↔ ∃ key, l.key = some key ∧ key.text = name := by
  unfold Line.hasKey
  cases l.key with
  | none => simp
  | some key => simp

theorem Line.not_hasKey_of_item {l : Line} {value : Option Piece} (h : l.kind = .item value)
    (name : List Char) : ¬ l.hasKey name = true := by
  rw [Line.hasKey, Line.key, h]
  exact Bool.false_ne_true

theorem Line.isSignificant_of_key {l : Line} {key : Piece} (h : l.key = some key) :
    l.isSignificant = true := by
  unfold Line.key at h
  unfold Line.isSignificant
  split at h
  · rename_i hkind; rw [hkind]
  · cases h

theorem Line.closes_of_key {l : Line} {key : Piece} {indent : Nat} (h : l.key = some key)
    (hindent : l.indent ≤ indent) : l.closes indent = true := by
  rw [Line.closes, isSignificant_of_key h, Bool.true_and, decide_eq_true hindent]

/-- Sections with different names share no line. -/
theorem topSection_disjoint {ls : List Line} {a b : List Char} {start stop start' stop' i : Nat}
    (hab : a ≠ b) (ha : topSection ls a = some (start, stop))
    (hb : topSection ls b = some (start', stop')) (hi : start ≤ i ∧ i < stop) :
    ¬ (start' ≤ i ∧ i < stop') := by
  obtain ⟨h, l, rfl, rfl, hl, hindent, hkey⟩ := topSection_some ha
  obtain ⟨h', l', rfl, rfl, hl', hindent', hkey'⟩ := topSection_some hb
  obtain ⟨key, hkeyl, rfl⟩ := Line.hasKey_iff.1 hkey
  obtain ⟨key', hkeyl', rfl⟩ := Line.hasKey_iff.1 hkey'
  rcases Nat.lt_trichotomy h h' with hlt | rfl | hlt
  · have := blockEnd_le hlt hl' (Line.closes_of_key hkeyl' hindent'.le)
    omega
  · rw [hl] at hl'
    obtain rfl := Option.some.inj hl'
    rw [hkeyl] at hkeyl'
    exact absurd (congrArg Piece.text (Option.some.inj hkeyl')) hab
  · have := blockEnd_le hlt hl (Line.closes_of_key hkeyl hindent.le)
    omega

theorem mem_sectionLines {ls : List Line} {name : List Char} {l : Line} {i : Nat} :
    (l, i) ∈ sectionLines ls name ↔
      ∃ start stop, topSection ls name = some (start, stop) ∧ start ≤ i ∧ i < stop ∧
        ls[i]? = some l := by
  unfold sectionLines
  split
  · rename_i start stop hsection
    rw [List.mem_iff_getElem?]
    simp only [List.getElem?_take, List.getElem?_drop, List.getElem?_zipIdx, hsection,
      Option.some.injEq, Prod.mk.injEq]
    constructor
    · rintro ⟨k, hk⟩
      split at hk
      · obtain ⟨l', hl', heq⟩ := Option.map_eq_some_iff.1 hk
        obtain ⟨rfl, rfl⟩ := Prod.mk.inj heq
        exact ⟨start, stop, ⟨rfl, rfl⟩, by omega, by omega, by simpa using hl'⟩
      · cases hk
    · rintro ⟨_, _, ⟨rfl, rfl⟩, hstart, hstop, hl⟩
      refine ⟨i - start, ?_⟩
      rw [if_pos (by omega), Nat.add_sub_cancel' hstart, hl]
      simp
  · rename_i hnone
    simp [hnone]

theorem sectionLines_pairwise (ls : List Line) (name : List Char) :
    (sectionLines ls name).Pairwise fun a b => a.2 < b.2 := by
  unfold sectionLines
  split
  · refine (List.Pairwise.drop ?_).take
    rw [← List.pairwise_map, List.zipIdx_map_snd]
    exact List.pairwise_lt_range' ..
  · exact .nil

end SchemaTidy.Source

namespace SchemaTidy.Dedupe
open Source

/-! ## Definitions -/

/-- Line `i` is an entry one level under the first top-level `slots:`, with this key. -/
def DefinesAt (indent : Nat) (ls : List Line) (i : Nat) (key : Piece) : Prop :=
  ∃ start stop l, topSection ls slotsName = some (start, stop) ∧ start ≤ i ∧ i < stop ∧
    ls[i]? = some l ∧ l.indent = indent ∧ l.key = some key

theorem keyAt_eq_some_iff {indent : Nat} {l : Line} {key : Piece} :
    keyAt indent l = some key ↔ l.indent = indent ∧ l.key = some key := by
  unfold keyAt
  split <;> simp_all

theorem definitions_eq (indent : Nat) (ls : List Line) :
    definitions indent ls =
      (sectionLines ls slotsName).filterMap fun a => (keyAt indent a.1).map (⟨a.2, ·⟩) := rfl

theorem mem_definitions_iff {indent : Nat} {ls : List Line} {d : Definition} :
    d ∈ definitions indent ls ↔ DefinesAt indent ls d.line d.key := by
  unfold DefinesAt
  rw [definitions_eq, List.mem_filterMap]
  constructor
  · rintro ⟨⟨l, i⟩, hmem, hd⟩
    obtain ⟨key, hkey, rfl⟩ := Option.map_eq_some_iff.1 hd
    obtain ⟨start, stop, hsection, hstart, hstop, hl⟩ := mem_sectionLines.1 hmem
    exact ⟨start, stop, l, hsection, hstart, hstop, hl, keyAt_eq_some_iff.1 hkey⟩
  · rintro ⟨start, stop, l, hsection, hstart, hstop, hl, hkey⟩
    refine ⟨(l, d.line), mem_sectionLines.2 ⟨start, stop, hsection, hstart, hstop, hl⟩, ?_⟩
    rw [keyAt_eq_some_iff.2 hkey]
    rfl

theorem definitions_pairwise (indent : Nat) (ls : List Line) :
    (definitions indent ls).Pairwise fun a b => a.line < b.line := by
  rw [definitions_eq, List.pairwise_filterMap]
  refine (sectionLines_pairwise ls slotsName).imp ?_
  intro a b hab d hd d' hd'
  obtain ⟨_, -, rfl⟩ := Option.map_eq_some_iff.1 hd
  obtain ⟨_, -, rfl⟩ := Option.map_eq_some_iff.1 hd'
  exact hab

theorem DefinesAt.line {indent i : Nat} {ls : List Line} {key : Piece} {l : Line}
    (h : DefinesAt indent ls i key) (hl : ls[i]? = some l) :
    l.indent = indent ∧ l.key = some key := by
  obtain ⟨_, _, l', -, -, -, hl', hfacts⟩ := h
  rw [hl] at hl'
  exact Option.some.inj hl' ▸ hfacts

theorem DefinesAt.unique {indent i : Nat} {ls : List Line} {key key' : Piece}
    (h : DefinesAt indent ls i key) (h' : DefinesAt indent ls i key') : key = key' := by
  obtain ⟨_, _, l, -, -, -, hl, -, hkey⟩ := h
  have hkey' := (h'.line hl).2
  rw [hkey] at hkey'
  exact Option.some.inj hkey'

/-! ## References -/

/-- A piece of a line that may be collected as a reference: an item of the one-line list of a
`slots` entry, or the value of an item of a block list. -/
inductive ListedIn (indent : Nat) (l : Line) (p : Piece) : Prop where
  | flow (items : List Piece) (hindent : l.indent = indent) (hkey : l.hasKey slotsName = true)
    (hitems : l.flowItems = some items) (hmem : p ∈ items)
  | block (hindent : indent ≤ l.indent) (hkind : l.kind = .item (some p))

theorem ListedIn.standsIn {indent : Nat} {l : Line} {p : Piece} (h : ListedIn indent l p) :
    p.StandsIn l.content := by
  cases h with
  | flow items _ _ hitems hmem => exact Line.item_standsIn hitems hmem
  | block _ hkind => exact Line.value_standsIn (by rw [Line.value, hkind])

/-- References in the order in which they are read. -/
def Reference.Precedes (a b : Reference) : Prop :=
  a.line < b.line ∨ a.line = b.line ∧ a.item.span.stop < b.item.span.start

theorem continuesList_of_hasKey {indent : Nat} {l : Line} {name : List Char}
    (h : l.hasKey name = true) : continuesList indent l = false := by
  obtain ⟨key, hkey, -⟩ := Line.hasKey_iff.1 h
  unfold Line.key at hkey
  unfold continuesList
  split at hkey
  · rename_i hkind; rw [hkind]
  · cases hkey

theorem listedItems_eq (indent : Nat) (body : List (Line × Nat)) :
    listedItems indent body =
      (body.takeWhile fun a => continuesList indent a.1).filterMap fun a =>
        a.1.value.map (⟨a.2, ·⟩) := rfl

theorem mem_listedItems {indent : Nat} {body : List (Line × Nat)} {r : Reference}
    (h : r ∈ listedItems indent body) :
    ∃ l, (l, r.line) ∈ body.takeWhile (fun a => continuesList indent a.1) ∧
      ListedIn indent l r.item := by
  rw [listedItems_eq] at h
  obtain ⟨⟨l, i⟩, hmem, hr⟩ := List.mem_filterMap.1 h
  obtain ⟨p, hvalue, rfl⟩ := Option.map_eq_some_iff.1 hr
  have hcont : continuesList indent l = true :=
    List.mem_takeWhile_imp (p := fun a : Line × Nat => continuesList indent a.1) hmem
  refine ⟨l, hmem, ?_⟩
  unfold continuesList at hcont
  unfold Line.value at hvalue
  split at hcont
  · simp_all
  · simp_all
  · rename_i v hkind
    rw [hkind] at hvalue
    obtain rfl : v = some p := hvalue
    exact .block (by simpa using hcont) hkind
  · cases hcont

theorem mem_referencesIn {indent : Nat} {body : List (Line × Nat)} {r : Reference}
    (h : r ∈ referencesIn indent body) :
    ∃ l, (l, r.line) ∈ body ∧ ListedIn indent l r.item := by
  induction body with
  | nil => cases h
  | cons a rest ih =>
    obtain ⟨l, i⟩ := a
    rw [referencesIn] at h
    rcases List.mem_append.1 h with h | h
    · split at h
      · rename_i hheader
        split at h
        · rename_i items hitems
          obtain ⟨p, hp, rfl⟩ := List.mem_map.1 h
          exact ⟨l, List.mem_cons_self, .flow items hheader.1 hheader.2 hitems hp⟩
        · obtain ⟨l', hl', hlisted⟩ := mem_listedItems h
          exact ⟨l', List.mem_cons_of_mem _ ((List.takeWhile_sublist _).subset hl'), hlisted⟩
      · cases h
    · obtain ⟨l', hl', hlisted⟩ := ih h
      exact ⟨l', List.mem_cons_of_mem _ hl', hlisted⟩

/-- The lines of a block list open no list of their own. -/
theorem referencesIn_dropWhile (indent : Nat) (body : List (Line × Nat)) :
    referencesIn indent (body.dropWhile fun a => continuesList indent a.1) =
      referencesIn indent body := by
  induction body with
  | nil => rfl
  | cons a rest ih =>
    by_cases hcont : continuesList indent a.1 = true
    · have hnot : ¬ (a.1.indent = indent ∧ a.1.hasKey slotsName = true) := by
        intro h
        rw [continuesList_of_hasKey h.2] at hcont
        cases hcont
      rw [List.dropWhile_cons, if_pos hcont, ih, referencesIn, if_neg hnot, List.nil_append]
    · rw [List.dropWhile_cons, if_neg hcont]

theorem pairwise_split {α : Type} {body : List (α × Nat)}
    (h : body.Pairwise fun a b => a.2 < b.2) (p : α × Nat → Bool) :
    ∀ a ∈ body.takeWhile p, ∀ b ∈ body.dropWhile p, a.2 < b.2 := by
  rw [← List.takeWhile_append_dropWhile (p := p) (l := body)] at h
  exact (List.pairwise_append.1 h).2.2

theorem referencesIn_pairwise {indent : Nat} {body : List (Line × Nat)}
    (h : body.Pairwise fun a b => a.2 < b.2) :
    (referencesIn indent body).Pairwise Reference.Precedes := by
  induction body with
  | nil => exact .nil
  | cons a rest ih =>
    obtain ⟨l, i⟩ := a
    obtain ⟨hi, hrest⟩ := List.pairwise_cons.1 h
    rw [referencesIn, List.pairwise_append]
    refine ⟨?_, ih hrest, fun r hr r' hr' => .inl ?_⟩
    · split
      · split
        · rename_i items hitems
          refine List.pairwise_map.2 ((Line.flowItems_pairwise hitems).imp ?_)
          intro p q hpq
          exact .inr ⟨rfl, hpq⟩
        · rw [listedItems_eq, List.pairwise_filterMap]
          refine (hrest.sublist (List.takeWhile_sublist _)).imp fun {a b} hab r hr r' hr' => .inl ?_
          obtain ⟨_, -, rfl⟩ := Option.map_eq_some_iff.1 hr
          obtain ⟨_, -, rfl⟩ := Option.map_eq_some_iff.1 hr'
          exact hab
      · exact .nil
    · split at hr
      · split at hr
        · obtain ⟨p, -, rfl⟩ := List.mem_map.1 hr
          obtain ⟨l', hl', -⟩ := mem_referencesIn hr'
          exact hi _ hl'
        · obtain ⟨m, hm, -⟩ := mem_listedItems hr
          rw [← referencesIn_dropWhile] at hr'
          obtain ⟨l', hl', -⟩ := mem_referencesIn hr'
          exact pairwise_split hrest _ _ hm _ hl'
      · cases hr

/-! ## Class blocks -/

/-- The body of a class block, among the lines after its header. -/
def bodyOf (indent : Nat) (lines : List (Line × Nat)) : List (Line × Nat) :=
  lines.takeWhile fun a => !a.1.closes indent

theorem blocksIn_cons (indent : Nat) (a : Line × Nat) (rest : List (Line × Nat)) :
    blocksIn indent (a :: rest) =
      match keyAt indent a.1 with
      | some key =>
        ⟨a.2, key.text, referencesIn (2 * indent) (bodyOf indent rest)⟩ :: blocksIn indent rest
      | none => blocksIn indent rest := rfl

/-- The lines of a body open no block of their own. -/
theorem blocksIn_dropWhile (indent : Nat) (lines : List (Line × Nat)) :
    blocksIn indent (lines.dropWhile fun a => !a.1.closes indent) = blocksIn indent lines := by
  induction lines with
  | nil => rfl
  | cons a rest ih =>
    by_cases hcloses : a.1.closes indent = true
    · rw [List.dropWhile_cons_of_neg (by simpa using hcloses)]
    · have hnone : keyAt indent a.1 = none := by
        cases hkey : keyAt indent a.1 with
        | none => rfl
        | some key =>
          obtain ⟨hindent, hkey⟩ := keyAt_eq_some_iff.1 hkey
          exact absurd (Line.closes_of_key hkey hindent.le) hcloses
      rw [List.dropWhile_cons_of_pos (by simpa using hcloses), ih, blocksIn_cons, hnone]

theorem mem_blocksIn {indent : Nat} {lines : List (Line × Nat)} {c : ClassBlock}
    (h : c ∈ blocksIn indent lines) :
    ∃ l key rest, (l, c.header) :: rest <:+ lines ∧ keyAt indent l = some key ∧
      c.name = key.text ∧ c.references = referencesIn (2 * indent) (bodyOf indent rest) := by
  induction lines with
  | nil => cases h
  | cons a rest ih =>
    rw [blocksIn_cons] at h
    cases hkey : keyAt indent a.1 with
    | none =>
      rw [hkey] at h
      obtain ⟨l, key, rest', hsuffix, hfacts⟩ := ih h
      exact ⟨l, key, rest', hsuffix.trans (List.suffix_cons a rest), hfacts⟩
    | some key =>
      rw [hkey] at h
      rcases List.mem_cons.1 h with rfl | h
      · exact ⟨a.1, key, rest, List.suffix_rfl, hkey, rfl, rfl⟩
      · obtain ⟨l, key, rest', hsuffix, hfacts⟩ := ih h
        exact ⟨l, key, rest', hsuffix.trans (List.suffix_cons a rest), hfacts⟩

/-- References stand in lines of their section, deeper than the headers of the blocks. -/
theorem listedIn_of_mem_blocksIn {indent : Nat} {lines : List (Line × Nat)} {c : ClassBlock}
    (hc : c ∈ blocksIn indent lines) {r : Reference} (hr : r ∈ c.references) :
    ∃ l, (l, r.line) ∈ lines ∧ ListedIn (2 * indent) l r.item := by
  obtain ⟨l, key, rest, hsuffix, -, -, hrefs⟩ := mem_blocksIn hc
  rw [hrefs] at hr
  obtain ⟨l', hl', hlisted⟩ := mem_referencesIn hr
  have hrest : (l', r.line) ∈ rest := (List.takeWhile_sublist _).subset hl'
  exact ⟨l', hsuffix.subset (List.mem_cons_of_mem _ hrest), hlisted⟩

/-- References stand apart, also those of different classes. -/
theorem references_pairwise {indent : Nat} {lines : List (Line × Nat)}
    (h : lines.Pairwise fun a b => a.2 < b.2) :
    ((blocksIn indent lines).flatMap (·.references)).Pairwise Reference.Precedes := by
  induction lines with
  | nil => exact .nil
  | cons a rest ih =>
    obtain ⟨-, hrest⟩ := List.pairwise_cons.1 h
    rw [blocksIn_cons]
    split
    · rw [List.flatMap_cons, List.pairwise_append]
      refine ⟨referencesIn_pairwise (hrest.sublist (List.takeWhile_sublist _)), ih hrest,
        fun r hr r' hr' => .inl ?_⟩
      rw [← blocksIn_dropWhile] at hr'
      obtain ⟨l, hl, -⟩ := mem_referencesIn hr
      obtain ⟨c, hc, hr'⟩ := List.mem_flatMap.1 hr'
      obtain ⟨l', hl', -⟩ := listedIn_of_mem_blocksIn hc hr'
      exact pairwise_split hrest _ _ hl _ hl'
    · exact ih hrest

end SchemaTidy.Dedupe
