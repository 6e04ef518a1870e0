import SchemaTidy.Proofs.Lists
import SchemaTidy.Proofs.Dedupe.Sections

/-! # How the class section is cut into blocks

`scanFrom` finds the class blocks by line numbers: it goes from a header to the end of its block in
one step, and from the key of a list to the end of the list. Main statement: `classBlocks_cut`. Both
steps go forward, what is passed over holds no header and no list, and the blocks that are found cut
the section. -/

namespace SchemaTidy.Source

variable {ls : List Line} {i j k start stop header indent : Nat} {l : Line}

/-! ## Numbered lines -/

/-- The lines from one number up to another, each with its number. -/
def linesIn (ls : List Line) (i stop : Nat) : List (Line × Nat) := (ls.zipIdx.take stop).drop i

theorem getElem?_linesIn (ls : List Line) (i stop k : Nat) :
    (linesIn ls i stop)[k]? = if i + k < stop then (ls[i + k]?).map (·, i + k) else none := by
  rw [linesIn, List.getElem?_drop, List.getElem?_take, List.getElem?_zipIdx]
  simp only [Nat.zero_add]

theorem mem_linesIn : (l, j) ∈ linesIn ls i stop ↔ i ≤ j ∧ j < stop ∧ ls[j]? = some l := by
  rw [List.mem_iff_getElem?]
  simp only [getElem?_linesIn]
  constructor
  · rintro ⟨k, hk⟩
    split at hk
    · obtain ⟨l', hl', heq⟩ := Option.map_eq_some_iff.1 hk
      obtain ⟨rfl, rfl⟩ := Prod.mk.inj heq
      exact ⟨Nat.le_add_right i k, ‹_›, hl'⟩
    · cases hk
  · rintro ⟨hij, hj, hl⟩
    refine ⟨j - i, ?_⟩
    rw [Nat.add_sub_cancel' hij, if_pos hj, hl]
    rfl

theorem linesIn_cons (hi : i < stop) (hl : ls[i]? = some l) :
    linesIn ls i stop = (l, i) :: linesIn ls (i + 1) stop := by
  refine List.ext_getElem? fun k => ?_
  cases k with
  | zero => rw [getElem?_linesIn, Nat.add_zero, if_pos hi, hl]; rfl
  | succ k =>
    rw [List.getElem?_cons_succ, getElem?_linesIn, getElem?_linesIn, Nat.add_assoc, Nat.add_comm 1 k]

theorem linesIn_eq_nil (h : i < stop → ls[i]? = none) : linesIn ls i stop = [] := by
  rw [List.eq_nil_iff_forall_not_mem]
  rintro ⟨l, j⟩ hmem
  obtain ⟨hij, hj, hl⟩ := mem_linesIn.1 hmem
  have hlength := List.getElem?_eq_none_iff.1 (h (by omega))
  have hbound := (List.getElem?_eq_some_iff.1 hl).1
  omega

theorem linesIn_append (hij : i ≤ j) (hj : j ≤ stop) :
    linesIn ls i stop = linesIn ls i j ++ linesIn ls j stop := by
  have hfront : (linesIn ls i stop).take (j - i) = linesIn ls i j := by
    rw [linesIn, ← List.drop_take, List.take_take, Nat.min_eq_left hj]
    rfl
  have hback : (linesIn ls i stop).drop (j - i) = linesIn ls j stop := by
    rw [linesIn, List.drop_drop, Nat.add_sub_cancel' hij]
    rfl
  rw [← hfront, ← hback, List.take_append_drop]

theorem linesIn_pairwise (ls : List Line) (i stop : Nat) :
    (linesIn ls i stop).Pairwise fun a b => a.2 < b.2 :=
  ((pairwise_zipIdx ls).take).drop

theorem sectionLines_of_topSection {name : List Char} (h : topSection ls name = some (start, stop)) :
    sectionLines ls name = linesIn ls start stop := by
  rw [sectionLines, h]
  exact (List.drop_take ..).symm

/-- What stands behind a line, among the lines up to a number. -/
theorem of_suffix_linesIn {rest : List (Line × Nat)}
    (h : (l, j) :: rest <:+ linesIn ls i stop) :
    i ≤ j ∧ j < stop ∧ ls[j]? = some l ∧ rest = linesIn ls (j + 1) stop := by
  obtain ⟨front, hfront⟩ := h
  have hget : (linesIn ls i stop)[front.length]? = some (l, j) := by
    rw [← hfront, List.getElem?_append_right (Nat.le_refl _), Nat.sub_self]
    rfl
  obtain ⟨hij, hj, hl⟩ := mem_linesIn.1 (List.mem_of_getElem? hget)
  obtain rfl : j = i + front.length := by
    rw [getElem?_linesIn] at hget
    split at hget
    · obtain ⟨l', -, heq⟩ := Option.map_eq_some_iff.1 hget
      exact (Prod.mk.inj heq).2.symm
    · cases hget
  refine ⟨hij, hj, hl, ?_⟩
  have hdrop : (linesIn ls i stop).drop (front.length + 1) = rest := by
    rw [← hfront, List.drop_append, List.drop_of_length_le (Nat.le_succ _)]
    simp
  rw [← hdrop, linesIn, List.drop_drop, ← Nat.add_assoc]
  rfl

/-- A stretch of lines that all pass a test is what is taken by it, if the next line fails it. -/
theorem linesIn_split {p : Line → Bool} (hij : i ≤ j) (hj : j ≤ stop)
    (hpass : ∀ k l, i ≤ k → k < j → ls[k]? = some l → p l = true)
    (hfail : ∀ l, j < stop → ls[j]? = some l → p l = false) :
    (linesIn ls i stop).takeWhile (fun a => p a.1) = linesIn ls i j ∧
      (linesIn ls i stop).dropWhile (fun a => p a.1) = linesIn ls j stop := by
  have hall : ∀ a ∈ linesIn ls i j, p a.1 = true := by
    rintro ⟨l, k⟩ hmem
    obtain ⟨hik, hkj, hl⟩ := mem_linesIn.1 hmem
    exact hpass k l hik hkj hl
  have hnone : (linesIn ls j stop).takeWhile (fun a => p a.1) = [] ∧
      (linesIn ls j stop).dropWhile (fun a => p a.1) = linesIn ls j stop := by
    by_cases hnext : j < stop ∧ ∃ l, ls[j]? = some l
    · obtain ⟨hlt, l, hl⟩ := hnext
      rw [linesIn_cons hlt hl]
      simp [hfail l hlt hl]
    · rw [linesIn_eq_nil fun hlt => Option.eq_none_iff_forall_ne_some.2 fun l hl =>
        hnext ⟨hlt, l, hl⟩]
      exact ⟨rfl, rfl⟩
  rw [linesIn_append hij hj, List.takeWhile_append_of_pos hall, List.dropWhile_append_of_pos hall,
    hnone.1, hnone.2, List.append_nil]
  exact ⟨rfl, rfl⟩

/-! ## Where a block ends -/

theorem lt_blockEnd (hheader : header < ls.length) (indent : Nat) :
    header < blockEnd ls header indent := by
  unfold blockEnd
  split <;> omega

theorem closes_blockEnd (hl : ls[blockEnd ls header indent]? = some l) :
    l.closes indent = true := by
  unfold blockEnd at hl
  split at hl
  next k hk =>
    obtain ⟨hbound, hcloses, -⟩ := List.findIdx?_eq_some_iff_getElem.1 hk
    rw [← List.getElem?_drop, List.getElem?_eq_getElem hbound] at hl
    exact Option.some.inj hl ▸ hcloses
  next =>
    rw [List.getElem?_eq_none (Nat.le_refl _)] at hl
    cases hl

/-- The number behind the last line of a block whose section goes up to `stop`. -/
def blockStop (indent : Nat) (ls : List Line) (stop header : Nat) : Nat :=
  min (blockEnd ls header indent) stop

theorem lt_blockStop (indent : Nat) (hstop : header < stop) (hl : ls[header]? = some l) :
    header < blockStop indent ls stop header :=
  Nat.lt_min.2 ⟨lt_blockEnd (List.getElem?_eq_some_iff.1 hl).1 indent, hstop⟩

theorem not_closes_of_lt_blockStop (hi : header < i) (hstop : i < blockStop indent ls stop header)
    (hl : ls[i]? = some l) : l.closes indent = false := by
  rw [Bool.eq_false_iff]
  intro hcloses
  exact Nat.not_lt.2 (blockEnd_le hi hl hcloses) (Nat.lt_min.1 hstop).1

end SchemaTidy.Source

namespace SchemaTidy.Dedupe
open Source Text

variable {ls : List Line} {indent start stop i : Nat}

/-! ## Scanning by numbers -/

/-- The lines of a block reach from its header to the next line that closes it. -/
theorem bodyOf_linesIn (indent : Nat) {header : Nat} {l : Line} (hstop : header < stop)
    (hl : ls[header]? = some l) :
    bodyOf indent (linesIn ls (header + 1) stop) =
        linesIn ls (header + 1) (blockStop indent ls stop header) ∧
      (linesIn ls (header + 1) stop).dropWhile (fun a => !a.1.closes indent) =
        linesIn ls (blockStop indent ls stop header) stop := by
  refine linesIn_split (p := fun l => !l.closes indent) (lt_blockStop indent hstop hl)
    (Nat.min_le_right _ _) (fun k l' hk hlt hl' => ?_) (fun l' hlt hl' => ?_)
  · rw [not_closes_of_lt_blockStop hk hlt hl']
    rfl
  · have hend : blockStop indent ls stop header = blockEnd ls header indent := by
      unfold blockStop at hlt ⊢
      omega
    rw [hend] at hl'
    rw [closes_blockEnd hl']
    rfl

/-- The items of a block list that goes on at line `i`, and the number of the line behind it. -/
def listFrom (indent : Nat) (ls : List Line) (stop i : Nat) : List Reference × Nat :=
  if i < stop then
    match ls[i]? with
    | some l =>
      if continuesList indent l then
        let (more, next) := listFrom indent ls stop (i + 1)
        ((l.value.map (⟨i, ·⟩)).toList ++ more, next)
      else ([], i)
    | none => ([], i)
  else ([], i)
termination_by stop - i

theorem le_listFrom (indent : Nat) (ls : List Line) (stop i : Nat) :
    i ≤ (listFrom indent ls stop i).2 := by
  fun_induction listFrom indent ls stop i with
  | case1 i _ l _ _ more next hnext ih => rw [hnext] at ih; dsimp only at ih ⊢; omega
  | case2 | case3 | case4 => exact Nat.le_refl _

/-- The references in the lines from `i` on, the lines of each list passed over at once. -/
def collectFrom (indent : Nat) (ls : List Line) (stop i : Nat) : List Reference :=
  if i < stop then
    match ls[i]? with
    | some l =>
      if l.indent = indent ∧ l.hasKey slotsName then
        match l.flowItems with
        | some items => items.map (⟨i, ·⟩) ++ collectFrom indent ls stop (i + 1)
        | none =>
          have := le_listFrom indent ls stop (i + 1)
          (listFrom indent ls stop (i + 1)).1 ++
            collectFrom indent ls stop (listFrom indent ls stop (i + 1)).2
      else collectFrom indent ls stop (i + 1)
    | none => []
  else []
termination_by stop - i

/-- The class blocks in the lines from `i` on, the lines of each block passed over at once. -/
def scanFrom (indent : Nat) (ls : List Line) (stop i : Nat) : List ClassBlock :=
  if h : i < stop then
    match hl : ls[i]? with
    | some l =>
      match keyAt indent l with
      | some key =>
        have := lt_blockStop indent h hl
        let next := blockStop indent ls stop i
        ⟨i, key.text, collectFrom (2 * indent) ls next (i + 1)⟩ :: scanFrom indent ls stop next
      | none => scanFrom indent ls stop (i + 1)
    | none => []
  else []
termination_by stop - i

theorem listFrom_eq (indent : Nat) (ls : List Line) (stop i : Nat) :
    (listFrom indent ls stop i).1 = listedItems indent (linesIn ls i stop) ∧
      linesIn ls (listFrom indent ls stop i).2 stop =
        (linesIn ls i stop).dropWhile fun a => continuesList indent a.1 := by
  fun_induction listFrom indent ls stop i with
  | case1 i hi l hl hcontinues more next hnext ih =>
    rw [hnext] at ih
    rw [linesIn_cons hi hl, List.dropWhile_cons, if_pos hcontinues, listedItems_eq,
      List.takeWhile_cons, if_pos hcontinues, List.filterMap_cons]
    obtain ⟨rfl, hrest⟩ : more = listedItems indent (linesIn ls (i + 1) stop) ∧ _ := ih
    refine ⟨?_, hrest⟩
    cases l.value <;> rfl
  | case2 i hi l hl hstops =>
    rw [linesIn_cons hi hl, List.dropWhile_cons, if_neg hstops, listedItems_eq,
      List.takeWhile_cons, if_neg hstops]
    exact ⟨rfl, rfl⟩
  | case3 i hi hl => rw [linesIn_eq_nil fun _ => hl]; exact ⟨rfl, rfl⟩
  | case4 i hi => rw [linesIn_eq_nil fun hlt => absurd hlt hi]; exact ⟨rfl, rfl⟩

/-- No list is missed when the lines of a list are passed over. -/
theorem collectFrom_eq (indent : Nat) (ls : List Line) (stop i : Nat) :
    collectFrom indent ls stop i = referencesIn indent (linesIn ls i stop) := by
  fun_induction collectFrom indent ls stop i with
  | case1 i hi l hl hheader items hitems ih =>
    rw [linesIn_cons hi hl, referencesIn, if_pos hheader, hitems, ih]
  | case2 i hi l hl hheader hitems _ ih =>
    obtain ⟨hlisted, hrest⟩ := listFrom_eq indent ls stop (i + 1)
    rw [linesIn_cons hi hl, referencesIn, if_pos hheader, hitems, ih, hlisted, hrest,
      referencesIn_dropWhile]
  | case3 i hi l hl hheader ih =>
    rw [linesIn_cons hi hl, referencesIn, if_neg hheader, List.nil_append, ih]
  | case4 i hi hl => rw [linesIn_eq_nil fun _ => hl]; rfl
  | case5 i hi => rw [linesIn_eq_nil fun hlt => absurd hlt hi]; rfl

/-- No header is missed when the lines of a block are passed over. -/
theorem scanFrom_eq (indent : Nat) (ls : List Line) (stop i : Nat) :
    scanFrom indent ls stop i = blocksIn indent (linesIn ls i stop) := by
  fun_induction scanFrom indent ls stop i with
  | case1 i hi l hl key hkey _ next ih =>
    obtain ⟨hbody, hrest⟩ := bodyOf_linesIn indent hi hl
    rw [linesIn_cons hi hl, blocksIn_cons]
    dsimp only
    rw [hkey, hbody, ← blocksIn_dropWhile, hrest, ih, collectFrom_eq]
  | case2 i hi l hl hkey ih =>
    rw [linesIn_cons hi hl, blocksIn_cons]
    dsimp only
    rw [hkey, ih]
  | case3 i hi hl => rw [linesIn_eq_nil fun _ => hl]; rfl
  | case4 i hi => rw [linesIn_eq_nil fun hlt => absurd hlt hi]; rfl

/-! ## The cut -/

/-- Blocks cut the lines of a section. Every entry at the indent heads just one of them, they stand
one behind the other, and what is found in a block stands in its own lines. -/
structure Cuts (indent : Nat) (ls : List Line) (start stop : Nat) (blocks : List ClassBlock) :
    Prop where
  heads : ∀ i l key, start ≤ i → i < stop → ls[i]? = some l → keyAt indent l = some key →
    ∃! c, c ∈ blocks ∧ c.header = i
  header : ∀ c ∈ blocks, ∃ l key, ls[c.header]? = some l ∧ keyAt indent l = some key ∧
    c.name = key.text
  inside : ∀ c ∈ blocks, start ≤ c.header ∧ c.header < blockStop indent ls stop c.header ∧
    blockStop indent ls stop c.header ≤ stop
  apart : blocks.Pairwise fun c d => blockStop indent ls stop c.header ≤ d.header
  deeper : ∀ c ∈ blocks, ∀ i l, c.header < i → i < blockStop indent ls stop c.header →
    ls[i]? = some l → l.isSignificant = true → indent < l.indent
  references : ∀ c ∈ blocks, ∀ r ∈ c.references, c.header < r.line ∧
    r.line < blockStop indent ls stop c.header ∧
    ∃ l, ls[r.line]? = some l ∧ r.item.StandsIn l.content
  distinct : (blocks.flatMap (·.references)).Pairwise fun r s =>
    (r.line, r.item.span) ≠ (s.line, s.item.span)

/-- The headers of the blocks are the entries at the indent, in their order. -/
theorem map_header_blocksIn (indent : Nat) (lines : List (Line × Nat)) :
    (blocksIn indent lines).map (·.header) =
      (lines.filter fun a => (keyAt indent a.1).isSome).map (·.2) := by
  induction lines with
  | nil => rfl
  | cons a rest ih =>
    rw [blocksIn_cons, List.filter_cons]
    cases keyAt indent a.1 with
    | none => exact ih
    | some key => rw [List.map_cons, ih]; rfl

/-- What a block is found from: its header and the lines of its body. -/
theorem block_of_mem {c : ClassBlock} (h : c ∈ blocksIn indent (linesIn ls start stop)) :
    ∃ l key, ls[c.header]? = some l ∧ keyAt indent l = some key ∧ c.name = key.text ∧
      start ≤ c.header ∧ c.header < stop ∧
      c.references = referencesIn (2 * indent)
        (linesIn ls (c.header + 1) (blockStop indent ls stop c.header)) := by
  obtain ⟨l, key, rest, hsuffix, hkey, hname, hrefs⟩ := mem_blocksIn h
  obtain ⟨hstart, hstop, hl, rfl⟩ := of_suffix_linesIn hsuffix
  rw [(bodyOf_linesIn indent hstop hl).1] at hrefs
  exact ⟨l, key, hl, hkey, hname, hstart, hstop, hrefs⟩

/-- Blocks cut any stretch of lines. -/
theorem cuts_blocksIn (indent : Nat) (ls : List Line) (start stop : Nat) :
    Cuts indent ls start stop (blocksIn indent (linesIn ls start stop)) := by
  have hlines := linesIn_pairwise ls start stop
  have hheaders : (blocksIn indent (linesIn ls start stop)).Pairwise fun c d =>
      c.header < d.header := by
    rw [← List.pairwise_map, map_header_blocksIn, List.pairwise_map]
    exact hlines.sublist List.filter_sublist
  constructor
  case heads =>
    intro i l key hstart hstop hl hkey
    have hmem : i ∈ (blocksIn indent (linesIn ls start stop)).map (·.header) := by
      rw [map_header_blocksIn]
      refine List.mem_map.2 ⟨(l, i), List.mem_filter.2 ⟨mem_linesIn.2 ⟨hstart, hstop, hl⟩, ?_⟩, rfl⟩
      rw [hkey]
      rfl
    obtain ⟨c, hc, hheader⟩ := List.mem_map.1 hmem
    have hnodup : ((blocksIn indent (linesIn ls start stop)).map (·.header)).Nodup :=
      (List.pairwise_map.2 hheaders).imp Nat.ne_of_lt
    exact ⟨c, ⟨hc, hheader⟩, fun d hd =>
      List.inj_on_of_nodup_map hnodup hd.1 hc (hd.2.trans hheader.symm)⟩
  case header =>
    intro c hc
    obtain ⟨l, key, hl, hkey, hname, -⟩ := block_of_mem hc
    exact ⟨l, key, hl, hkey, hname⟩
  case inside =>
    intro c hc
    obtain ⟨l, -, hl, -, -, hstart, hstop, -⟩ := block_of_mem hc
    exact ⟨hstart, lt_blockStop indent hstop hl, Nat.min_le_right _ _⟩
  case apart =>
    refine hheaders.imp_of_mem fun {c d} _ hd hlt => ?_
    obtain ⟨l, key, hl, hkey, -⟩ := block_of_mem hd
    obtain ⟨hindent, hkey⟩ := keyAt_eq_some_iff.1 hkey
    have hend := blockEnd_le hlt hl (Line.closes_of_key hkey hindent.le)
    exact (Nat.min_le_left _ _).trans hend
  case deeper =>
    intro c _ i l hi hstop hl hsignificant
    have hopen := not_closes_of_lt_blockStop hi hstop hl
    rw [Line.closes, hsignificant, Bool.true_and, decide_eq_false_iff_not] at hopen
    exact Nat.lt_of_not_le hopen
  case references =>
    intro c hc r hr
    obtain ⟨-, -, -, -, -, -, -, hrefs⟩ := block_of_mem hc
    rw [hrefs] at hr
    obtain ⟨l, hmem, hlisted⟩ := mem_referencesIn hr
    obtain ⟨hheader, hstop, hl⟩ := mem_linesIn.1 hmem
    exact ⟨hheader, hstop, l, hl, hlisted.standsIn⟩
  case distinct =>
    refine (references_pairwise hlines).imp fun {r s} hprecedes heq => ?_
    obtain ⟨hline, hspan⟩ := Prod.mk.inj heq
    rcases hprecedes with hlt | ⟨-, hlt⟩
    · exact absurd hline hlt.ne
    · rw [hspan] at hlt
      exact absurd (Nat.le_add_right s.item.start _) (Nat.not_le.2 hlt)

/-- **The class section is cut into blocks.** They are found in one pass that goes from a header to
the end of its block and from a list to its end, so that it comes to an end itself; the blocks lie in
the section one behind the other, each headed by one of the entries at the indent and reaching up to
the next line that is not deeper, and no reference is read outside of its block or twice. -/
theorem classBlocks_cut (indentWidth : Nat) (text : List Char) :
    let indent := max indentWidth 1
    let ls := lines text
    (topSection ls classesName = none → classBlocks indent ls = []) ∧
    ∀ start stop, topSection ls classesName = some (start, stop) →
      scanFrom indent ls stop start = classBlocks indent ls ∧
        Cuts indent ls start stop (classBlocks indent ls) := by
  intro indent ls
  refine ⟨fun hnone => ?_, fun start stop hsection => ?_⟩
  · rw [classBlocks, sectionLines, hnone]
    rfl
  · rw [classBlocks, sectionLines_of_topSection hsection]
    exact ⟨scanFrom_eq indent ls stop start, cuts_blocksIn indent ls start stop⟩

end SchemaTidy.Dedupe
