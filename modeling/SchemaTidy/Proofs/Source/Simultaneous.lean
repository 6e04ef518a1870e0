import SchemaTidy.Proofs.Source.Frame

/-! # Edits made one after the other, and all at once

Main statement: `apply_eq_atOnce`. Edits are made one by one in a text that changes under them. When
their spans fit the text as it was and stand apart, the outcome is the one of replacing them all at
the same time (`atOnce`), so it does not matter in which order they are given. -/

namespace SchemaTidy.Source
open Text

variable {ls : List Line} {l : Line} {edits edits' es es' : List Edit} {e : Edit}
  {cs after : List Char} {n : Nat}

/-! ## Spans of a text -/

/-- A byte position at which a character of the text starts, or the text ends. -/
def IsBoundary (cs : List Char) (n : Nat) : Prop := ∃ before, before <+: cs ∧ width before = n

theorem isBoundary_iff : IsBoundary cs n ↔ (cutAt cs n).isSome = true := by
  rw [Option.isSome_iff_exists]
  constructor
  · rintro ⟨before, ⟨after, rfl⟩, rfl⟩
    exact ⟨_, cutAt_width before after⟩
  · rintro ⟨⟨before, after⟩, hcut⟩
    obtain ⟨rfl, hwidth⟩ := cutAt_sound hcut
    exact ⟨before, List.prefix_append _ _, hwidth⟩

instance (cs : List Char) (n : Nat) : Decidable (IsBoundary cs n) :=
  decidable_of_iff _ isBoundary_iff.symm

/-- A span that starts and ends in the text, between characters of it. -/
def Span.Valid (span : Span) (cs : List Char) : Prop :=
  span.start ≤ span.stop ∧ span.stop ≤ width cs ∧
    IsBoundary cs span.start ∧ IsBoundary cs span.stop

instance (span : Span) (cs : List Char) : Decidable (span.Valid cs) :=
  inferInstanceAs (Decidable (_ ∧ _ ∧ _ ∧ _))

theorem Span.Valid.standsIn {span : Span} (h : span.Valid cs) : span.StandsIn cs := by
  obtain ⟨hle, -, ⟨before, ⟨rest, hbefore⟩, hstart⟩, ⟨front, ⟨after, hfront⟩, hstop⟩⟩ := h
  obtain ⟨old, rfl, -⟩ : ∃ old, front = before ++ old ∧ rest = old ++ after :=
    append_of_width_le (hbefore.trans hfront.symm) (by omega)
  refine ⟨before, old, after, hfront.symm, ?_⟩
  rw [← width_append, hstart, hstop]

/-! ## Replacing all at once -/

/-- What edits put in at byte `n`. -/
def putIn (es : List Edit) (n : Nat) : List Char :=
  (es.filter (·.span.start == n)).flatMap (·.replacement)

/-- Whether edits take away the character that starts at byte `n`. -/
def takesAway (es : List Edit) (n : Nat) : Bool :=
  es.any fun e => decide (e.span.start ≤ n) && decide (n < e.span.stop)

/-- A text that starts at byte `n` of its line, with all edits of the line made at once. All
positions are those of the line as it was. -/
def atOnce (es : List Edit) : Nat → List Char → List Char
  | n, [] => putIn es n
  | n, c :: cs =>
    putIn es n ++ (if takesAway es n then [] else [c]) ++ atOnce es (n + c.utf8Size) cs

@[simp] theorem atOnce_nil (n : Nat) (cs : List Char) : atOnce [] n cs = cs := by
  induction cs generalizing n with
  | nil => rfl
  | cons c cs ih => simp [atOnce, putIn, takesAway, ih]

theorem putIn_eq_nil (h : ∀ e ∈ es, e.span.start ≠ n) : putIn es n = [] := by
  have hnone : es.filter (·.span.start == n) = [] :=
    List.filter_eq_nil_iff.2 fun e he => by simpa using h e he
  rw [putIn, hnone, List.flatMap_nil]

theorem putIn_cons (e : Edit) (es : List Edit) (n : Nat) :
    putIn (e :: es) n = (if e.span.start = n then e.replacement else []) ++ putIn es n := by
  by_cases h : e.span.start = n <;> simp [putIn, h]

theorem takesAway_eq_false (h : ∀ e ∈ es, n < e.span.start) : takesAway es n = false := by
  refine List.any_eq_false.2 fun e he => ?_
  have := h e he
  simp only [Bool.and_eq_true, decide_eq_true_eq]
  omega

theorem takesAway_cons (e : Edit) (es : List Edit) (n : Nat) :
    takesAway (e :: es) n =
      (decide (e.span.start ≤ n) && decide (n < e.span.stop) || takesAway es n) :=
  List.any_cons

/-- Edits further right leave a text alone. -/
theorem atOnce_append {gap : List Char} (h : ∀ e ∈ es, n + width gap ≤ e.span.start)
    (cs : List Char) : atOnce es n (gap ++ cs) = gap ++ atOnce es (n + width gap) cs := by
  induction gap generalizing n with
  | nil => rfl
  | cons c gap ih =>
    have hpos : 0 < c.utf8Size := c.utf8Size_pos
    rw [width_cons, ← Nat.add_assoc] at h ⊢
    have hright : ∀ e ∈ es, n < e.span.start := fun e he => by
      have := h e he
      omega
    rw [List.cons_append, atOnce, putIn_eq_nil fun e he => (hright e he).ne',
      takesAway_eq_false hright, ih h]
    rfl

/-- An edit further left leaves a text alone. -/
theorem atOnce_cons_of_left (hstart : e.span.start < n) (hstop : e.span.stop ≤ n)
    (cs : List Char) : atOnce (e :: es) n cs = atOnce es n cs := by
  induction cs generalizing n with
  | nil => rw [atOnce, putIn_cons, if_neg hstart.ne, List.nil_append, atOnce]
  | cons c cs ih =>
    have hnot : ¬ n < e.span.stop := Nat.not_lt.2 hstop
    rw [atOnce, putIn_cons, if_neg hstart.ne, List.nil_append, takesAway_cons,
      decide_eq_false hnot, Bool.and_false, Bool.false_or, ih (by omega) (by omega), atOnce]

/-- Inside its span an edit takes everything away. -/
theorem atOnce_cons_inside {old : List Char} (hstart : e.span.start < n)
    (hstop : n + width old = e.span.stop) (hes : ∀ e' ∈ es, e.span.stop ≤ e'.span.start)
    (after : List Char) : atOnce (e :: es) n (old ++ after) = atOnce es e.span.stop after := by
  induction old generalizing n with
  | nil =>
    obtain rfl : n = e.span.stop := hstop
    exact atOnce_cons_of_left hstart (Nat.le_refl _) after
  | cons c old ih =>
    have hpos : 0 < c.utf8Size := c.utf8Size_pos
    rw [width_cons] at hstop
    have hlt : n < e.span.stop := by omega
    have hnone : putIn es n = [] := putIn_eq_nil fun e' he' => by
      have := hes e' he'
      omega
    rw [List.cons_append, atOnce, putIn_cons, if_neg hstart.ne, hnone, takesAway_cons,
      decide_eq_true hstart.le, decide_eq_true hlt, ih (by omega) (by omega)]
    rfl

/-- An edit of the text that comes next, before edits further right. -/
theorem atOnce_cons {old : List Char} (hspan : e.span = ⟨n, n + width old⟩)
    (hes : ∀ e' ∈ es, n < e'.span.start ∧ n + width old ≤ e'.span.start) (after : List Char) :
    atOnce (e :: es) n (old ++ after) = e.replacement ++ atOnce es (n + width old) after := by
  have hstart : e.span.start = n := congrArg Span.start hspan
  have hstop : e.span.stop = n + width old := congrArg Span.stop hspan
  have hnone : putIn es n = [] := putIn_eq_nil fun e' he' => (hes e' he').1.ne'
  have hput : putIn (e :: es) n = e.replacement := by
    rw [putIn_cons, if_pos hstart, hnone, List.append_nil]
  cases old with
  | nil =>
    rw [width_nil, Nat.add_zero] at hstop ⊢
    cases after with
    | nil => rw [List.nil_append, atOnce, atOnce, hput, hnone, List.append_nil]
    | cons c cs =>
      have hpos : 0 < c.utf8Size := c.utf8Size_pos
      have haway : takesAway (e :: es) n = takesAway es n := by
        rw [takesAway_cons, hstop, decide_eq_false (Nat.lt_irrefl n), Bool.and_false, Bool.false_or]
      rw [List.nil_append, atOnce, atOnce, hput, hnone, haway,
        atOnce_cons_of_left (by omega) (by omega), List.nil_append, List.append_assoc]
  | cons c old =>
    have hpos : 0 < c.utf8Size := c.utf8Size_pos
    rw [width_cons] at hstop
    have haway : takesAway (e :: es) n = true := by
      rw [takesAway_cons, decide_eq_true hstart.le, decide_eq_true (by omega)]
      rfl
    have hright : ∀ e' ∈ es, e.span.stop ≤ e'.span.start := fun e' he' => by
      have := (hes e' he').2
      rw [width_cons] at this
      omega
    rw [List.cons_append, atOnce, hput, haway, if_pos rfl, List.append_nil,
      atOnce_cons_inside (by omega) (by omega) hright, hstop, width_cons]

/-- The order of the edits is of no importance when they start at different places. -/
theorem atOnce_perm (h : es.Perm es') (hstart : es.Pairwise fun a b => a.span.start ≠ b.span.start)
    (n : Nat) (cs : List Char) : atOnce es n cs = atOnce es' n cs := by
  have haway : takesAway es = takesAway es' := funext fun n => h.any_eq
  have hput : putIn es = putIn es' := by
    funext n
    have hone : (es.filter (·.span.start == n)).Pairwise fun _ _ => False :=
      (hstart.filter _).imp_of_mem fun {a b} ha hb hab => hab <| by
        rw [beq_iff_eq.1 (List.mem_filter.1 ha).2, beq_iff_eq.1 (List.mem_filter.1 hb).2]
    have hfilter : (es.filter (·.span.start == n)) = es'.filter (·.span.start == n) :=
      (h.filter _).eq_of_pairwise (fun _ _ _ _ hab => hab.elim) hone
        ((h.filter _).pairwise hone fun {_ _} hab => hab.elim)
    rw [putIn, hfilter, putIn]
  induction cs generalizing n with
  | nil => rw [atOnce, atOnce, hput]
  | cons c cs ih => rw [atOnce, atOnce, hput, haway, ih]

/-! ## One line -/

/-- The edits to the right are made first, so what stands left of them is still in place. -/
theorem content_edited {before : List Char}
    (hpair : es.Pairwise fun a b => a.span.start < b.span.start ∧ a.span.stop ≤ b.span.start)
    (hes : ∀ e ∈ es, e.span.StandsIn l.content ∧ breaksLine e.replacement = false ∧
      width before ≤ e.span.start)
    (hcontent : l.content = before ++ cs) :
    (l.edited es).content = before ++ atOnce es (width before) cs := by
  induction es generalizing before cs with
  | nil => rw [Line.edited_nil, atOnce_nil, hcontent]
  | cons e es ih =>
    obtain ⟨hfirst, hpair⟩ := List.pairwise_cons.1 hpair
    obtain ⟨⟨front, old, after, hcut, hspan⟩, hbreaks, hle⟩ := hes e List.mem_cons_self
    have hwidth : width (front ++ old) = width front + width old := width_append _ _
    obtain ⟨gap, rfl, rfl⟩ : ∃ gap, front = before ++ gap ∧ cs = gap ++ (old ++ after) := by
      refine append_of_width_le ?_ (by simpa [hspan] using hle)
      rw [← hcontent, hcut, List.append_assoc]
    have hrest : ∀ e' ∈ es, width (before ++ gap) < e'.span.start ∧
        width (before ++ gap) + width old ≤ e'.span.start := fun e' he' => by
      simpa only [hspan] using hfirst e' he'
    have ih' := ih hpair (fun e' he' =>
      ⟨(hes e' (List.mem_cons_of_mem _ he')).1, (hes e' (List.mem_cons_of_mem _ he')).2.1,
        hwidth ▸ (hrest e' he').2⟩) hcut
    have hgap : ∀ e' ∈ e :: es, width before + width gap ≤ e'.span.start := fun e' he' => by
      rw [← width_append]
      rcases List.mem_cons.1 he' with rfl | he'
      · rw [hspan]
      · exact (hrest e' he').1.le
    rw [Line.edited_cons, Edit.onLine, hbreaks, if_neg Bool.false_ne_true, hspan,
      splice?_of_content ih', atOnce_append hgap, ← width_append, atOnce_cons hspan hrest, hwidth]
    simp

/-! ## All lines -/

/-- Edits that can be made all at once: each fits the line that it is for, none breaks a line, and
no two of one line overlap or start at the same place. -/
structure Compatible (ls : List Line) (edits : List Edit) : Prop where
  fits : ∀ e ∈ edits, ∃ h : e.line < ls.length, e.span.Valid ls[e.line].content
  unbroken : ∀ e ∈ edits, breaksLine e.replacement = false
  apart : edits.Pairwise fun a b => a.line = b.line → a.span.start ≠ b.span.start ∧
    (a.span.stop ≤ b.span.start ∨ b.span.stop ≤ a.span.start)

theorem Compatible.perm (h : Compatible ls edits) (hperm : edits.Perm edits') :
    Compatible ls edits' where
  fits e he := h.fits e (hperm.mem_iff.2 he)
  unbroken e he := h.unbroken e (hperm.mem_iff.2 he)
  apart := hperm.pairwise h.apart fun {_ _} hab hline =>
    ⟨(hab hline.symm).1.symm, (hab hline.symm).2.symm⟩

/-- Compatible edits are sorted in one way only. -/
theorem Compatible.mergeSort_eq (h : Compatible ls edits) (hperm : edits.Perm edits') :
    edits.mergeSort Edit.before = edits'.mergeSort Edit.before := by
  have hkeys : (edits.map fun e => (e.line, e.span.start)).Nodup :=
    List.pairwise_map.2 <| h.apart.imp fun hab heq =>
      (hab (Prod.mk.inj heq).1).1 (Prod.mk.inj heq).2
  have hsame : ∀ a b, a ∈ edits.mergeSort Edit.before → b ∈ edits'.mergeSort Edit.before →
      a.before b = true → b.before a = true → a = b := by
    intro a b ha hb hab hba
    refine List.inj_on_of_nodup_map hkeys (List.mem_mergeSort.1 ha)
      (hperm.mem_iff.2 (List.mem_mergeSort.1 hb)) (Prod.ext_iff.2 ?_)
    simp only [Edit.before, Bool.or_eq_true, Bool.and_eq_true, decide_eq_true_eq,
      beq_iff_eq] at hab hba
    omega
  have hsorted (es : List Edit) : (es.mergeSort Edit.before).Pairwise fun a b => a.before b = true :=
    List.pairwise_mergeSort Edit.before_trans Edit.before_total es
  have hsort : (edits.mergeSort Edit.before).Perm (edits'.mergeSort Edit.before) :=
    (List.mergeSort_perm _ _).trans (hperm.trans (List.mergeSort_perm _ _).symm)
  exact hsort.eq_of_pairwise hsame (hsorted edits) (hsorted edits')

theorem Compatible.apply_perm (h : Compatible ls edits) (hperm : edits.Perm edits') :
    apply ls edits = apply ls edits' := by
  rw [apply, h.mergeSort_eq hperm, apply]

/-- The edits in the order opposite to the one in which they are made: from left to right. -/
def leftToRight (edits : List Edit) : List Edit := (edits.mergeSort Edit.before).reverse

theorem leftToRight_perm (edits : List Edit) : (leftToRight edits).Perm edits :=
  (List.reverse_perm _).trans (List.mergeSort_perm _ _)

/-- On one line they stand one after the other. -/
theorem Compatible.pairwise_leftToRight (h : Compatible ls edits) (i : Nat) :
    ((leftToRight edits).filter (·.line == i)).Pairwise fun a b =>
      a.span.start < b.span.start ∧ a.span.stop ≤ b.span.start := by
  have h' : Compatible ls (leftToRight edits) := h.perm (leftToRight_perm edits).symm
  have hsorted : (leftToRight edits).Pairwise fun a b => b.before a = true :=
    List.pairwise_reverse.2
      (List.pairwise_mergeSort Edit.before_trans Edit.before_total edits)
  refine ((hsorted.and h'.apart).filter _).imp_of_mem fun {a b} ha hb hab => ?_
  obtain ⟨ha, hline⟩ := List.mem_filter.1 ha
  obtain ⟨hb, hline'⟩ := List.mem_filter.1 hb
  have hlines : a.line = b.line := (beq_iff_eq.1 hline).trans (beq_iff_eq.1 hline').symm
  obtain ⟨hbefore, hapart⟩ := hab
  obtain ⟨hne, hor⟩ := hapart hlines
  obtain ⟨-, hle, -⟩ := h'.fits b hb
  simp only [Edit.before, Bool.or_eq_true, Bool.and_eq_true, decide_eq_true_eq,
    beq_iff_eq] at hbefore
  omega

/-- **Edits that are made one after the other give what replacing them all at once gives**, on every
line, when each fits its line as it was and they stand apart. The terminators stay, lines without
edits stay as they are, and the order in which the edits are given is of no importance. -/
theorem apply_eq_atOnce (h : Compatible ls edits) :
    (apply ls edits = ls.mapIdx fun i l =>
      { l with content := atOnce (edits.filter (·.line == i)) 0 l.content }) ∧
    (∀ i, (∀ e ∈ edits, e.line ≠ i) → (apply ls edits)[i]? = ls[i]?) ∧
    ∀ edits', edits.Perm edits' → apply ls edits' = apply ls edits := by
  have hline (i : Nat) : (apply ls edits)[i]? = ls[i]?.map fun l : Line =>
      ({ l with content := atOnce (edits.filter (·.line == i)) 0 l.content } : Line) := by
    have hperm := leftToRight_perm edits
    have hpair := h.pairwise_leftToRight i
    rw [h.apply_perm hperm.symm, getElem?_apply (hpair.imp And.left)]
    refine Option.map_congr fun l hl => ?_
    have hes : ∀ e ∈ (leftToRight edits).filter (·.line == i),
        e.span.StandsIn l.content ∧ breaksLine e.replacement = false ∧
          width [] ≤ e.span.start := by
      intro e he
      obtain ⟨hmem, hi⟩ := List.mem_filter.1 he
      obtain rfl := beq_iff_eq.1 hi
      obtain ⟨hlt, hvalid⟩ := h.fits e (hperm.mem_iff.1 hmem)
      obtain rfl : ls[e.line] = l := Option.some.inj ((List.getElem?_eq_getElem hlt).symm.trans hl)
      exact ⟨hvalid.standsIn, h.unbroken e (hperm.mem_iff.1 hmem), Nat.zero_le _⟩
    have hcontent := content_edited hpair hes (List.nil_append l.content).symm
    have hterminator := l.edited_terminator ((leftToRight edits).filter (·.line == i))
    have hstart : ((leftToRight edits).filter (·.line == i)).Pairwise fun a b =>
        a.span.start ≠ b.span.start := hpair.imp fun hab => hab.1.ne
    rw [List.nil_append, width_nil, atOnce_perm (hperm.filter _) hstart] at hcontent
    rw [← hcontent, ← hterminator]
  refine ⟨List.ext_getElem? fun i => ?_, fun i hi => ?_, fun edits' hperm =>
    (h.apply_perm hperm).symm⟩
  · rw [hline, List.getElem?_mapIdx]
  · have hnone : edits.filter (·.line == i) = [] :=
      List.filter_eq_nil_iff.2 fun e he => by simpa using hi e he
    simp [hline, hnone]

/-- Two items of a list, the first one given last, an insertion, and a line left alone. -/
theorem apply_eq_atOnce_two_items :
    let ls := lines "slots: [aé, b]\r\nend".toList
    let edits : List Edit :=
      [⟨0, ⟨13, 14⟩, ['d', 'd']⟩, ⟨0, ⟨8, 11⟩, ['c']⟩, ⟨0, ⟨11, 11⟩, ['x']⟩]
    apply ls edits = lines "slots: [cx, dd]\r\nend".toList ∧
      apply ls edits.reverse = apply ls edits := by
  intro ls edits
  have h : Compatible ls edits := ⟨by decide, by decide, by decide⟩
  obtain ⟨heq, -, hperm⟩ := apply_eq_atOnce h
  exact ⟨by rw [heq]; decide +kernel, hperm _ (List.reverse_perm _).symm⟩

end SchemaTidy.Source
