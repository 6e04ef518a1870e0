import SchemaTidy.Proofs.Source.Reread

/-! # The items of a one-line list

They stand in the line from left to right, apart from each other. When one becomes another name,
the others stay: those to the left where they are, those to the right moved by the difference in
width. -/

namespace SchemaTidy.Source
open Text

/-- A piece found in a text stands there at its position. -/
def Piece.StandsIn (p : Piece) (cs : List Char) : Prop :=
  ∃ before after, cs = before ++ p.text ++ after ∧ p.start = width before

/-! ## Marks around a name -/

theorem pair_infix_append {b m : Char} {xs ys : List Char} (h : [b, m] <:+: xs ++ ys) :
    [b, m] <:+: xs ∨ [b, m] <:+: ys ∨ xs.getLast? = some b ∧ ys.head? = some m := by
  induction xs with
  | nil => exact .inr (.inl h)
  | cons c cs ih =>
    rw [List.cons_append, List.infix_cons_iff] at h
    rcases h with h | h
    · obtain ⟨rfl, hm⟩ := List.cons_prefix_cons.1 h
      cases cs with
      | nil =>
        cases ys with
        | nil => simp at hm
        | cons d ds =>
          obtain ⟨rfl, -⟩ := List.cons_prefix_cons.1 hm
          exact .inr (.inr ⟨rfl, rfl⟩)
      | cons d ds =>
        rw [List.cons_append, List.cons_prefix_cons] at hm
        obtain ⟨rfl, -⟩ := hm
        exact .inl (List.prefix_append [b, m] ds).isInfix
    · rcases ih h with h | h | ⟨hlast, hhead⟩
      · exact .inl (List.infix_cons h)
      · exact .inr (.inl h)
      · refine .inr (.inr ⟨?_, hhead⟩)
        rw [List.getLast?_cons, hlast]
        rfl

/-- A text that ends in itself and not in a blank keeps fitting when a name inside changes. -/
theorem Fits.around {first last : Char} {xs ys name : List Char} (hname : IsName name)
    (hfirst : isBlank first = false ∧ first ≠ '#' ∧ first ≠ '"' ∧ first ≠ '\'')
    (hlast : isBlank last = false) (old : List Char) :
    Fits ((first :: xs) ++ old ++ (ys ++ [last])) ((first :: xs) ++ name ++ (ys ++ [last])) where
  ne_nil := by simp
  head c hc := by
    obtain rfl : first = c := by simpa using hc
    exact hfirst
  last c hc := by
    rw [← List.append_assoc, List.getLast?_concat, Option.some.injEq] at hc
    exact hc ▸ hlast
  quote q hq hm := by
    have hnot : q ∉ name := hname.not_mem (by rcases hq with rfl | rfl <;> decide)
    simp only [List.mem_append] at hm ⊢
    rcases hm with (hm | hm) | hm
    · exact .inl (.inl hm)
    · exact absurd hm hnot
    · exact .inr hm
  comment b hb hm := by
    have hmark : '#' ∉ name := hname.not_mem (by decide)
    obtain ⟨c, cs, rfl, hc⟩ := hname.exists_cons
    rcases pair_infix_append hm with hm | hm | ⟨hlastb, -⟩
    · rcases pair_infix_append hm with hm | hm | ⟨-, hhead⟩
      · exact hm.trans ⟨[], old ++ (ys ++ [last]), by simp⟩
      · exact absurd (hm.subset (by simp)) hmark
      · obtain rfl : c = '#' := by simpa using hhead
        exact absurd hc (by decide)
    · exact hm.trans (List.suffix_append _ _).isInfix
    · rw [List.getLast?_append_cons] at hlastb
      exact absurd hb (by rw [hname.not_isBlank (List.mem_of_getLast? hlastb)]; simp)

/-! ## Parts -/

theorem partScalars_append (start : Nat) (xs ys : List (List Char)) :
    partScalars start (xs ++ ys) =
      partScalars start xs ++ partScalars (start + width (xs.flatMap (· ++ [',']))) ys := by
  induction xs generalizing start with
  | nil => rfl
  | cons x xs ih =>
    have hw : start + width x + 1 + width (xs.flatMap (· ++ [','])) =
        start + width ((x :: xs).flatMap (· ++ [','])) := by
      simp [show Char.utf8Size ',' = 1 from rfl]; omega
    rw [List.cons_append, partScalars, partScalars, ih, hw, List.append_assoc]

theorem partScalars_move (start d : Nat) (parts : List (List Char)) :
    partScalars (start + d) parts =
      (partScalars start parts).map fun p => ⟨p.start + d, p.text⟩ := by
  induction parts generalizing start with
  | nil => rfl
  | cons part parts ih =>
    have hw : start + d + width part + 1 = start + width part + 1 + d := by omega
    rw [partScalars, partScalars, scalar?_move, hw, ih, List.map_append]
    cases scalar? start part <;> rfl

theorem partScalars_shift {start start' d e : Nat} (h : start + d = start' + e)
    (parts : List (List Char)) : partScalars start' parts =
      (partScalars start parts).map fun p => ⟨p.start + d - e, p.text⟩ := by
  rw [← Nat.zero_add start', ← Nat.zero_add start, partScalars_move 0 start',
    partScalars_move 0 start, List.map_map]
  refine List.map_congr_left ?_
  intro p _
  have hstart : p.start + start' = p.start + start + d - e := by omega
  rw [Function.comp_apply, hstart]

/-- The part that an item was read from. -/
theorem part_of_item {start : Nat} {parts : List (List Char)} {ps qs : List Piece} {p : Piece}
    (h : partScalars start parts = ps ++ p :: qs) :
    ∃ xs part ys, parts = xs ++ part :: ys ∧ partScalars start xs = ps ∧
      scalar? (start + width (xs.flatMap (· ++ [',']))) part = some p ∧
      partScalars (start + width (xs.flatMap (· ++ [','])) + width part + 1) ys = qs := by
  induction parts generalizing start ps with
  | nil => simp [partScalars] at h
  | cons part parts ih =>
    rw [partScalars] at h
    have hw : ∀ xs : List (List Char), start + width part + 1 + width (xs.flatMap (· ++ [','])) =
        start + width ((part :: xs).flatMap (· ++ [','])) := by
      intro xs
      simp [show Char.utf8Size ',' = 1 from rfl]; omega
    cases hs : scalar? start part with
    | none =>
      rw [hs, Option.toList_none, List.nil_append] at h
      obtain ⟨xs, part', ys, rfl, rfl, hp, hqs⟩ := ih h
      exact ⟨part :: xs, part', ys, rfl, by rw [partScalars, hs]; rfl, hw xs ▸ hp, hw xs ▸ hqs⟩
    | some q =>
      rw [hs, Option.toList_some, List.singleton_append] at h
      cases ps with
      | nil =>
        obtain ⟨rfl, rfl⟩ := List.cons.inj h
        exact ⟨[], part, parts, rfl, rfl, hs, rfl⟩
      | cons p' ps =>
        obtain ⟨rfl, htail⟩ := List.cons.inj h
        obtain ⟨xs, part', ys, rfl, rfl, hp, hqs⟩ := ih htail
        exact ⟨part :: xs, part', ys, rfl, by rw [partScalars, hs]; rfl, hw xs ▸ hp, hw xs ▸ hqs⟩

/-- Items stand apart, from left to right. -/
theorem partScalars_pairwise (start : Nat) (parts : List (List Char)) :
    (∀ p ∈ partScalars start parts, start ≤ p.start) ∧
      (partScalars start parts).Pairwise fun p q => p.span.stop < q.span.start := by
  induction parts generalizing start with
  | nil => simp [partScalars]
  | cons part parts ih =>
    obtain ⟨hle, hpair⟩ := ih (start + width part + 1)
    rw [partScalars]
    cases hs : scalar? start part with
    | none => exact ⟨fun p hp => by have := hle p hp; omega, hpair⟩
    | some q =>
      obtain ⟨before, after, hpart, hstart, -⟩ := scalar?_exchange hs
      have hwidth : width part = width before + width q.text + width after := by
        rw [hpart, width_append, width_append]
      refine ⟨fun p hp => ?_, List.pairwise_cons.2 ⟨fun p hp => ?_, hpair⟩⟩
      · rcases List.mem_cons.1 hp with rfl | hp
        · omega
        · have := hle p hp; omega
      · have := hle p hp
        simp only [Piece.span]
        omega

/-! ## Lists in lines -/

theorem listBody_some {text body : List Char} (h : listBody text = some body) :
    text = '[' :: (body ++ [']']) ∧ ∀ c ∈ body, c ∉ ['[', ']', '\x7b', '\x7d'] := by
  unfold listBody at h
  split at h
  · rename_i rest
    split at h
    · rename_i hrest
      obtain ⟨rfl⟩ := Option.some.inj h
      refine ⟨?_, fun c hc hm => ?_⟩
      · rw [List.dropLast_append_getLast? _ hrest.1]
      · have := List.all_eq_true.1 hrest.2 c hc
        rw [Bool.not_eq_true', List.contains_eq_mem, decide_eq_false_iff_not] at this
        exact this hm
    · cases h
  · cases h

theorem listBody_of_brackets {body : List Char}
    (h : ∀ c ∈ body, c ∉ ['[', ']', '\x7b', '\x7d']) :
    listBody ('[' :: (body ++ [']'])) = some body := by
  rw [listBody, if_pos, List.dropLast_concat]
  refine ⟨List.getLast?_concat, ?_⟩
  rw [List.dropLast_concat, List.all_eq_true]
  intro c hc
  rw [Bool.not_eq_true', List.contains_eq_mem, decide_eq_false_iff_not]
  exact h c hc

/-- A stretch between the brackets can become a name. -/
theorem listBody_exchange {text before old after name : List Char}
    (h : listBody text = some (before ++ old ++ after)) (hname : IsName name) :
    Fits text ('[' :: (before ++ name ++ after ++ [']'])) ∧
      listBody ('[' :: (before ++ name ++ after ++ [']'])) = some (before ++ name ++ after) := by
  obtain ⟨htext, hbrackets⟩ := listBody_some h
  constructor
  · have hfits : Fits ('[' :: before ++ old ++ (after ++ [']']))
        ('[' :: before ++ name ++ (after ++ [']'])) :=
      Fits.around hname (by decide) (by decide) old
    rw [htext]
    simpa using hfits
  · refine listBody_of_brackets ?_
    intro c hc hm
    by_cases hcn : c ∈ name
    · refine hname.not_mem ?_ hcn
      simp only [List.mem_cons, List.not_mem_nil, or_false] at hm
      rcases hm with rfl | rfl | rfl | rfl <;> decide
    · refine hbrackets c ?_ hm
      simp only [List.mem_append] at hc ⊢
      tauto

namespace Line

theorem flowItems_some {l : Line} {items : List Piece} (h : l.flowItems = some items) :
    ∃ v body, l.value = some v ∧ listBody v.text = some body ∧
      items = partScalars (v.start + 1) (splitOn ',' body) := by
  unfold flowItems at h
  obtain ⟨v, hv, h⟩ := Option.bind_eq_some_iff.1 h
  obtain ⟨body, hbody, h⟩ := Option.bind_eq_some_iff.1 h
  exact ⟨v, body, hv, hbody, (Option.some.inj h).symm⟩

theorem flowItems_of_value {l : Line} {v : Piece} {body : List Char} (hv : l.value = some v)
    (hbody : listBody v.text = some body) :
    l.flowItems = some (partScalars (v.start + 1) (splitOn ',' body)) := by
  unfold flowItems
  rw [hv, Option.bind_eq_bind, Option.bind_some, hbody]
  rfl

theorem flowItems_pairwise {l : Line} {items : List Piece} (h : l.flowItems = some items) :
    items.Pairwise fun p q => p.span.stop < q.span.start := by
  obtain ⟨v, body, -, -, rfl⟩ := flowItems_some h
  exact (partScalars_pairwise _ _).2

theorem value_of_withValue {l l' : Line} {v w : Piece} (hv : l.value = some v)
    (hk : l'.kind = l.kind.withValue w) : l'.value = some w := by
  unfold value at hv ⊢
  rw [hk]
  cases h : l.kind <;> simp_all [Kind.withValue]

/-- **A line of which a list item becomes another name** has the same items otherwise. -/
theorem flowItems_exchange {l : Line} {ps qs : List Piece} {p : Piece}
    (h : l.flowItems = some (ps ++ p :: qs)) :
    ∃ before after, l.content = before ++ p.text ++ after ∧ p.start = width before ∧
      ∀ name, IsName name → ∀ l' : Line, l'.content = before ++ name ++ after →
        l'.indent = l.indent ∧ (∃ v, l'.kind = l.kind.withValue v) ∧
        l'.flowItems = some (ps ++ ⟨p.start, name⟩ ::
          qs.map fun q => ⟨q.start + width name - width p.text, q.text⟩) := by
  obtain ⟨v, body, hv, hbody, hitems⟩ := flowItems_some h
  obtain ⟨xs, part, ys, hparts, rfl, hscalar, rfl⟩ := part_of_item hitems.symm
  obtain ⟨sbefore, safter, hpart, hstart, -, hnew⟩ := scalar?_exchange hscalar
  obtain ⟨bbefore, bafter, hbodytext, hbbefore, hsplit⟩ := splitOn_exchange hparts
  obtain ⟨vbefore, vafter, hcontent, hvstart, hvalue⟩ := value_exchange hv
  have hbody' : listBody v.text = some ((bbefore ++ sbefore) ++ p.text ++ (safter ++ bafter)) := by
    rw [hbody, hbodytext, hpart]; simp
  obtain ⟨hvtext, -⟩ := listBody_some hbody'
  refine ⟨vbefore ++ '[' :: (bbefore ++ sbefore), safter ++ bafter ++ [']'] ++ vafter, ?_, ?_, ?_⟩
  · rw [hcontent, hvtext]; simp
  · rw [hstart, hvstart, ← hbbefore]
    simp [show Char.utf8Size '[' = 1 from rfl]
    omega
  · intro name hname l' hc
    obtain ⟨hfits, hlist⟩ := listBody_exchange hbody' hname
    obtain ⟨hindent, hkind⟩ := hvalue _ hfits l' (by rw [hc]; simp)
    refine ⟨hindent, ⟨_, hkind⟩, ?_⟩
    have hjoin : bbefore ++ sbefore ++ name ++ (safter ++ bafter) =
        bbefore ++ (sbefore ++ name ++ safter) ++ bafter := by simp
    have hcomma : ',' ∉ sbefore ++ name ++ safter := by
      intro hm
      have hmem : part ∈ splitOn ',' body := by rw [hparts]; simp
      have hnot := not_mem_of_mem_splitOn hmem
      rw [hpart] at hnot
      have := hname.not_mem (c := ',') (by decide)
      simp only [List.mem_append] at hm hnot
      tauto
    have hshift : v.start + 1 + width (xs.flatMap (· ++ [','])) + width part + 1 + width name =
        v.start + 1 + width (xs.flatMap (· ++ [','])) + width (sbefore ++ name ++ safter) + 1 +
          width p.text := by
      rw [hpart]
      simp only [width_append]
      omega
    rw [flowItems_of_value (value_of_withValue hv hkind) hlist, hjoin, hsplit _ hcomma,
      partScalars_append, partScalars, hnew name (fits_of_isName hname _),
      partScalars_shift hshift]
    rfl

/-! ## Where pieces stand -/

theorem key_standsIn {l : Line} {key : Piece} (h : l.key = some key) :
    key.StandsIn l.content := by
  obtain ⟨value, hkind⟩ := kind_of_key h
  obtain ⟨before, after, hcontent, hstart, -⟩ := key_exchange hkind
  exact ⟨before, after, hcontent, hstart⟩

theorem value_standsIn {l : Line} {value : Piece} (h : l.value = some value) :
    value.StandsIn l.content := by
  obtain ⟨before, after, hcontent, hstart, -⟩ := value_exchange h
  exact ⟨before, after, hcontent, hstart⟩

theorem item_standsIn {l : Line} {items : List Piece} {p : Piece}
    (h : l.flowItems = some items) (hp : p ∈ items) : p.StandsIn l.content := by
  obtain ⟨ps, qs, rfl⟩ := List.append_of_mem hp
  obtain ⟨before, after, hcontent, hstart, -⟩ := flowItems_exchange h
  exact ⟨before, after, hcontent, hstart⟩

end Line
end SchemaTidy.Source
