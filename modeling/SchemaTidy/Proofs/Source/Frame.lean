import SchemaTidy.Proofs.Source.Editing

/-! # What edits leave alone

`AgreeOutside` relates a text to one that has other texts in place of some spans of it. Edits of
one line whose spans stand in the line, apart from each other, change it inside these spans
only (`agreeOutside_edited`). -/

namespace SchemaTidy.Source
open Text

/-- The second text is the first one, which starts at byte `n` of its line, but for other texts in
place of spans of the given sort. -/
inductive AgreeOutside (spans : Span → Prop) : Nat → List Char → List Char → Prop where
  | nil {n : Nat} : AgreeOutside spans n [] []
  | keep {n : Nat} {cs cs' : List Char} (c : Char) :
    AgreeOutside spans (n + c.utf8Size) cs cs' → AgreeOutside spans n (c :: cs) (c :: cs')
  | change {n : Nat} {cs cs' : List Char} (old new : List Char) :
    spans ⟨n, n + width old⟩ → AgreeOutside spans (n + width old) cs cs' →
    AgreeOutside spans n (old ++ cs) (new ++ cs')

namespace AgreeOutside

variable {spans : Span → Prop} {n : Nat} {cs cs' : List Char}

theorem append (before : List Char) (h : AgreeOutside spans (n + width before) cs cs') :
    AgreeOutside spans n (before ++ cs) (before ++ cs') := by
  induction before generalizing n with
  | nil => simpa using h
  | cons c before ih =>
    refine .keep c (ih ?_)
    rwa [width_cons, ← Nat.add_assoc] at h

theorem refl (spans : Span → Prop) (n : Nat) (cs : List Char) : AgreeOutside spans n cs cs := by
  have hnil : AgreeOutside spans n (cs ++ []) (cs ++ []) := append cs .nil
  rwa [List.append_nil] at hnil

end AgreeOutside

/-- A byte range that can be cut out of a text. -/
def Span.StandsIn (span : Span) (cs : List Char) : Prop :=
  ∃ before old after, cs = before ++ old ++ after ∧
    span = ⟨width before, width before + width old⟩

theorem Piece.StandsIn.span {p : Piece} {cs : List Char} (h : p.StandsIn cs) :
    p.span.StandsIn cs := by
  obtain ⟨before, after, hcs, hstart⟩ := h
  exact ⟨before, p.text, after, hcs, by rw [Piece.span, hstart]⟩

theorem eq_nil_of_width_eq_zero {cs : List Char} (h : width cs = 0) : cs = [] := by
  cases cs with
  | nil => rfl
  | cons c cs =>
    have := c.utf8Size_pos
    rw [width_cons] at h
    omega

/-- A text cut twice at the same place. -/
theorem append_inj_of_width {before cs front rest : List Char}
    (h : before ++ cs = front ++ rest) (hwidth : width before = width front) :
    before = front ∧ cs = rest := by
  have hcut : some (before, cs) = some (front, rest) := by
    rw [← cutAt_width before, ← cutAt_width front, h, hwidth]
  exact Prod.mk.inj (Option.some.inj hcut)

/-- A text cut at two places, of which the first is no further right. -/
theorem append_of_width_le {before cs front rest : List Char}
    (h : before ++ cs = front ++ rest) (hle : width before ≤ width front) :
    ∃ gap, front = before ++ gap ∧ cs = gap ++ rest := by
  rcases List.append_eq_append_iff.1 h with ⟨gap, hfront, hcs⟩ | ⟨gap, hbefore, hrest⟩
  · exact ⟨gap, hfront, hcs⟩
  · have hgap : gap = [] := eq_nil_of_width_eq_zero (by
      rw [hbefore, width_append] at hle; omega)
    subst hgap
    exact ⟨[], by simpa using hbefore.symm, by simpa using hrest.symm⟩

/-- The edits to the right are made first, so what stands left of them is still in place. -/
theorem edited_content {spans : Span → Prop} {l : Line} {es : List Edit}
    (hpair : es.Pairwise fun a b => a.span.stop ≤ b.span.start) {before cs : List Char}
    (hcontent : l.content = before ++ cs)
    (hes : ∀ e ∈ es, e.span.StandsIn l.content ∧ spans e.span ∧ width before ≤ e.span.start) :
    ∃ cs', (l.edited es).content = before ++ cs' ∧
      AgreeOutside spans (width before) cs cs' := by
  induction es generalizing before cs with
  | nil => exact ⟨cs, hcontent, .refl _ _ _⟩
  | cons e es ih =>
    obtain ⟨hstop, hpair⟩ := List.pairwise_cons.1 hpair
    obtain ⟨⟨front, old, after, hcut, hspan⟩, hspans, hle⟩ := hes e List.mem_cons_self
    obtain ⟨gap, hfront, hcs⟩ : ∃ gap, front = before ++ gap ∧ cs = gap ++ (old ++ after) := by
      refine append_of_width_le ?_ (by simpa [hspan] using hle)
      rw [← hcontent, hcut, List.append_assoc]
    obtain ⟨cs', hcs', hagree⟩ := ih hpair hcut
      fun e' he' => by
        obtain ⟨hstands, hspans', -⟩ := hes e' (List.mem_cons_of_mem _ he')
        refine ⟨hstands, hspans', ?_⟩
        simpa [hspan] using hstop e' he'
    rw [width_append] at hagree
    rw [Line.edited_cons]
    generalize l.edited es = l' at hcs'
    have hwidth : width before + width gap = width front := by rw [hfront, width_append]
    unfold Edit.onLine
    split
    · refine ⟨gap ++ (old ++ cs'), by rw [hcs', hfront]; simp, ?_⟩
      rw [hcs]
      exact .append gap (.append old (by rwa [hwidth]))
    · rw [hspan, splice?_of_content hcs']
      refine ⟨gap ++ (e.replacement ++ cs'), by simp [hfront], ?_⟩
      rw [hcs]
      refine .append gap (.change old e.replacement ?_ (by rwa [hwidth]))
      rwa [hwidth, ← hspan]

/-- **Edits that stand apart in a line change it inside their spans only.** -/
theorem agreeOutside_edited {spans : Span → Prop} {l : Line} {es : List Edit}
    (hpair : es.Pairwise fun a b => a.span.stop ≤ b.span.start)
    (hes : ∀ e ∈ es, e.span.StandsIn l.content ∧ spans e.span) :
    AgreeOutside spans 0 l.content (l.edited es).content := by
  have hcontent : l.content = [] ++ l.content := rfl
  obtain ⟨cs', hcs', hagree⟩ := edited_content hpair hcontent
    fun e he => ⟨(hes e he).1, (hes e he).2, Nat.zero_le _⟩
  rw [hcs']
  exact hagree

end SchemaTidy.Source
