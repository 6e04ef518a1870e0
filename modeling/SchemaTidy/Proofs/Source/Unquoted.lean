import SchemaTidy.Proofs.Source.Frame

/-! # Values without quotes

Such a value is trimmed, and what stands behind it on the line are blanks and a comment. A comment
that a space opens is looked for before one that a tab opens, so that the value can hold the start of
a comment behind a tab. Main statement: `unquoted_value_ends`. -/

namespace SchemaTidy.Source
open Text

variable {l : Line} {v p : Piece} {start : Nat} {raw text value before after : List Char}

/-! ## Where a comment is cut off -/

/-- Only a comment that a space opens can be cut off behind the mark of another comment. -/
theorem beforeComment_cut (text : List Char) :
    ∃ rest, text = beforeComment text ++ rest ∧
      (rest = [] ∨ ∃ opener comment, rest = opener :: '#' :: comment ∧
        (opener = ' ' ∨ opener = '\t')) ∧
      (['\t', '#'] <:+: beforeComment text → ∃ comment, rest = ' ' :: '#' :: comment) := by
  have hmark {b : Char} {front rest : List Char} (h : splitBefore [b, '#'] text = some (front, rest)) :
      text = front ++ rest ∧ ∃ comment, rest = b :: '#' :: comment := by
    obtain ⟨htext, hpre⟩ := splitBefore_sound h
    obtain ⟨comment, rfl⟩ := List.isPrefixOf_iff_prefix.1 hpre
    exact ⟨htext, comment, rfl⟩
  cases hspace : splitBefore [' ', '#'] text with
  | some cut =>
    obtain ⟨htext, comment, hrest⟩ := hmark hspace
    have hbefore : beforeComment text = cut.1 := by
      unfold beforeComment
      rw [hspace]
      rfl
    rw [hbefore]
    exact ⟨cut.2, htext, .inr ⟨' ', comment, hrest, .inl rfl⟩, fun _ => ⟨comment, hrest⟩⟩
  | none =>
    have hnot := not_tab_mark_beforeComment (splitBefore_eq_none_iff.1 hspace)
    cases htab : splitBefore ['\t', '#'] text with
    | some cut =>
      obtain ⟨htext, comment, hrest⟩ := hmark htab
      have hbefore : beforeComment text = cut.1 := by
        unfold beforeComment
        rw [hspace, htab]
        rfl
      refine ⟨cut.2, hbefore ▸ htext, .inr ⟨'\t', comment, hrest, .inr rfl⟩, fun h => absurd h hnot⟩
    | none =>
      have hbefore : beforeComment text = text := by
        unfold beforeComment
        rw [hspace, htab]
        rfl
      exact ⟨[], by rw [hbefore, List.append_nil], .inl rfl, fun h => absurd h hnot⟩

/-! ## Scalars -/

theorem head_trimStart {c : Char} (h : (trimStart raw).head? = some c) : isBlank c = false := by
  have hhead := List.head?_dropWhile_not isBlank raw
  rw [trimStart] at h
  rw [h] at hhead
  exact hhead

/-- A scalar stands between quotes of its own, or it is what remains of the text before a
comment. -/
theorem scalar?_cases (h : scalar? start raw = some p) :
    (∃ lead q after, (q = '"' ∨ q = '\'') ∧ raw = lead ++ [q] ++ p.text ++ after ∧
      p.start = start + width (lead ++ [q])) ∨
    ∃ lead after, raw = lead ++ p.text ++ after ∧ p.start = start + width lead ∧ p.text ≠ [] ∧
      (∀ c, p.text.head? = some c → isBlank c = false) ∧
      trimEnd (beforeComment (p.text ++ after)) = p.text := by
  have hraw : raw.takeWhile isBlank ++ trimStart raw = raw := List.takeWhile_append_dropWhile
  rcases scalar?_eq_some h with ⟨q, rest, hq, -, htext, hstart⟩ | ⟨hne, htrim, hstart⟩
  · have hsize : q.utf8Size = 1 := by rcases hq with rfl | rfl <;> rfl
    refine .inl ⟨raw.takeWhile isBlank, q, q :: rest, hq, ?_, ?_⟩
    · rw [htext] at hraw
      simpa using hraw.symm
    · simp [hstart, hsize, Nat.add_assoc]
  · obtain ⟨after, htext⟩ : ∃ after, trimStart raw = p.text ++ after := by
      obtain ⟨blanks, hblanks, -⟩ := trimEnd_append_blanks (beforeComment (trimStart raw))
      obtain ⟨tail, htail⟩ := beforeComment_prefix_self (trimStart raw)
      exact ⟨blanks ++ tail, by rw [← htrim, ← List.append_assoc, ← hblanks, htail]⟩
    refine .inr ⟨raw.takeWhile isBlank, after, ?_, hstart, hne, fun c hc => ?_, ?_⟩
    · rw [List.append_assoc, ← htext, hraw]
    · have hhead : (trimStart raw).head? = some c := by
        rw [htext, List.head?_append_of_ne_nil _ hne]
        exact hc
      exact head_trimStart hhead
    · rw [← htext, htrim]

/-! ## Lines -/

/-- What may stand behind a value: blanks, and a comment that a space or a tab opens. -/
inductive Trails : List Char → Prop where
  | blanks {blanks : List Char} (hblanks : blanks.all isBlank = true) : Trails blanks
  | comment {blanks : List Char} (hblanks : blanks.all isBlank = true) {opener : Char}
      (hopener : opener = ' ' ∨ opener = '\t') (comment : List Char) :
      Trails (blanks ++ opener :: '#' :: comment)

theorem trails_of_trimEnd (h : trimEnd (beforeComment (value ++ after)) = value) :
    ¬ [' ', '#'] <:+: value ∧ Trails after ∧
      (['\t', '#'] <:+: value →
        ∃ blanks comment, blanks.all isBlank = true ∧ after = blanks ++ ' ' :: '#' :: comment) := by
  obtain ⟨blanks, hbefore, hblanks⟩ := trimEnd_append_blanks (beforeComment (value ++ after))
  rw [h] at hbefore
  obtain ⟨rest, htext, hrest, htab⟩ := beforeComment_cut (value ++ after)
  have hinfix : value <:+: beforeComment (value ++ after) := ⟨[], blanks, by rw [hbefore]; simp⟩
  obtain rfl : after = blanks ++ rest := by
    rw [hbefore, List.append_assoc] at htext
    exact List.append_cancel_left htext
  refine ⟨fun hm => not_space_mark_beforeComment _ (hm.trans hinfix), ?_, fun hm => ?_⟩
  · rcases hrest with rfl | ⟨opener, comment, rfl, hopener⟩
    · rw [List.append_nil]
      exact .blanks hblanks
    · exact .comment hblanks hopener comment
  · obtain ⟨comment, rfl⟩ := htab (hm.trans hinfix)
    exact ⟨blanks, comment, hblanks, rfl⟩

/-- The text of the line that a value is read from. -/
theorem Line.scalar?_of_value (h : l.value = some v) :
    ∃ lead raw, l.content = lead ++ raw ∧ scalar? (width lead) raw = some v := by
  unfold Line.value at h
  split at h
  next key value hkind =>
    subst h
    obtain ⟨cut, hcut, -, rfl, hscalar⟩ := Line.key?_of_kind hkind
    obtain ⟨before, colon, hsits⟩ := key?_sits hcut
    refine ⟨l.spaces ++ (before ++ cut.key.text ++ colon), cut.after, ?_, ?_⟩
    · rw [l.content_eq, hsits.text_eq, ← List.append_assoc]
    · rw [width_append, Line.width_spaces_eq, ← hsits.valueStart_eq, hscalar]
  next value hkind =>
    subst h
    rcases Line.scalar?_of_item hkind with ⟨-, hnone⟩ | ⟨rest, hbody, hscalar⟩
    · cases hnone
    · refine ⟨l.spaces ++ ['-'], ' ' :: rest, ?_, ?_⟩
      · rw [l.content_eq, hbody, List.append_assoc, List.singleton_append]
      · rw [width_append, Line.width_spaces_eq]
        exact hscalar
  next => cases h

/-- **A value without quotes of its own is trimmed, and blanks and a comment stand behind it.** It
never holds the mark of a comment that a space opens; it holds that of one that a tab opens only where
a comment that a space opens stands behind it. -/
theorem Line.unquoted_value_ends (h : l.value = some v)
    (hcontent : l.content = before ++ v.text ++ after) (hstart : v.start = width before)
    (hquote : before.getLast? ≠ some '"' ∧ before.getLast? ≠ some '\'') :
    (v.text ≠ [] ∧ (∀ c, v.text.head? = some c → isBlank c = false) ∧
      ∀ c, v.text.getLast? = some c → isBlank c = false) ∧
    ¬ [' ', '#'] <:+: v.text ∧ Trails after ∧
    (['\t', '#'] <:+: v.text →
      ∃ blanks comment, blanks.all isBlank = true ∧ after = blanks ++ ' ' :: '#' :: comment) := by
  obtain ⟨lead, raw, hline, hscalar⟩ := Line.scalar?_of_value h
  rw [hline, List.append_assoc] at hcontent
  rcases scalar?_cases hscalar with
    ⟨blanks, q, rest, hq, rfl, hwidth⟩ | ⟨blanks, rest, rfl, hwidth, hne, hhead, htrim⟩
  · -- the opening quote is the last character in front of the value
    have hcut : before ++ (v.text ++ after) = (lead ++ blanks ++ [q]) ++ (v.text ++ rest) := by
      rw [← hcontent]
      simp
    obtain ⟨rfl, -⟩ := append_inj_of_width hcut (by rw [← hstart, hwidth]; simp)
    rw [List.getLast?_concat] at hquote
    rcases hq with rfl | rfl
    · exact absurd rfl hquote.1
    · exact absurd rfl hquote.2
  · have hcut : before ++ (v.text ++ after) = (lead ++ blanks) ++ (v.text ++ rest) := by
      rw [← hcontent]
      simp
    obtain ⟨-, hafter⟩ := append_inj_of_width hcut (by rw [← hstart, hwidth, width_append])
    obtain rfl := List.append_cancel_left hafter
    obtain ⟨hspace, htrails, htab⟩ := trails_of_trimEnd htrim
    exact ⟨⟨hne, hhead, fun c hc => not_isBlank_getLast_trimEnd (htrim.symm ▸ hc)⟩, hspace,
      htrails, htab⟩

/-- A mark inside of a word opens no comment, and one behind a tab and a space does. -/
theorem Line.unquoted_value_ends_tab_and_space :
    let l : Line := ⟨"  - a#b\t # c # d".toList, .lf⟩
    l.value = some ⟨4, "a#b".toList⟩ ∧ ¬ [' ', '#'] <:+: "a#b".toList ∧
      Trails "\t # c # d".toList := by
  intro l
  have hvalue : l.value = some ⟨4, "a#b".toList⟩ := by decide +kernel
  obtain ⟨-, hspace, htrails, -⟩ :=
    @Line.unquoted_value_ends l _ "  - ".toList "\t # c # d".toList hvalue
      (by decide) (by decide) (by decide)
  exact ⟨hvalue, hspace, htrails⟩

/-- The comment behind the tab is cut off only where a space opens another one. -/
theorem Line.value_holds_comment :
    let l : Line := ⟨"    range: string\t# see #12".toList, .lf⟩
    let v : Piece := ⟨11, "string\t# see".toList⟩
    l.value = some v ∧ l.content = "    range: ".toList ++ v.text ++ " #12".toList ∧
      v.start = width "    range: ".toList ∧ ['\t', '#'] <:+: v.text := by
  decide +kernel

end SchemaTidy.Source
