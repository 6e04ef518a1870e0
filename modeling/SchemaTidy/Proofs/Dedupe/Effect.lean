import SchemaTidy.Proofs.Dedupe.Settled
import SchemaTidy.Proofs.Source.NewKey

/-! # Which renames take effect

Main statement: `renames_take_effect`. A rename is written over the key of its definition unless
the new name would break the line, and what was written is read as a key just when it is so alone
on a line. So a resolution may report renames that no line shows, see `rename_without_effect`. -/

namespace SchemaTidy.Dedupe
open Source Text

variable {indent : Nat} {ls : List Line}

/-- The line of a rename is an entry with the new name, one level under its section. -/
def Rename.InEffect (r : Rename) (indent : Nat) (ls : List Line) : Prop :=
  ∃ l, ls[r.line]? = some l ∧ l.IsEntryAt indent r.renamed

instance (r : Rename) (indent : Nat) (ls : List Line) : Decidable (r.InEffect indent ls) :=
  decidable_of_iff ((ls[r.line]?).any fun l => l.IsEntryAt indent r.renamed) (by
    simp [Rename.InEffect, Option.any_eq_true])

/-! ## One rename -/

/-- The line of a rename is edited once, by this rename. -/
theorem lineEdits_of_rename {r : Rename} (hr : r ∈ plan indent ls) :
    lineEdits indent ls r.line = [r.edit] := by
  have hkey := (repeatsAt_of_mem_plan hr).1
  have hedit : r.edit ∈ lineEdits indent ls r.line :=
    mem_lineEdits.2 ⟨List.mem_append_left _ (List.mem_map_of_mem hr), rfl⟩
  have hall : ∀ e ∈ lineEdits indent ls r.line, e = r.edit := by
    intro e he
    obtain ⟨r', hr', hline, rfl⟩ := rename_of_mem_lineEdits hkey he
    rw [plan_unique hr' hr hline]
  have hpair := lineEdits_pairwise indent ls r.line
  match hes : lineEdits indent ls r.line with
  | [] => rw [hes] at hedit; cases hedit
  | [e] => rw [hall e (by simp [hes])]
  | e :: e' :: es =>
    rw [hes, List.pairwise_cons] at hpair
    have hlt := hpair.1 e' List.mem_cons_self
    rw [hall e (by simp [hes]), hall e' (by simp [hes])] at hlt
    exact absurd hlt (Nat.not_lt.2 (Nat.le_add_right _ _))

/-- A new name is made of the old one and of an underscore. -/
theorem replaces_of_mem_plan {r : Rename} (hr : r ∈ plan indent ls) :
    Replaces r.key.text r.renamed := by
  obtain ⟨name, k, d, -, -, rfl⟩ := mem_assign_iff.1 hr
  rw [renameAt_key]
  unfold renameAt
  split
  · rename_i owner _
    exact ⟨by simp, .inl ⟨lowercase owner ++ ['_'], by simp⟩⟩
  · have hne : Nat.toDigits 10 (k + 1) ≠ [] := Nat.toDigits_ne_nil
    have hdigit := Nat.isDigit_of_mem_toDigits (by decide) (by decide) (List.getLast_mem hne)
    refine ⟨by simp, .inr ⟨(Nat.toDigits 10 (k + 1)).getLast hne, ?_, ?_⟩⟩
    · simp [List.getLast?_append, List.getLast?_cons, List.getLast?_eq_some_getLast hne]
    · simp [isNameChar, Char.isAlphanum, hdigit]

theorem getElem?_resolved_of_rename {r : Rename} (hr : r ∈ plan indent ls) {l : Line}
    (hl : ls[r.line]? = some l) : (resolved indent ls)[r.line]? = some (r.edit.onLine l) := by
  rw [getElem?_resolved hl, lineEdits_of_rename hr]
  rfl

theorem renamed_ne_key {r : Rename} (hr : r ∈ plan indent ls) : r.renamed ≠ r.key.text := by
  intro heq
  have hwidth := (definition_of_mem_assign (definitions_pairwise indent ls) hr).2.2
  rw [heq] at hwidth
  exact Nat.lt_irrefl _ hwidth

/-- A rename is in effect just when it is written and its name is read as the key it is. -/
theorem inEffect_resolved_iff {r : Rename} (hr : r ∈ plan indent ls) {l : Line}
    (hl : ls[r.line]? = some l) :
    r.InEffect indent (resolved indent ls) ↔
      breaksLine r.renamed = false ∧ ReadsAsKey l.keyQuote r.renamed := by
  obtain ⟨hindent, hkey⟩ := (repeatsAt_of_mem_plan hr).1.line hl
  have heffect : r.InEffect indent (resolved indent ls) ↔
      (r.edit.onLine l).IsEntryAt indent r.renamed := by
    rw [Rename.InEffect, getElem?_resolved_of_rename hr hl]
    simp
  rw [heffect]
  cases hbreaks : breaksLine r.renamed with
  | true =>
    rw [Edit.onLine_of_breaksLine hbreaks]
    refine iff_of_false ?_ (by simp)
    rintro ⟨-, hhas⟩
    obtain ⟨key, hkey', htext⟩ := Line.hasKey_iff.1 hhas
    rw [hkey] at hkey'
    obtain rfl := Option.some.inj hkey'
    exact renamed_ne_key hr htext.symm
  | false =>
    obtain ⟨before, after, hcontent, hstart, hiff⟩ := isEntryAt_replaced_iff hkey
    have hnew : (r.edit.onLine l).content = before ++ r.renamed ++ after :=
      Edit.onLine_content hbreaks rfl hcontent hstart
    rw [← hindent, hiff _ (replaces_of_mem_plan hr) _ hnew]
    simp

/-! ## The whole text -/

/-- When no rename can be written, no reference follows one either. -/
theorem resolved_of_breaksLine (h : ∀ r ∈ plan indent ls, breaksLine r.renamed = true) :
    resolved indent ls = ls := by
  refine List.ext_getElem? fun i => ?_
  cases hl : ls[i]? with
  | none => rw [List.getElem?_eq_none_iff, length_resolved, ← List.getElem?_eq_none_iff, hl]
  | some l =>
    have hedits : ∀ e ∈ lineEdits indent ls i, breaksLine e.replacement = true := by
      intro e he
      obtain ⟨_, r, hr, -, -, hreplacement, -⟩ := piece_of_mem_planEdits (mem_lineEdits.1 he).1
      rw [hreplacement]
      exact h r hr
    have hsame : ∀ es : List Edit, (∀ e ∈ es, breaksLine e.replacement = true) → l.edited es = l := by
      intro es hes
      induction es with
      | nil => rfl
      | cons e es ih =>
        rw [Line.edited_cons, ih fun e' he' => hes e' (List.mem_cons_of_mem _ he'),
          Edit.onLine_of_breaksLine (hes e List.mem_cons_self)]
    rw [getElem?_resolved hl, hsame _ hedits]

theorem resolved_ne_of_rename {r : Rename} (hr : r ∈ plan indent ls)
    (hbreaks : breaksLine r.renamed = false) : resolved indent ls ≠ ls := by
  intro heq
  obtain ⟨_, _, l, -, -, -, hl, -, hkey⟩ := (repeatsAt_of_mem_plan hr).1
  obtain ⟨before, after, hcontent, hstart⟩ := Line.key_standsIn hkey
  have hnew := getElem?_resolved_of_rename hr hl
  rw [heq, hl] at hnew
  have hsame : before ++ r.key.text ++ after = before ++ r.renamed ++ after := by
    rw [← hcontent, ← show _ = before ++ r.renamed ++ after from
      Edit.onLine_content (e := r.edit) hbreaks rfl hcontent hstart, ← Option.some.inj hnew]
  exact renamed_ne_key hr (List.append_cancel_left (List.append_cancel_right hsame)).symm

theorem resolve_text_ne_iff (indentWidth : Nat) (text : List Char) :
    (resolve indentWidth text).text ≠ text ↔
      ∃ r ∈ (resolve indentWidth text).renames, breaksLine r.renamed = false := by
  have htext : (resolve indentWidth text).text ≠ text ↔
      resolved (max indentWidth 1) (lines text) ≠ lines text := by
    refine not_congr ⟨fun h => ?_, fun h => ?_⟩
    · rw [← lines_resolve, h]
    · rw [resolve_eq, h, text_lines]
  rw [htext, resolve_eq]
  constructor
  · intro hne
    by_contra hnone
    push Not at hnone
    exact hne (resolved_of_breaksLine fun r hr => by simpa using hnone r hr)
  · rintro ⟨r, hr, hbreaks⟩
    exact resolved_ne_of_rename hr hbreaks

/-- **Which renames take effect.** One does just when its name breaks no line and is read as the
key that it is, in the quotes of the old key. The text changes just when one of the names breaks no
line. In particular, when all new names consist of letters, digits and underscores, all renames
take effect, and the text changes just when there are any. -/
theorem renames_take_effect (indentWidth : Nat) (text : List Char) :
    let indent := max indentWidth 1
    let o := resolve indentWidth text
    (∀ r ∈ o.renames, ∃ l, (lines text)[r.line]? = some l ∧
      (r.InEffect indent (lines o.text) ↔
        breaksLine r.renamed = false ∧ ReadsAsKey l.keyQuote r.renamed)) ∧
    (o.text ≠ text ↔ ∃ r ∈ o.renames, breaksLine r.renamed = false) ∧
    ((∀ r ∈ o.renames, r.renamed.all isNameChar = true) →
      (∀ r ∈ o.renames, r.InEffect indent (lines o.text)) ∧ (o.changed = true ↔ o.text ≠ text)) := by
  intro indent o
  have hline : ∀ r ∈ o.renames, ∃ l, (lines text)[r.line]? = some l ∧
      (r.InEffect indent (lines o.text) ↔
        breaksLine r.renamed = false ∧ ReadsAsKey l.keyQuote r.renamed) := by
    intro r hr
    have hlines : lines o.text = resolved indent (lines text) := lines_resolve indentWidth text
    have hplan : r ∈ plan indent (lines text) := by simpa only [o, resolve_eq] using hr
    obtain ⟨_, _, l, -, -, -, hl, -⟩ := (repeatsAt_of_mem_plan hplan).1
    exact ⟨l, hl, hlines ▸ inEffect_resolved_iff hplan hl⟩
  have htext : o.text ≠ text ↔ ∃ r ∈ o.renames, breaksLine r.renamed = false :=
    resolve_text_ne_iff indentWidth text
  refine ⟨hline, htext, fun hnames => ?_⟩
  have hunbroken : ∀ r ∈ o.renames, breaksLine r.renamed = false := by
    intro r hr
    rw [breaksLine, List.any_eq_false]
    intro c hc hbreak
    have hchar := List.all_eq_true.1 (hnames r hr) c hc
    rw [Bool.or_eq_true, beq_iff_eq, beq_iff_eq] at hbreak
    rcases hbreak with rfl | rfl <;> exact absurd hchar (by decide)
  refine ⟨fun r hr => ?_, ?_⟩
  · obtain ⟨l, -, hiff⟩ := hline r hr
    have hplan : r ∈ plan indent (lines text) := by simpa only [o, resolve_eq] using hr
    have hname : IsName r.renamed :=
      ⟨List.ne_nil_of_mem (replaces_of_mem_plan hplan).underscore,
        List.all_eq_true.1 (hnames r hr)⟩
    exact hiff.2 ⟨hunbroken r hr, readsAsKey_of_isName hname l⟩
  · rw [htext, Outcome.changed, Bool.not_eq_true', List.isEmpty_eq_false_iff_exists_mem]
    refine exists_congr fun r => ?_
    rw [and_iff_left_of_imp (hunbroken r)]

/-- The second class has a name with a colon and a blank in it, the definition named after it is
quoted. The name is written and read back there; without the quotes it would not be. -/
theorem renames_take_effect_quoted :
    let text :=
      "classes:\n  P:\n    slots: [a]\n  \"Q: x\":\n    slots: [a]\nslots:\n  a:\n  'a':\n".toList
    ∃ r ∈ (resolve 2 text).renames, r.renamed = "q: x_a".toList ∧
      r.InEffect 2 (lines (resolve 2 text).text) ∧ (resolve 2 text).text ≠ text := by
  intro text
  have hr : (⟨7, ⟨3, ['a']⟩, "q: x_a".toList, some "Q: x".toList⟩ : Rename) ∈
      (resolve 2 text).renames := by decide
  obtain ⟨heffect, htext, -⟩ := renames_take_effect 2 text
  obtain ⟨l, hl, hiff⟩ := heffect _ hr
  obtain rfl : l = ⟨"  'a':".toList, .lf⟩ := Option.some.inj (hl.symm.trans (by decide))
  exact ⟨_, hr, rfl, hiff.2 (by decide), htext.2 ⟨_, hr, by decide⟩⟩

/-- A name with a carriage return in it is not written. The rename is reported all the same, and
the outcome counts as changed. -/
theorem rename_without_effect :
    let text :=
      "classes:\n  P:\n    slots: [a]\n  \"Q\rx\":\n    slots: [a]\nslots:\n  a:\n  a:\n".toList
    let o := resolve 2 text
    o.renames = [⟨7, ⟨2, ['a']⟩, "q\rx_a".toList, some "Q\rx".toList⟩] ∧ o.changed = true ∧
      o.text = text ∧ ∀ r ∈ o.renames, ¬ r.InEffect 2 (lines o.text) := by
  intro text o
  have hrenames : o.renames = [⟨7, ⟨2, ['a']⟩, "q\rx_a".toList, some "Q\rx".toList⟩] := by decide
  have hbreaks : ∀ r ∈ o.renames, breaksLine r.renamed = true := by rw [hrenames]; decide
  have htext : o.text = text := by
    by_contra hne
    obtain ⟨r, hr, hwritten⟩ := (resolve_text_ne_iff 2 text).1 hne
    simp [hbreaks r hr] at hwritten
  refine ⟨hrenames, by decide, htext, fun r hr => ?_⟩
  rw [htext]
  obtain rfl := List.mem_singleton.1 (hrenames ▸ hr)
  decide

end SchemaTidy.Dedupe
