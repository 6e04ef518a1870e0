import SchemaTidy.Dedupe.Resolve
import SchemaTidy.Proofs.Dedupe.Plan
import SchemaTidy.Proofs.Source.Frame

/-! # The edits of a resolution

`plan` lists the renames for the lines of a text, and `planEdits` the edits that carry them out,
references included; no two edits of a line meet. Resolving a text makes these edits and nothing
else (`resolve_eq`), and the lines of the result are the edited lines (`lines_resolve`), each with
the edits of that line (`getElem?_resolved`). -/

namespace SchemaTidy.Dedupe
open Source Text

/-- The renames for the lines of a text. -/
def plan (indent : Nat) (ls : List Line) : List Rename :=
  assign (duplicates (definitions indent ls)) (classBlocks indent ls)

def planEdits (indent : Nat) (ls : List Line) : List Edit :=
  (plan indent ls).map (·.edit) ++ propagate (plan indent ls) (classBlocks indent ls)

/-- The lines with all renames made. -/
def resolved (indent : Nat) (ls : List Line) : List Line := apply ls (planEdits indent ls)

theorem resolve_eq (indentWidth : Nat) (text : List Char) :
    resolve indentWidth text =
      ⟨Source.text (resolved (max indentWidth 1) (lines text)),
        plan (max indentWidth 1) (lines text)⟩ := by
  unfold resolve
  dsimp only
  split
  · rename_i hnone
    have hplan : plan (max indentWidth 1) (lines text) = [] := by rw [plan, hnone]; rfl
    have hedits : planEdits (max indentWidth 1) (lines text) = [] := by
      rw [planEdits, hplan, List.map_nil, List.nil_append, List.eq_nil_iff_forall_not_mem]
      intro e he
      obtain ⟨c, -, r, -, v, hv, -⟩ := mem_propagate_iff.1 he
      exact absurd (mem_of_variantFor hv) (by simp)
    rw [hplan, resolved, hedits, apply, List.mergeSort_nil, List.foldl_nil, text_lines]
  · rfl

theorem replacement_ne_nil {indent : Nat} {ls : List Line} {e : Edit}
    (h : e ∈ planEdits indent ls) : e.replacement ≠ [] := by
  have hne : ∀ r ∈ plan indent ls, r.renamed ≠ [] := by
    intro r hr hnil
    have := (definition_of_mem_assign (definitions_pairwise indent ls) hr).2.2
    rw [hnil] at this
    exact absurd this (Nat.not_lt_zero _)
  rcases List.mem_append.1 h with h | h
  · obtain ⟨r, hr, rfl⟩ := List.mem_map.1 h
    exact hne r hr
  · obtain ⟨c, -, r, -, v, hv, rfl⟩ := mem_propagate_iff.1 h
    exact hne v (List.mem_of_mem_filter (mem_of_variantFor hv))

/-- The lines of the resolved text are the lines of the text, edited. -/
theorem lines_resolve (indentWidth : Nat) (text : List Char) :
    lines (resolve indentWidth text).text = resolved (max indentWidth 1) (lines text) := by
  rw [resolve_eq]
  exact lines_text ((canonical_lines text).apply fun e he => replacement_ne_nil he)

/-- A slot name listed by a class, at this place. -/
def ListedAt (indent : Nat) (ls : List Line) (i : Nat) (item : Piece) : Prop :=
  ∃ c ∈ classBlocks indent ls, (⟨i, item⟩ : Reference) ∈ c.references

theorem ListedAt.line {indent : Nat} {ls : List Line} {i : Nat} {item : Piece}
    (h : ListedAt indent ls i item) :
    ∃ start stop l, topSection ls classesName = some (start, stop) ∧ start ≤ i ∧ i < stop ∧
      ls[i]? = some l ∧ ListedIn (2 * indent) l item := by
  obtain ⟨c, hc, hr⟩ := h
  obtain ⟨l, hl, hlisted⟩ := listedIn_of_mem_blocksIn hc hr
  obtain ⟨start, stop, hsection, hstart, hstop, hget⟩ := mem_sectionLines.1 hl
  exact ⟨start, stop, l, hsection, hstart, hstop, hget, hlisted⟩

theorem ListedAt.listedIn {indent : Nat} {ls : List Line} {i : Nat} {item : Piece} {l : Line}
    (h : ListedAt indent ls i item) (hl : ls[i]? = some l) : ListedIn (2 * indent) l item := by
  obtain ⟨_, _, l', -, -, -, hl', hlisted⟩ := h.line
  rw [hl] at hl'
  exact Option.some.inj hl' ▸ hlisted

/-- No line holds a definition and a reference. -/
theorem DefinesAt.not_listedAt {indent : Nat} {ls : List Line} {i : Nat} {key : Piece}
    (h : DefinesAt indent ls i key) (item : Piece) : ¬ ListedAt indent ls i item := by
  obtain ⟨start, stop, l, hsection, hstart, hstop, -⟩ := h
  intro hlisted
  obtain ⟨start', stop', l', hsection', hstart', hstop', -⟩ := hlisted.line
  exact topSection_disjoint (by decide) hsection hsection' ⟨hstart, hstop⟩ ⟨hstart', hstop'⟩

/-- A definition of a name that an earlier line defines too. -/
def RepeatsAt (indent : Nat) (ls : List Line) (i : Nat) (key : Piece) : Prop :=
  DefinesAt indent ls i key ∧ ∃ j key', j < i ∧ DefinesAt indent ls j key' ∧ key'.text = key.text

theorem repeatsAt_of_mem_plan {indent : Nat} {ls : List Line} {r : Rename}
    (h : r ∈ plan indent ls) : RepeatsAt indent ls r.line r.key := by
  obtain ⟨hmem, ⟨d, hd, hlt, hname⟩, -⟩ :=
    definition_of_mem_assign (definitions_pairwise indent ls) h
  exact ⟨mem_definitions_iff.1 hmem, d.line, d.key, hlt, mem_definitions_iff.1 hd, hname⟩

/-- Every edit carries a rename out: in the key of the repeated definition or in a reference. -/
theorem piece_of_mem_planEdits {indent : Nat} {ls : List Line} {e : Edit}
    (h : e ∈ planEdits indent ls) :
    ∃ p, ∃ r ∈ plan indent ls, e.span = p.span ∧ r.name = p.text ∧ e.replacement = r.renamed ∧
      (RepeatsAt indent ls e.line p ∨ ListedAt indent ls e.line p) := by
  rcases List.mem_append.1 h with h | h
  · obtain ⟨r, hr, rfl⟩ := List.mem_map.1 h
    exact ⟨r.key, r, hr, rfl, rfl, rfl, .inl (repeatsAt_of_mem_plan hr)⟩
  · obtain ⟨c, hc, r, hr, v, hv, rfl⟩ := mem_propagate_iff.1 h
    obtain ⟨hmem, hname⟩ := List.mem_filter.1 (mem_of_variantFor hv)
    exact ⟨r.item, v, hmem, rfl, beq_iff_eq.1 hname, rfl, .inr ⟨c, hc, hr⟩⟩

/-- Edits of one line stand apart, from left to right. -/
theorem planEdits_pairwise (indent : Nat) (ls : List Line) :
    (planEdits indent ls).Pairwise fun a b =>
      a.line = b.line → a.span.stop < b.span.start := by
  unfold planEdits
  rw [List.pairwise_append]
  refine ⟨?_, ?_, fun a ha b hb hline => ?_⟩
  · rw [List.pairwise_map]
    exact (assign_pairwise (definitions_pairwise indent ls)).imp fun hne heq => absurd heq hne
  · refine (propagate_pairwise (references_pairwise (sectionLines_pairwise ls _))).imp ?_
    rintro a b (hlt | ⟨-, hlt⟩) hline
    · omega
    · exact hlt
  · obtain ⟨r, hr, rfl⟩ := List.mem_map.1 ha
    obtain ⟨c, hc, r', hr', v, -, rfl⟩ := mem_propagate_iff.1 hb
    have hlisted : ListedAt indent ls r'.line r'.item := ⟨c, hc, hr'⟩
    have hline' : r.line = r'.line := hline
    exact absurd (hline' ▸ hlisted) ((repeatsAt_of_mem_plan hr).1.not_listedAt r'.item)

/-! ## Line by line -/

/-- The spans of line `i` that a resolution may change. -/
def MayChange (indent : Nat) (ls : List Line) (i : Nat) (span : Span) : Prop :=
  ∃ p : Piece, p.span = span ∧ (RepeatsAt indent ls i p ∨ ListedAt indent ls i p)

theorem MayChange.standsIn {indent i : Nat} {ls : List Line} {span : Span} {l : Line}
    (h : MayChange indent ls i span) (hl : ls[i]? = some l) : span.StandsIn l.content := by
  obtain ⟨p, rfl, ⟨hdefines, -⟩ | hlisted⟩ := h
  · exact (Line.key_standsIn (hdefines.line hl).2).span
  · exact (hlisted.listedIn hl).standsIn.span

/-- The edits of one line, from left to right. -/
def lineEdits (indent : Nat) (ls : List Line) (i : Nat) : List Edit :=
  (planEdits indent ls).filter (·.line == i)

theorem mem_lineEdits {indent i : Nat} {ls : List Line} {e : Edit} :
    e ∈ lineEdits indent ls i ↔ e ∈ planEdits indent ls ∧ e.line = i := by
  rw [lineEdits, List.mem_filter, beq_iff_eq]

theorem mayChange_of_mem_lineEdits {indent i : Nat} {ls : List Line} {e : Edit}
    (h : e ∈ lineEdits indent ls i) : MayChange indent ls i e.span := by
  obtain ⟨hmem, rfl⟩ := mem_lineEdits.1 h
  obtain ⟨p, _, -, hspan, -, -, hp⟩ := piece_of_mem_planEdits hmem
  exact ⟨p, hspan.symm, hp⟩

theorem lineEdits_pairwise (indent : Nat) (ls : List Line) (i : Nat) :
    (lineEdits indent ls i).Pairwise fun a b => a.span.stop < b.span.start := by
  refine ((planEdits_pairwise indent ls).filter _).imp_of_mem fun {a b} ha hb hab => hab ?_
  rw [(mem_lineEdits.1 ha).2, (mem_lineEdits.1 hb).2]

/-- Each resolved line is its old line with the edits of that line made from right to left. -/
theorem getElem?_resolved {indent i : Nat} {ls : List Line} {l : Line} (hl : ls[i]? = some l) :
    (resolved indent ls)[i]? = some (l.edited (lineEdits indent ls i)) := by
  have hpair : (lineEdits indent ls i).Pairwise fun a b => a.span.start < b.span.start := by
    refine (lineEdits_pairwise indent ls i).imp_of_mem ?_
    intro a b ha _ hab
    obtain ⟨_, _, _, -, hspan⟩ := (mayChange_of_mem_lineEdits ha).standsIn hl
    rw [hspan] at hab ⊢
    dsimp only at hab ⊢
    omega
  rw [resolved, getElem?_apply hpair, hl]
  rfl

theorem length_resolved (indent : Nat) (ls : List Line) :
    (resolved indent ls).length = ls.length := length_apply ls _

theorem getElem?_resolved_of_not_mayChange {indent i : Nat} {ls : List Line}
    (h : ∀ span, ¬ MayChange indent ls i span) : (resolved indent ls)[i]? = ls[i]? := by
  cases hl : ls[i]? with
  | none => rw [List.getElem?_eq_none_iff, length_resolved, ← List.getElem?_eq_none_iff, hl]
  | some l =>
    have hnil : lineEdits indent ls i = [] := List.eq_nil_iff_forall_not_mem.2 fun e he =>
      h _ (mayChange_of_mem_lineEdits he)
    rw [getElem?_resolved hl, hnil]
    rfl

end SchemaTidy.Dedupe
