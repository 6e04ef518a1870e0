import SchemaTidy.Proofs.Source.Simultaneous

/-! # Slicing a line

A line is read by byte positions, and a span that is out of range or ends inside a character
cannot be cut out of it. Main statement: `Line.spans_valid`. No line is read with such a span,
whatever characters it holds, and the spans stand in the order in which the line is read. -/

namespace SchemaTidy.Source
open Text

variable {cs : List Char} {span : Span} {p : Piece}

/-! ## Spans that can be cut out -/

namespace Span

/-- The text that a span covers; none if it is not valid there. -/
def slice? (span : Span) (cs : List Char) : Option (List Char) := do
  let (front, _) ← cutAt cs span.stop
  let (_, covered) ← cutAt front span.start
  some covered

theorem slice?_of_append {before covered after : List Char}
    (hcs : cs = before ++ covered ++ after)
    (hspan : span = ⟨width before, width before + width covered⟩) :
    span.slice? cs = some covered := by
  rw [hspan, slice?, hcs, ← width_append, cutAt_width, Option.bind_eq_bind, Option.bind_some]
  dsimp only
  rw [cutAt_width]
  rfl

theorem StandsIn.valid (h : span.StandsIn cs) : span.Valid cs := by
  obtain ⟨before, covered, after, rfl, rfl⟩ := h
  refine ⟨Nat.le_add_right _ _, ?_, ⟨before, ⟨covered ++ after, ?_⟩, rfl⟩,
    before ++ covered, ⟨after, rfl⟩, width_append _ _⟩
  · rw [width_append, width_append]
    exact Nat.le_add_right _ _
  · rw [List.append_assoc]

end Span

/-- A piece that stands in a text is what its span covers there. -/
theorem Piece.StandsIn.slice? (h : p.StandsIn cs) : p.span.slice? cs = some p.text := by
  obtain ⟨before, after, hcs, hstart⟩ := h
  exact Span.slice?_of_append hcs (by rw [Piece.span, hstart])

/-! ## In which order the spans stand -/

theorem le_start_of_scalar? {start : Nat} {raw : List Char} (h : scalar? start raw = some p) :
    start ≤ p.start := by
  obtain ⟨before, after, -, hstart, -⟩ := scalar?_exchange h
  rw [hstart]
  exact Nat.le_add_right _ _

/-- No item reaches past the end of its list. -/
theorem stop_le_of_mem_partScalars {start : Nat} {body : List Char}
    (h : p ∈ partScalars start (splitOn ',' body)) : p.span.stop ≤ start + width body := by
  obtain ⟨ps, qs, hitems⟩ := List.append_of_mem h
  obtain ⟨xs, part, ys, hparts, -, hscalar, -⟩ := part_of_item hitems
  obtain ⟨lead, trail, hpart, hstart, -⟩ := scalar?_exchange hscalar
  obtain ⟨before, after, hbody, hbefore, -⟩ := splitOn_exchange hparts
  rw [← hbefore] at hstart
  simp only [Piece.span, hbody, hpart, width_append]
  omega

namespace Line

variable {l : Line} {key value : Piece} {items : List Piece}

/-- The colon stands between a key and its value. -/
theorem key_before_value (hkey : l.key = some key) (hvalue : l.value = some value) :
    key.span.stop < value.span.start := by
  obtain ⟨v, hkind⟩ := kind_of_key hkey
  obtain rfl : v = some value := by
    rw [Line.value, hkind] at hvalue
    exact hvalue
  obtain ⟨cut, hcut, -, rfl, hscalar⟩ := key?_of_kind hkind
  obtain ⟨before, colon, hsits⟩ := key?_sits hcut
  have hcolon : 0 < width colon := by
    obtain ⟨xs, ys, rfl⟩ := List.append_of_mem hsits.colon_mem
    have := Char.utf8Size_pos ':'
    rw [width_append, width_cons]
    omega
  have hle := le_start_of_scalar? hscalar
  rw [hsits.valueStart_eq, width_append, width_append] at hle
  simp only [Piece.span, hsits.start_eq]
  omega

/-- The items of a list stand between its brackets. -/
theorem items_inside_value (hvalue : l.value = some value) (hitems : l.flowItems = some items) :
    ∀ item ∈ items, value.span.start < item.span.start ∧ item.span.stop < value.span.stop := by
  obtain ⟨v, body, hv, hbody, rfl⟩ := flowItems_some hitems
  obtain rfl := Option.some.inj (hv.symm.trans hvalue)
  obtain ⟨htext, -⟩ := listBody_some hbody
  intro item hitem
  have hstart := (partScalars_pairwise _ _).1 item hitem
  have hstop := stop_le_of_mem_partScalars hitem
  have hopening := Char.utf8Size_pos '['
  have hclosing := Char.utf8Size_pos ']'
  have hwidth : width v.text = 1 + width body + 1 := by
    rw [htext, width_cons, width_append]
    rfl
  simp only [Piece.span] at hstart hstop ⊢
  omega

/-- What stands between the brackets of a list can be cut out of it. -/
theorem slice?_listBody {text body : List Char} (h : listBody text = some body) :
    Span.slice? ⟨1, width text - 1⟩ text = some body := by
  obtain ⟨rfl, -⟩ := listBody_some h
  have hcut : '[' :: (body ++ [']']) = ['['] ++ body ++ [']'] := rfl
  refine Span.slice?_of_append hcut ?_
  have hwidth : width ('[' :: (body ++ [']'])) = 1 + width body + 1 := by
    rw [width_cons, width_append, ← Nat.add_assoc]
    rfl
  rw [hwidth]
  rfl

/-- **All spans of a line can be cut out of it**, and what they cover is what the line is read as.
A value starts behind the end of its key, and the items of a list stand inside the value, one behind
the end of the other. -/
theorem spans_valid (l : Line) :
    (∀ key, l.key = some key →
      key.span.Valid l.content ∧ key.span.slice? l.content = some key.text) ∧
    (∀ value, l.value = some value →
      value.span.Valid l.content ∧ value.span.slice? l.content = some value.text) ∧
    (∀ key value, l.key = some key → l.value = some value → key.span.stop < value.span.start) ∧
    ∀ items, l.flowItems = some items → ∃ value body, l.value = some value ∧
      Span.slice? ⟨1, width value.text - 1⟩ value.text = some body ∧
      (∀ item ∈ items, item.span.Valid l.content ∧ item.span.slice? l.content = some item.text ∧
        value.span.start ≤ item.span.start ∧ item.span.stop ≤ value.span.stop) ∧
      items.Pairwise fun p q => p.span.start < q.span.start ∧ p.span.stop < q.span.start := by
  refine ⟨fun key hkey => ?_, fun value hvalue => ?_, fun key value => key_before_value,
    fun items hitems => ?_⟩
  · have hstands := key_standsIn hkey
    exact ⟨hstands.span.valid, hstands.slice?⟩
  · have hstands := value_standsIn hvalue
    exact ⟨hstands.span.valid, hstands.slice?⟩
  obtain ⟨value, body, hvalue, hbody, -⟩ := flowItems_some hitems
  refine ⟨value, body, hvalue, slice?_listBody hbody, fun item hitem => ?_, ?_⟩
  · have hstands := item_standsIn hitems hitem
    obtain ⟨hstart, hstop⟩ := items_inside_value hvalue hitems item hitem
    exact ⟨hstands.span.valid, hstands.slice?, hstart.le, hstop.le⟩
  · refine (flowItems_pairwise hitems).imp fun {p q} hlt => ⟨?_, hlt⟩
    exact Nat.lt_of_le_of_lt (Nat.le_add_right p.start _) hlt

/-- Spans are counted in bytes, and an empty text between quotes has one too. -/
example : (Line.flowItems ⟨"  é: ['', ü]".toList, .lf⟩).map (·.map (·.span)) =
    some [⟨8, 8⟩, ⟨11, 13⟩] := by decide +kernel

end Line
end SchemaTidy.Source
