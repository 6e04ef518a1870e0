import SchemaTidy.Proofs.Source.Editing

/-! # A part of a line becomes another name

Main statement: `Line.spliced_name_reread`. The span of a key, of a value and of a list item is always one
that can be replaced. When a name is put there, the line is read with this name in the place of that
part, and with all other parts as before. -/

namespace SchemaTidy.Source
open Text

variable {l : Line} {name : List Char}

/-- A piece can be replaced where it stands. -/
theorem splice?_span {p : Piece} {before after : List Char}
    (hcontent : l.content = before ++ p.text ++ after) (hstart : p.start = width before)
    (new : List Char) :
    l.splice? p.span new = some { l with content := before ++ new ++ after } := by
  rw [Piece.span, hstart, splice?_of_content hcontent]

namespace Line

theorem splice?_key {key : Piece} {value : Option Piece} (hkind : l.kind = .entry key value)
    (hname : IsName name) :
    ∃ l' value', l.splice? key.span name = some l' ∧ l'.indent = l.indent ∧
      l'.kind = .entry ⟨key.start, name⟩ value' ∧ value'.map (·.text) = value.map (·.text) := by
  obtain ⟨before, after, hcontent, hstart, hnew⟩ := key_exchange hkind
  obtain ⟨hindent, value', hkind', hvalue⟩ :=
    hnew name hname { l with content := before ++ name ++ after } rfl
  exact ⟨_, value', splice?_span hcontent hstart name, hindent, hkind', hvalue⟩

theorem splice?_value {value : Piece} (hvalue : l.value = some value) (hname : IsName name) :
    ∃ l', l.splice? value.span name = some l' ∧ l'.indent = l.indent ∧
      l'.kind = l.kind.withValue ⟨value.start, name⟩ := by
  obtain ⟨before, after, hcontent, hstart, hnew⟩ := value_exchange hvalue
  exact ⟨_, splice?_span hcontent hstart name, hnew name (fits_of_isName hname _) _ rfl⟩

theorem splice?_item {items : List Piece} {n : Nat} {item : Piece}
    (hitems : l.flowItems = some items) (hitem : items[n]? = some item) (hname : IsName name) :
    ∃ l' items', l.splice? item.span name = some l' ∧ l'.flowItems = some items' ∧
      items'.map (·.text) = (items.map (·.text)).set n name := by
  obtain ⟨hlt, rfl⟩ := List.getElem?_eq_some_iff.1 hitem
  -- the item with those before and after it
  have hcut : items = items.take n ++ items[n] :: items.drop (n + 1) := by
    rw [List.getElem_cons_drop, List.take_append_drop]
  rw [hcut] at hitems
  obtain ⟨before, after, hcontent, hstart, hnew⟩ := flowItems_exchange hitems
  obtain ⟨-, -, hitems'⟩ := hnew name hname { l with content := before ++ name ++ after } rfl
  refine ⟨_, _, splice?_span hcontent hstart name, hitems', ?_⟩
  rw [List.set_eq_take_append_cons_drop, if_pos (by simpa using hlt), List.map_append,
    List.map_cons, List.map_map, ← List.map_take, ← List.map_drop]
  rfl

/-- **A line in which a part becomes another name is read with this name there.** An entry with
another key keeps its indentation and the text of its value; a line with another value keeps its
indentation, its kind and its key; a list with another item has as many items, and the others are
unchanged. -/
theorem spliced_name_reread (hname : IsName name) (l : Line) :
    (∀ key value, l.kind = .entry key value →
      ∃ l' value', l.splice? key.span name = some l' ∧ l'.indent = l.indent ∧
        l'.kind = .entry ⟨key.start, name⟩ value' ∧
        value'.map (·.text) = value.map (·.text)) ∧
    (∀ value, l.value = some value →
      ∃ l', l.splice? value.span name = some l' ∧ l'.indent = l.indent ∧
        l'.kind = l.kind.withValue ⟨value.start, name⟩) ∧
    ∀ items n item, l.flowItems = some items → items[n]? = some item →
      ∃ l' items', l.splice? item.span name = some l' ∧ l'.flowItems = some items' ∧
        items'.map (·.text) = (items.map (·.text)).set n name :=
  ⟨fun _ _ hkind => splice?_key hkind hname, fun _ hvalue => splice?_value hvalue hname,
    fun _ _ _ hitems hitem => splice?_item hitems hitem hname⟩

/-- A quoted item of a list with a comment behind it. -/
theorem spliced_name_reread_quoted_item :
    let l : Line := ⟨"  slots: [id, \"status\" ,name] # refs".toList, .lf⟩
    IsName "x_1".toList ∧ ∃ l' items', l.splice? ⟨15, 21⟩ "x_1".toList = some l' ∧
      l'.flowItems = some items' ∧
      items'.map (·.text) = ["id".toList, "x_1".toList, "name".toList] := by
  intro l
  have hname : IsName "x_1".toList := by decide
  have hitems : l.flowItems =
      some [⟨10, "id".toList⟩, ⟨15, "status".toList⟩, ⟨24, "name".toList⟩] := by decide +kernel
  exact ⟨hname, (spliced_name_reread hname l).2.2 _ 1 ⟨15, "status".toList⟩ hitems rfl⟩

end Line

end SchemaTidy.Source
