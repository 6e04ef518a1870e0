import SchemaTidy.Proofs.Dedupe.Reading

/-! # What a resolution achieves

When the new names are plain and new, no name is defined twice any more, so that there is nothing
left to resolve (`resolve_settles`). References are found where they were, and a slot name that
was defined still is one after it was rewritten (`references_resolve`). -/

namespace SchemaTidy.Dedupe
open Source Text

variable {indent i : Nat} {ls : List Line} {key : Piece}

/-! ## New keys -/

theorem plan_unique {r r' : Rename} (hr : r ∈ plan indent ls) (hr' : r' ∈ plan indent ls)
    (hline : r.line = r'.line) : r = r' :=
  List.inj_on_of_nodup_map (f := Rename.line)
    (List.pairwise_map.2 (assign_pairwise (definitions_pairwise indent ls))) hr hr' hline

/-- Only the first definition of a name has no new name. -/
theorem RepeatsAt.exists_rename (h : RepeatsAt indent ls i key) :
    ∃ r ∈ plan indent ls, r.line = i := by
  obtain ⟨hkey, j, key', hlt, hkey', hname⟩ := h
  obtain ⟨k, hk⟩ := List.mem_iff_getElem?.1
    (mem_definitionsOf.2 ⟨mem_definitions_iff (d := ⟨i, key⟩).2 hkey, rfl⟩)
  refine ⟨_, mem_assign_iff.2 ⟨key.text, k, _, hk, ?_, rfl⟩, renameAt_line _ _ _⟩
  rcases Nat.eq_zero_or_pos k with rfl | hpos
  · rw [← List.head?_eq_getElem?] at hk
    obtain ⟨rest, hrest⟩ := List.head?_eq_some_iff.1 hk
    have hle := line_le_of_definitionsOf (definitions_pairwise indent ls) hrest
      (mem_definitions_iff (d := ⟨j, key'⟩).2 hkey') hname
    exact absurd hlt (Nat.not_lt.2 hle)
  · exact hpos

theorem rename_of_mem_lineEdits (hkey : DefinesAt indent ls i key) {e : Edit}
    (he : e ∈ lineEdits indent ls i) : ∃ r ∈ plan indent ls, r.line = i ∧ e = r.edit := by
  obtain ⟨hmem, rfl⟩ := mem_lineEdits.1 he
  rcases List.mem_append.1 hmem with hmem | hmem
  · obtain ⟨r, hr, rfl⟩ := List.mem_map.1 hmem
    exact ⟨r, hr, rfl, rfl⟩
  · obtain ⟨c, hc, r, hr, v, -, rfl⟩ := mem_propagate_iff.1 hmem
    exact absurd ⟨c, hc, hr⟩ (hkey.not_listedAt r.item)

theorem rewritten_of_rename {r : Rename} (hr : r ∈ plan indent ls) :
    r.key.rewritten (lineEdits indent ls r.line) = r.renamed := by
  have hkey := (repeatsAt_of_mem_plan hr).1
  have hedit : r.edit ∈ lineEdits indent ls r.line :=
    mem_lineEdits.2 ⟨List.mem_append_left _ (List.mem_map_of_mem hr), rfl⟩
  unfold Piece.rewritten
  cases hfind : (lineEdits indent ls r.line).find? (·.span == r.key.span) with
  | none => exact absurd (beq_self_eq_true r.key.span) (List.find?_eq_none.1 hfind _ hedit)
  | some e =>
    obtain ⟨r', hr', hline, rfl⟩ := rename_of_mem_lineEdits hkey (List.mem_of_find?_eq_some hfind)
    rw [plan_unique hr' hr hline]
    rfl

theorem rewritten_of_no_rename (hkey : DefinesAt indent ls i key)
    (h : ∀ r ∈ plan indent ls, r.line ≠ i) : key.rewritten (lineEdits indent ls i) = key.text := by
  have hnil : lineEdits indent ls i = [] := List.eq_nil_iff_forall_not_mem.2 fun e he => by
    obtain ⟨r, hr, hline, -⟩ := rename_of_mem_lineEdits hkey he
    exact h r hr hline
  rw [hnil]
  rfl

/-! ## Nothing left to resolve -/

theorem duplicates_eq_nil {defs : List Definition} (h : (defs.map (·.key.text)).Nodup) :
    duplicates defs = [] := by
  refine List.eq_nil_iff_forall_not_mem.2 ?_
  rintro ⟨name, group⟩ hmem
  obtain ⟨rfl, hlen⟩ := mem_duplicates_iff.1 hmem
  have hpair : (definitionsOf defs name).Pairwise fun a b => a.key.text ≠ b.key.text :=
    (List.pairwise_map.1 h).filter _
  have hname : ∀ d ∈ definitionsOf defs name, d.key.text = name := fun d hd =>
    (mem_definitionsOf.1 hd).2
  have hne := List.pairwise_iff_getElem.1 hpair 0 1 (by omega) (by omega) Nat.zero_lt_one
  exact hne ((hname _ (List.getElem_mem _)).trans (hname _ (List.getElem_mem _)).symm)

theorem resolve_of_nodup {indentWidth : Nat} {text : List Char}
    (h : ((definitions (max indentWidth 1) (lines text)).map (·.key.text)).Nodup) :
    resolve indentWidth text = ⟨text, []⟩ := by
  unfold resolve
  dsimp only
  rw [duplicates_eq_nil h]

/-- Keys of two lines become different names, also when they were the same. -/
theorem rewritten_ne {j : Nat} {key' : Piece} (hkey : DefinesAt indent ls i key)
    (hkey' : DefinesAt indent ls j key') (hlt : i < j)
    (hdistinct : ((plan indent ls).map (·.renamed)).Nodup)
    (hfresh : ∀ r ∈ plan indent ls, ∀ d ∈ definitions indent ls, r.renamed ≠ d.key.text) :
    key.rewritten (lineEdits indent ls i) ≠ key'.rewritten (lineEdits indent ls j) := by
  -- two lines that both keep their key cannot share it: the lower one would repeat the upper one
  by_cases hi : ∃ r ∈ plan indent ls, r.line = i
  · obtain ⟨r, hr, rfl⟩ := hi
    rw [hkey.unique (repeatsAt_of_mem_plan hr).1, rewritten_of_rename hr]
    by_cases hj : ∃ r ∈ plan indent ls, r.line = j
    · obtain ⟨r', hr', rfl⟩ := hj
      rw [hkey'.unique (repeatsAt_of_mem_plan hr').1, rewritten_of_rename hr']
      intro heq
      have := congrArg Rename.line (List.inj_on_of_nodup_map hdistinct hr hr' heq)
      omega
    · rw [rewritten_of_no_rename hkey' fun r hr hline => hj ⟨r, hr, hline⟩]
      exact hfresh r hr ⟨j, key'⟩ (mem_definitions_iff.2 hkey')
  · rw [rewritten_of_no_rename hkey fun r hr hline => hi ⟨r, hr, hline⟩]
    by_cases hj : ∃ r ∈ plan indent ls, r.line = j
    · obtain ⟨r', hr', rfl⟩ := hj
      rw [hkey'.unique (repeatsAt_of_mem_plan hr').1, rewritten_of_rename hr']
      exact (hfresh r' hr' ⟨i, key⟩ (mem_definitions_iff.2 hkey)).symm
    · rw [rewritten_of_no_rename hkey' fun r hr hline => hj ⟨r, hr, hline⟩]
      exact fun heq => hj (RepeatsAt.exists_rename ⟨hkey', i, key, hlt, hkey, heq⟩)

/-- **After a resolution no name is defined twice**, and resolving again changes nothing. -/
theorem resolve_settles (indentWidth : Nat) (text : List Char)
    (hnames : ∀ r ∈ (resolve indentWidth text).renames, r.renamed.all isNameChar = true)
    (hdistinct : ((resolve indentWidth text).renames.map (·.renamed)).Nodup)
    (hfresh : ∀ r ∈ (resolve indentWidth text).renames,
      ∀ d ∈ definitions (max indentWidth 1) (lines text), r.renamed ≠ d.key.text) :
    let out := (resolve indentWidth text).text
    ((definitions (max indentWidth 1) (lines out)).map (·.key.text)).Nodup ∧
      resolve indentWidth out = ⟨out, []⟩ := by
  intro out
  have hpos : 0 < max indentWidth 1 := Nat.lt_of_lt_of_le Nat.zero_lt_one (Nat.le_max_right _ _)
  have hnodup : ((definitions (max indentWidth 1) (lines out)).map (·.key.text)).Nodup := by
    rw [resolve_eq] at hnames hdistinct hfresh
    rw [lines_resolve, definitions_resolved hpos hnames, List.map_map]
    refine List.pairwise_map.2 ((definitions_pairwise _ _).imp_of_mem fun {a b} ha hb hlt => ?_)
    rw [Function.comp_apply, Function.comp_apply, Definition.moved_text, Definition.moved_text]
    exact rewritten_ne (mem_definitions_iff.1 ha) (mem_definitions_iff.1 hb) hlt hdistinct hfresh
  exact ⟨hnodup, resolve_of_nodup hnodup⟩

theorem resolve_settles_one_rename :
    let text := "classes:\n  P:\n    slots: [a]\n  Q:\n    slots: [a]\nslots:\n  a:\n  a:\n".toList
    let out := (resolve 2 text).text
    (resolve 2 text).renames.map (·.renamed) = ["q_a".toList] ∧
      ((definitions (max 2 1) (lines out)).map (·.key.text)).Nodup ∧ resolve 2 out = ⟨out, []⟩ := by
  refine ⟨by decide, resolve_settles 2 _ ?_ ?_ ?_⟩ <;> decide

/-! ## No dangling reference -/

/-- The first definition of a name keeps it. -/
theorem exists_kept_definition {name : List Char}
    (h : ∃ d ∈ definitions indent ls, d.key.text = name) :
    ∃ d ∈ definitions indent ls, d.key.rewritten (lineEdits indent ls d.line) = name := by
  obtain ⟨d', hd', hname'⟩ := h
  obtain ⟨d, rest, hrest⟩ := List.exists_cons_of_ne_nil
    (List.ne_nil_of_mem (mem_definitionsOf.2 ⟨hd', hname'⟩))
  obtain ⟨hd, hname⟩ := mem_definitionsOf.1 (hrest ▸ List.mem_cons_self : d ∈ definitionsOf _ name)
  have hkey := mem_definitions_iff.1 hd
  refine ⟨d, hd, ?_⟩
  rw [rewritten_of_no_rename hkey fun r hr hline => ?_, hname]
  obtain ⟨hkey', j, key, hlt, hearlier, htext⟩ := repeatsAt_of_mem_plan hr
  rw [hline] at hkey' hlt
  have hle := line_le_of_definitionsOf (definitions_pairwise indent ls) hrest
    (mem_definitions_iff (d := ⟨j, key⟩).2 hearlier) (by rw [htext, hkey'.unique hkey, hname])
  exact absurd hlt (Nat.not_lt.2 hle)

/-- A slot name that was defined is, once rewritten, the new key of a definition. -/
theorem exists_definition_of_rewritten {item : Piece}
    (h : ∃ d ∈ definitions indent ls, d.key.text = item.text) :
    ∃ d ∈ definitions indent ls,
      d.key.rewritten (lineEdits indent ls d.line) = item.rewritten (lineEdits indent ls i) := by
  cases hfind : (lineEdits indent ls i).find? (·.span == item.span) with
  | none =>
    have hitem : item.rewritten (lineEdits indent ls i) = item.text := by
      rw [Piece.rewritten, hfind]
    rw [hitem]
    exact exists_kept_definition h
  | some e =>
    have hitem : item.rewritten (lineEdits indent ls i) = e.replacement := by
      rw [Piece.rewritten, hfind]
    obtain ⟨hmem, -⟩ := mem_lineEdits.1 (List.mem_of_find?_eq_some hfind)
    obtain ⟨_, r, hr, -, -, hreplacement, -⟩ := piece_of_mem_planEdits hmem
    refine ⟨⟨r.line, r.key⟩, mem_definitions_iff.2 (repeatsAt_of_mem_plan hr).1, ?_⟩
    rw [hitem, hreplacement]
    exact rewritten_of_rename hr

/-- **The references of a resolved text are the old ones, and none is left dangling.** They stand
in the same lines, moved by what the edits before them put in. -/
theorem references_resolve (indentWidth : Nat) (text : List Char)
    (hnames : ∀ r ∈ (resolve indentWidth text).renames, r.renamed.all isNameChar = true) :
    let indent := max indentWidth 1
    let ls := lines text
    let ls' := lines (resolve indentWidth text).text
    let es := lineEdits indent ls
    classBlocks indent ls' = (classBlocks indent ls).map (ClassBlock.moved es) ∧
    ∀ c ∈ classBlocks indent ls, ∀ r ∈ c.references,
      (∃ d ∈ definitions indent ls, d.key.text = r.item.text) →
        ∃ d ∈ definitions indent ls', d.key.text = (r.moved es).item.text := by
  intro indent ls ls' es
  have hpos : 0 < indent := Nat.lt_of_lt_of_le Nat.zero_lt_one (Nat.le_max_right _ _)
  have hls' : ls' = resolved indent ls := lines_resolve indentWidth text
  rw [resolve_eq] at hnames
  rw [hls', classBlocks_resolved hpos hnames, definitions_resolved hpos hnames]
  refine ⟨rfl, fun c hc r hr hdefined => ?_⟩
  obtain ⟨d, hd, hrewritten⟩ := exists_definition_of_rewritten (i := r.line) hdefined
  refine ⟨d.moved es, List.mem_map_of_mem hd, ?_⟩
  rw [Definition.moved_text, Reference.moved_text]
  exact hrewritten

/-- The second class follows the definition that was named after it. -/
theorem references_resolve_two_classes :
    let text :=
      "classes:\n  P:\n    slots: [a]\n  Q:\n    slots: [b, a]\nslots:\n  a:\n  a:\n".toList
    ∃ d ∈ definitions (max 2 1) (lines (resolve 2 text).text), d.key.text = "q_a".toList := by
  intro text
  have hlisted : (⟨3, ['Q'], [⟨4, ⟨12, ['b']⟩⟩, ⟨4, ⟨15, ['a']⟩⟩]⟩ : ClassBlock) ∈
      classBlocks (max 2 1) (lines text) := by decide
  obtain ⟨-, hdefined⟩ := references_resolve 2 text (by decide)
  obtain ⟨d, hd, hkey⟩ := hdefined _ hlisted ⟨4, ⟨15, ['a']⟩⟩ (by decide) (by decide)
  refine ⟨d, hd, ?_⟩
  rw [hkey]
  decide

end SchemaTidy.Dedupe
