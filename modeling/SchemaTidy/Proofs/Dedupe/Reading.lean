import SchemaTidy.Proofs.Dedupe.Edits
import SchemaTidy.Proofs.Source.Moved

/-! # Reading edited lines

A resolution leaves headers and the ends of sections where they are, so the edited lines are read
as the old ones were, piece by piece: each definition and each reference is found again, moved by
the edits of its line (`definitions_resolved`, `classBlocks_resolved`). New names must consist of
letters, digits and underscores for this. -/

namespace SchemaTidy.Source

/-! ## Sections of edited lines -/

/-- The edits of line `i` are `es i`. -/
def editLines (es : Nat → List Edit) (ls : List Line) : List Line :=
  ls.mapIdx fun i l => l.edited (es i)

/-- The same for a line with its number. -/
def editedAt (es : Nat → List Edit) (a : Line × Nat) : Line × Nat := (a.1.edited (es a.2), a.2)

@[simp] theorem editedAt_fst (es : Nat → List Edit) (a : Line × Nat) :
    (editedAt es a).1 = a.1.edited (es a.2) := rfl

@[simp] theorem editedAt_snd (es : Nat → List Edit) (a : Line × Nat) :
    (editedAt es a).2 = a.2 := rfl

variable {es : Nat → List Edit} {ls : List Line}

theorem map_editLines {α : Type} {p : Line → α}
    (h : ∀ i l, ls[i]? = some l → p (l.edited (es i)) = p l) :
    (editLines es ls).map p = ls.map p := by
  refine List.ext_getElem? ?_
  intro i
  rw [editLines, List.getElem?_map, List.getElem?_mapIdx, List.getElem?_map]
  cases hl : ls[i]? with
  | none => rfl
  | some l => rw [Option.map_some, Option.map_some, h i l hl, Option.map_some]

theorem findIdx?_eq_of_map {α : Type} {p : α → Bool} {xs ys : List α} (h : xs.map p = ys.map p) :
    xs.findIdx? p = ys.findIdx? p := by
  have hid : ∀ zs : List α, (zs.map p).findIdx? id = zs.findIdx? p := fun zs => List.findIdx?_map
  rw [← hid xs, h, hid]

/-- Lines that are no headers at the top level may not become any, and the other way round. -/
structure KeepsLayout (l l' : Line) : Prop where
  indent_eq : l'.indent = l.indent
  isSignificant_eq : l'.isSignificant = l.isSignificant
  key_eq : l.indent = 0 → l'.key = l.key

theorem topSection_editLines (h : ∀ i l, ls[i]? = some l → KeepsLayout l (l.edited (es i)))
    (name : List Char) : topSection (editLines es ls) name = topSection ls name := by
  have hheader : (editLines es ls).map (fun l => l.indent == 0 && l.hasKey name) =
      ls.map fun l => l.indent == 0 && l.hasKey name := map_editLines fun i l hl => by
    obtain ⟨hindent, -, hkey⟩ := h i l hl
    rw [hindent]
    by_cases hzero : l.indent = 0
    · rw [Line.hasKey, Line.hasKey, hkey hzero]
    · rw [beq_false_of_ne hzero, Bool.false_and, Bool.false_and]
  have hcloses : (editLines es ls).map (·.closes 0) = ls.map (·.closes 0) :=
    map_editLines fun i l hl => by
      rw [Line.closes, Line.closes, (h i l hl).isSignificant_eq, (h i l hl).indent_eq]
  have hend : ∀ header, blockEnd (editLines es ls) header 0 = blockEnd ls header 0 := by
    intro header
    have hdrop : ((editLines es ls).drop (header + 1)).map (·.closes 0) =
        (ls.drop (header + 1)).map (·.closes 0) := by
      rw [List.map_drop, hcloses, List.map_drop]
    rw [blockEnd, blockEnd, findIdx?_eq_of_map hdrop, editLines, List.length_mapIdx]
  rw [topSection, topSection, findIdx?_eq_of_map hheader]
  simp only [hend]

theorem sectionLines_editLines (h : ∀ i l, ls[i]? = some l → KeepsLayout l (l.edited (es i)))
    (name : List Char) : sectionLines (editLines es ls) name =
      (sectionLines ls name).map (editedAt es) := by
  have hzip : (editLines es ls).zipIdx = ls.zipIdx.map (editedAt es) := by
    refine List.ext_getElem? ?_
    intro i
    rw [editLines, List.getElem?_zipIdx, List.getElem?_mapIdx, List.getElem?_map,
      List.getElem?_zipIdx, Option.map_map, Option.map_map]
    cases ls[i]? with
    | none => rfl
    | some l => simp [editedAt]
  unfold sectionLines
  rw [topSection_editLines h, hzip]
  cases topSection ls name with
  | none => rfl
  | some range => simp only [List.map_take, List.map_drop]

end SchemaTidy.Source

namespace SchemaTidy.Dedupe
open Source Text

/-! ## Definitions and class blocks of edited lines -/

def Definition.moved (es : Nat → List Edit) (d : Definition) : Definition :=
  ⟨d.line, d.key.moved (es d.line)⟩

def Reference.moved (es : Nat → List Edit) (r : Reference) : Reference :=
  ⟨r.line, r.item.moved (es r.line)⟩

theorem Definition.moved_text (es : Nat → List Edit) (d : Definition) :
    (d.moved es).key.text = d.key.rewritten (es d.line) := rfl

theorem Reference.moved_text (es : Nat → List Edit) (r : Reference) :
    (r.moved es).item.text = r.item.rewritten (es r.line) := rfl

/-- The same block, each reference moved by the edits of its line. -/
def ClassBlock.moved (es : Nat → List Edit) (c : ClassBlock) : ClassBlock :=
  ⟨c.header, c.name, c.references.map (Reference.moved es)⟩

/-- The line is read as before in a class block whose lists are indented by `indent`, apart from
the references it holds, which are moved. -/
structure KeepsItems (indent : Nat) (es : List Edit) (l l' : Line) : Prop where
  indent_eq : l'.indent = l.indent
  bare_eq : l'.kind.bare = l.kind.bare
  flowItems_eq : l.indent = indent → l.hasKey slotsName = true →
    l'.flowItems = l.flowItems.map (List.map (Piece.moved es))
  value_eq : continuesList indent l = true → l'.value = l.value.map (Piece.moved es)

theorem continuesList_eq_of_bare {indent : Nat} {l l' : Line} (hindent : l'.indent = l.indent)
    (h : l'.kind.bare = l.kind.bare) : continuesList indent l' = continuesList indent l := by
  unfold continuesList
  rw [hindent]
  cases hl : l.kind <;> cases hl' : l'.kind <;> simp_all [Kind.bare]

theorem takeWhile_map_of_eq {α : Type} {f : α → α} {p : α → Bool} {xs : List α}
    (h : ∀ x ∈ xs, p (f x) = p x) : (xs.map f).takeWhile p = (xs.takeWhile p).map f := by
  induction xs with
  | nil => rfl
  | cons x xs ih =>
    have hxs := ih fun y hy => h y (List.mem_cons_of_mem _ hy)
    rw [List.map_cons, List.takeWhile_cons, List.takeWhile_cons, h x List.mem_cons_self]
    split
    · rw [hxs, List.map_cons]
    · rfl

variable {es : Nat → List Edit} {indent : Nat}

theorem listedItems_map {body : List (Line × Nat)}
    (h : ∀ a ∈ body, KeepsItems indent (es a.2) a.1 (a.1.edited (es a.2))) :
    listedItems indent (body.map (editedAt es)) =
      (listedItems indent body).map (Reference.moved es) := by
  have htake : (body.map (editedAt es)).takeWhile
      (fun a => continuesList indent a.1) =
        (body.takeWhile fun a => continuesList indent a.1).map (editedAt es) :=
    takeWhile_map_of_eq fun a ha => continuesList_eq_of_bare (h a ha).indent_eq (h a ha).bare_eq
  rw [listedItems_eq, listedItems_eq, htake, List.filterMap_map, List.map_filterMap]
  refine List.filterMap_congr ?_
  intro a ha
  have hcont : continuesList indent a.1 = true :=
    List.mem_takeWhile_imp (p := fun a : Line × Nat => continuesList indent a.1) ha
  have hvalue := (h a ((List.takeWhile_sublist _).subset ha)).value_eq hcont
  rw [Function.comp_apply, editedAt_fst, hvalue, Option.map_map, Option.map_map]
  rfl

theorem referencesIn_map {body : List (Line × Nat)}
    (h : ∀ a ∈ body, KeepsItems indent (es a.2) a.1 (a.1.edited (es a.2))) :
    referencesIn indent (body.map (editedAt es)) =
      (referencesIn indent body).map (Reference.moved es) := by
  induction body with
  | nil => rfl
  | cons a rest ih =>
    obtain ⟨l, i⟩ := a
    have hrest := fun a ha => h a (List.mem_cons_of_mem (l, i) ha)
    obtain ⟨hindent, hbare, hflow, -⟩ := h (l, i) List.mem_cons_self
    have hkey : (l.edited (es i)).hasKey slotsName = l.hasKey slotsName := by
      rw [Line.hasKey, Line.hasKey, Line.key_eq_of_bare hbare]
    rw [List.map_cons, referencesIn, referencesIn, List.map_append, ih hrest]
    rw [editedAt_fst, editedAt_snd]
    dsimp only at hindent hflow ⊢
    rw [hindent, hkey]
    congr 1
    split
    · rename_i hheader
      rw [hflow hheader.1 hheader.2]
      cases l.flowItems with
      | none => exact listedItems_map hrest
      | some items => simp only [Option.map_some, List.map_map]; rfl
    · rfl

theorem blocksIn_map {lines : List (Line × Nat)}
    (h : ∀ a ∈ lines, KeepsItems (2 * indent) (es a.2) a.1 (a.1.edited (es a.2))) :
    blocksIn indent (lines.map (editedAt es)) =
      (blocksIn indent lines).map (ClassBlock.moved es) := by
  induction lines with
  | nil => rfl
  | cons a rest ih =>
    have hrest := fun b hb => h b (List.mem_cons_of_mem a hb)
    obtain ⟨hindent, hbare, -, -⟩ := h a List.mem_cons_self
    have hkey : keyAt indent (a.1.edited (es a.2)) = keyAt indent a.1 := by
      rw [keyAt, keyAt, hindent, Line.key_eq_of_bare hbare]
    have hbody : bodyOf indent (rest.map (editedAt es)) =
        (bodyOf indent rest).map (editedAt es) :=
      takeWhile_map_of_eq fun b hb => by
        rw [editedAt_fst, Line.closes, Line.closes, (hrest b hb).indent_eq,
          Line.isSignificant_eq_of_bare (hrest b hb).bare_eq]
    rw [List.map_cons, blocksIn_cons, blocksIn_cons, editedAt_fst, hkey, ih hrest, hbody]
    cases keyAt indent a.1 with
    | none => rfl
    | some key =>
      have hdeep : ∀ b ∈ bodyOf indent rest,
          KeepsItems (2 * indent) (es b.2) b.1 (b.1.edited (es b.2)) := fun b hb =>
        hrest b ((List.takeWhile_sublist _).subset hb)
      dsimp only
      rw [referencesIn_map hdeep]
      rfl

/-! ## The lines of a resolution -/

/-- All new names consist of letters, digits and underscores. -/
def PlansNames (indent : Nat) (ls : List Line) : Prop :=
  ∀ r ∈ plan indent ls, r.renamed.all isNameChar = true

variable {ls : List Line} {i : Nat} {l : Line}

theorem renames_of_mem_lineEdits (hnames : PlansNames indent ls) {e : Edit}
    (he : e ∈ lineEdits indent ls i) :
    ∃ p, e.Renames p ∧ (RepeatsAt indent ls i p ∨ ListedAt indent ls i p) := by
  obtain ⟨hmem, rfl⟩ := mem_lineEdits.1 he
  obtain ⟨p, r, hr, hspan, hname, hreplacement, hp⟩ := piece_of_mem_planEdits hmem
  obtain ⟨-, -, hwidth⟩ := definition_of_mem_assign (definitions_pairwise indent ls) hr
  refine ⟨p, ⟨hspan, ⟨replacement_ne_nil hmem, ?_⟩, ?_⟩, hp⟩
  · rw [hreplacement]
    exact List.all_eq_true.1 (hnames r hr)
  · rw [hreplacement, ← hname]
    exact hwidth.le

/-- What the edits of a line may rename. -/
inductive EditedAs (indent : Nat) (ls : List Line) (i : Nat) (l : Line) (es : List Edit) :
    Prop where
  | same (h : es = [])
  | key (key : Piece) (hkey : DefinesAt indent ls i key) (hes : ∀ e ∈ es, e.Renames key)
  | items (items : List Piece) (hindent : l.indent = 2 * indent) (hkey : l.hasKey slotsName = true)
    (hitems : l.flowItems = some items) (hes : ∀ e ∈ es, ∃ p ∈ items, e.Renames p)
  | item (value : Piece) (hindent : 2 * indent ≤ l.indent) (hkind : l.kind = .item (some value))
    (hes : ∀ e ∈ es, e.Renames value)

theorem editedAs (hnames : PlansNames indent ls) (hl : ls[i]? = some l) :
    EditedAs indent ls i l (lineEdits indent ls i) := by
  -- one edit tells the sort of the line; the others must be of the same sort
  by_cases hnone : lineEdits indent ls i = []
  · exact .same hnone
  · obtain ⟨e, he⟩ := List.exists_mem_of_ne_nil _ hnone
    obtain ⟨p, -, ⟨hdefines, -⟩ | hlisted⟩ := renames_of_mem_lineEdits hnames he
    · refine .key p hdefines ?_
      intro e' he'
      obtain ⟨p', hrenames, ⟨hdefines', -⟩ | hlisted⟩ := renames_of_mem_lineEdits hnames he'
      · exact hdefines.unique hdefines' ▸ hrenames
      · exact absurd hlisted (hdefines.not_listedAt p')
    · have hes : ∀ e' ∈ lineEdits indent ls i, ∃ p', e'.Renames p' ∧ ListedIn (2 * indent) l p' :=
        fun e' he' => by
          obtain ⟨p', hrenames, ⟨hdefines, -⟩ | hlisted'⟩ := renames_of_mem_lineEdits hnames he'
          · exact absurd hlisted (hdefines.not_listedAt p)
          · exact ⟨p', hrenames, hlisted'.listedIn hl⟩
      cases hlisted.listedIn hl with
      | flow items hindent hkey hitems _ =>
        refine .items items hindent hkey hitems ?_
        intro e' he'
        obtain ⟨p', hrenames, hp'⟩ := hes e' he'
        cases hp' with
        | flow items' _ _ hitems' hmem =>
          rw [hitems] at hitems'
          exact ⟨p', Option.some.inj hitems' ▸ hmem, hrenames⟩
        | block _ hkind => exact absurd hkey (Line.not_hasKey_of_item hkind _)
      | block hindent hkind =>
        refine .item p hindent hkind ?_
        intro e' he'
        obtain ⟨p', hrenames, hp'⟩ := hes e' he'
        cases hp' with
        | flow _ _ hkey _ _ => exact absurd hkey (Line.not_hasKey_of_item hkind _)
        | block _ hkind' =>
          rw [hkind] at hkind'
          exact Option.some.inj (Kind.item.inj hkind') ▸ hrenames

theorem keepsLayout (hindent : 0 < indent) (hnames : PlansNames indent ls)
    (hl : ls[i]? = some l) : KeepsLayout l (l.edited (lineEdits indent ls i)) := by
  have hpair := lineEdits_pairwise indent ls i
  cases editedAs hnames hl with
  | same h => rw [h]; exact ⟨rfl, rfl, fun _ => rfl⟩
  | key key hkey hes =>
    obtain ⟨hlindent, hlkey⟩ := hkey.line hl
    obtain ⟨hindent', hkey'⟩ := Line.key_edited hlkey hpair hes
    refine ⟨hindent', ?_, fun hzero => by omega⟩
    rw [Line.isSignificant_of_key hkey', Line.isSignificant_of_key hlkey]
  | items items _ _ hitems hes =>
    obtain ⟨hindent', hbare, -⟩ := Line.flowItems_edited hitems hpair hes
    exact ⟨hindent', Line.isSignificant_eq_of_bare hbare, fun _ => Line.key_eq_of_bare hbare⟩
  | item value _ hkind hes =>
    obtain ⟨hindent', hbare, -⟩ :=
      Line.value_edited (by rw [Line.value, hkind]) hpair hes
    exact ⟨hindent', Line.isSignificant_eq_of_bare hbare, fun _ => Line.key_eq_of_bare hbare⟩

theorem keyAt_edited (hindent : 0 < indent) (hnames : PlansNames indent ls)
    (hl : ls[i]? = some l) : keyAt indent (l.edited (lineEdits indent ls i)) =
      (keyAt indent l).map (Piece.moved (lineEdits indent ls i)) := by
  have hkeeps := keepsLayout hindent hnames hl
  have hdeep : 2 * indent ≤ l.indent → keyAt indent (l.edited (lineEdits indent ls i)) =
      (keyAt indent l).map (Piece.moved (lineEdits indent ls i)) := by
    intro hle
    rw [keyAt, keyAt, hkeeps.indent_eq, if_neg (by omega), if_neg (by omega), Option.map_none]
  cases editedAs hnames hl with
  | same h =>
    rw [h, Line.edited_nil]
    cases keyAt indent l <;> rfl
  | key key hkey hes =>
    obtain ⟨hlindent, hlkey⟩ := hkey.line hl
    obtain ⟨hindent', hkey'⟩ := Line.key_edited hlkey (lineEdits_pairwise indent ls i) hes
    rw [keyAt_eq_some_iff.2 ⟨hindent'.trans hlindent, hkey'⟩,
      keyAt_eq_some_iff.2 ⟨hlindent, hlkey⟩, Option.map_some]
  | items _ hle _ _ _ => exact hdeep hle.ge
  | item _ hle _ _ => exact hdeep hle

theorem keepsItems (hnames : PlansNames indent ls) (hl : ls[i]? = some l)
    (hdefines : ∀ key, ¬ DefinesAt indent ls i key) :
    KeepsItems (2 * indent) (lineEdits indent ls i) l (l.edited (lineEdits indent ls i)) := by
  have hpair := lineEdits_pairwise indent ls i
  cases editedAs hnames hl with
  | same h =>
    have hmoved : Piece.moved [] = id := funext Piece.moved_nil
    rw [h, Line.edited_nil]
    refine ⟨rfl, rfl, fun _ _ => ?_, fun _ => ?_⟩
    · rw [hmoved, List.map_id_fun, Option.map_id_fun, id]
    · rw [hmoved, Option.map_id_fun, id]
  | key key hkey _ => exact absurd hkey (hdefines key)
  | items items _ hkey hitems hes =>
    obtain ⟨hindent', hbare, hitems'⟩ := Line.flowItems_edited hitems hpair hes
    refine ⟨hindent', hbare, fun _ _ => ?_, fun hcont => ?_⟩
    · rw [hitems', hitems, Option.map_some]
    · rw [continuesList_of_hasKey hkey] at hcont
      cases hcont
  | item value _ hkind hes =>
    have hvalue : l.value = some value := by rw [Line.value, hkind]
    obtain ⟨hindent', hbare, hvalue'⟩ := Line.value_edited hvalue hpair hes
    refine ⟨hindent', hbare, fun _ hkey => ?_, fun _ => ?_⟩
    · exact absurd hkey (Line.not_hasKey_of_item hkind _)
    · rw [hvalue', hvalue, Option.map_some]

theorem resolved_eq (indent : Nat) (ls : List Line) :
    resolved indent ls = editLines (lineEdits indent ls) ls := by
  refine List.ext_getElem? ?_
  intro i
  rw [editLines, List.getElem?_mapIdx]
  cases hl : ls[i]? with
  | none =>
    rw [Option.map_none, List.getElem?_eq_none_iff, length_resolved,
      ← List.getElem?_eq_none_iff, hl]
  | some l => rw [getElem?_resolved hl, Option.map_some]

/-- **The definitions of the edited lines** are the old ones with their new keys. -/
theorem definitions_resolved (hindent : 0 < indent) (hnames : PlansNames indent ls) :
    definitions indent (resolved indent ls) =
      (definitions indent ls).map (Definition.moved (lineEdits indent ls)) := by
  rw [resolved_eq, definitions_eq, definitions_eq,
    sectionLines_editLines (fun i l hl => keepsLayout hindent hnames hl), List.filterMap_map,
    List.map_filterMap]
  refine List.filterMap_congr ?_
  intro a ha
  obtain ⟨_, _, -, -, -, hl⟩ := mem_sectionLines.1 ha
  rw [Function.comp_apply, editedAt_fst, keyAt_edited hindent hnames hl, Option.map_map,
    Option.map_map]
  rfl

/-- **The class blocks of the edited lines** are the old ones with their references moved. -/
theorem classBlocks_resolved (hindent : 0 < indent) (hnames : PlansNames indent ls) :
    classBlocks indent (resolved indent ls) =
      (classBlocks indent ls).map (ClassBlock.moved (lineEdits indent ls)) := by
  rw [classBlocks, classBlocks, resolved_eq,
    sectionLines_editLines fun i l hl => keepsLayout hindent hnames hl]
  refine blocksIn_map ?_
  intro a ha
  obtain ⟨start, stop, hsection, hstart, hstop, hl⟩ := mem_sectionLines.1 ha
  refine keepsItems hnames hl ?_
  intro key hdefines
  obtain ⟨start', stop', _, hsection', hstart', hstop', -⟩ := hdefines
  exact topSection_disjoint (by decide) hsection' hsection ⟨hstart', hstop'⟩ ⟨hstart, hstop⟩

end SchemaTidy.Dedupe
