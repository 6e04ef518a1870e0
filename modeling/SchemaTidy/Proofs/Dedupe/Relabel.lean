import SchemaTidy.Proofs.Dedupe.Reading

/-! # Lines with other numbers and terminators

What a scan finds depends on the contents of lines alone. Where lines get other terminators, or
other numbers, the same definitions, references and renames are found, each with the new number of
its line. -/

namespace SchemaTidy.Source

/-- The line with its terminator changed. -/
def Line.terminate (τ : Terminator → Terminator) (l : Line) : Line :=
  { l with terminator := τ l.terminator }

@[simp] theorem Line.indent_terminate (τ : Terminator → Terminator) (l : Line) :
    (l.terminate τ).indent = l.indent := rfl

@[simp] theorem Line.hasKey_terminate (τ : Terminator → Terminator) (l : Line) (name : List Char) :
    (l.terminate τ).hasKey name = l.hasKey name := rfl

@[simp] theorem Line.flowItems_terminate (τ : Terminator → Terminator) (l : Line) :
    (l.terminate τ).flowItems = l.flowItems := rfl

/-- The header of a section: an entry with this key at indent 0. -/
def opensSection (name : List Char) (a : Line × Nat) : Bool :=
  a.1.indent == 0 && a.1.hasKey name

/-- The lines under the first header of a section, of lines that are numbered. -/
def sectionOf (name : List Char) (ls : List (Line × Nat)) : List (Line × Nat) :=
  ((ls.dropWhile fun a => !opensSection name a).drop 1).takeWhile fun a => !a.1.closes 0

theorem takeWhile_not_closes (ls : List Line) (header : Nat) :
    (ls.zipIdx.drop (header + 1)).takeWhile (fun a => !a.1.closes 0) =
      (ls.zipIdx.drop (header + 1)).take (blockEnd ls header 0 - (header + 1)) := by
  have hidx : (ls.zipIdx.drop (header + 1)).findIdx (fun a => a.1.closes 0) =
      (ls.drop (header + 1)).findIdx (·.closes 0) := by
    conv_rhs => rw [← List.zipIdx_map_fst 0 ls, ← List.map_drop, List.findIdx_map]
    rfl
  simp only [List.takeWhile_eq_take_findIdx_not, Bool.not_not, hidx]
  unfold blockEnd
  split
  · rename_i k hk
    rw [(List.findIdx?_eq_some_iff_findIdx_eq.1 hk).2, Nat.add_sub_cancel_left]
  · rename_i hnone
    rw [List.findIdx?_eq_none_iff_findIdx_eq.1 hnone, List.length_drop]

theorem sectionLines_eq (ls : List Line) (name : List Char) :
    sectionLines ls name = sectionOf name ls.zipIdx := by
  have hidx : ls.zipIdx.findIdx (opensSection name) =
      ls.findIdx fun l => l.indent == 0 && l.hasKey name := by
    conv_rhs => rw [← List.zipIdx_map_fst 0 ls, List.findIdx_map]
    rfl
  simp only [sectionOf, List.dropWhile_eq_drop_findIdx_not, Bool.not_not, List.drop_drop]
  rw [show (fun a => opensSection name a) = opensSection name from rfl, hidx]
  unfold sectionLines topSection
  cases hfind : ls.findIdx? fun l => l.indent == 0 && l.hasKey name with
  | none =>
    rw [List.findIdx?_eq_none_iff_findIdx_eq.1 hfind, List.drop_eq_nil_of_le (by simp)]
    rfl
  | some header =>
    rw [(List.findIdx?_eq_some_iff_findIdx_eq.1 hfind).2, takeWhile_not_closes]
    rfl

/-- A numbered line with its terminator and its number changed. -/
def relabel (τ : Terminator → Terminator) (σ : Nat → Nat) (a : Line × Nat) : Line × Nat :=
  (a.1.terminate τ, σ a.2)

variable {τ : Terminator → Terminator} {σ : Nat → Nat}

theorem sectionOf_relabel (name : List Char) (ls : List (Line × Nat)) :
    sectionOf name (ls.map (relabel τ σ)) = (sectionOf name ls).map (relabel τ σ) := by
  simp only [sectionOf, List.dropWhile_map, ← List.map_drop, List.takeWhile_map]
  rfl

end SchemaTidy.Source

namespace SchemaTidy.Dedupe
open Source Text

variable {indent : Nat} {τ : Terminator → Terminator} {σ : Nat → Nat}

/-! ## What is found -/

def Definition.renumbered (σ : Nat → Nat) (d : Definition) : Definition := ⟨σ d.line, d.key⟩

def Reference.renumbered (σ : Nat → Nat) (r : Reference) : Reference := ⟨σ r.line, r.item⟩

def ClassBlock.renumbered (σ : Nat → Nat) (c : ClassBlock) : ClassBlock :=
  ⟨σ c.header, c.name, c.references.map (Reference.renumbered σ)⟩

def Rename.renumbered (σ : Nat → Nat) (r : Rename) : Rename := { r with line := σ r.line }

/-- The definitions among the lines of a section. -/
def definitionsIn (indent : Nat) (ls : List (Line × Nat)) : List Definition :=
  ls.filterMap fun a => (keyAt indent a.1).map (⟨a.2, ·⟩)

theorem definitionsIn_relabel (ls : List (Line × Nat)) :
    definitionsIn indent (ls.map (relabel τ σ)) =
      (definitionsIn indent ls).map (Definition.renumbered σ) := by
  rw [definitionsIn, definitionsIn, List.filterMap_map, List.map_filterMap]
  refine List.filterMap_congr fun a _ => ?_
  rw [Function.comp_apply, Option.map_map]
  rfl

theorem referencesIn_relabel (body : List (Line × Nat)) :
    referencesIn indent (body.map (relabel τ σ)) =
      (referencesIn indent body).map (Reference.renumbered σ) := by
  induction body with
  | nil => rfl
  | cons a rest ih =>
    have hlisted : listedItems indent (rest.map (relabel τ σ)) =
        (listedItems indent rest).map (Reference.renumbered σ) := by
      rw [listedItems_eq, listedItems_eq, List.takeWhile_map, List.filterMap_map,
        List.map_filterMap]
      refine List.filterMap_congr fun b _ => ?_
      rw [Function.comp_apply, Option.map_map]
      rfl
    obtain ⟨l, i⟩ := a
    rw [List.map_cons, show relabel τ σ (l, i) = (l.terminate τ, σ i) from rfl, referencesIn,
      referencesIn, List.map_append, ih, hlisted, Line.indent_terminate, Line.hasKey_terminate,
      Line.flowItems_terminate]
    congr 1
    by_cases hheader : l.indent = indent ∧ l.hasKey slotsName = true
    · rw [if_pos hheader, if_pos hheader]
      cases l.flowItems with
      | none => rfl
      | some items =>
        dsimp only
        rw [List.map_map]
        rfl
    · rw [if_neg hheader, if_neg hheader, List.map_nil]

theorem blocksIn_relabel (ls : List (Line × Nat)) :
    blocksIn indent (ls.map (relabel τ σ)) =
      (blocksIn indent ls).map (ClassBlock.renumbered σ) := by
  induction ls with
  | nil => rfl
  | cons a rest ih =>
    have hbody : bodyOf indent (rest.map (relabel τ σ)) =
        (bodyOf indent rest).map (relabel τ σ) := List.takeWhile_map
    rw [List.map_cons, blocksIn_cons, blocksIn_cons, ih, hbody, referencesIn_relabel]
    have hkey : keyAt indent (relabel τ σ a).1 = keyAt indent a.1 := rfl
    rw [hkey]
    cases keyAt indent a.1 <;> rfl

/-! ## What is planned -/

theorem duplicates_renumber (defs : List Definition) :
    duplicates (defs.map (Definition.renumbered σ)) =
      (duplicates defs).map fun g => (g.1, g.2.map (Definition.renumbered σ)) := by
  have hgroup : ∀ name, definitionsOf (defs.map (Definition.renumbered σ)) name =
      (definitionsOf defs name).map (Definition.renumbered σ) := fun name => List.filter_map
  rw [duplicates_eq, duplicates_eq, List.map_map, List.map_filterMap]
  refine List.filterMap_congr fun name _ => ?_
  rw [hgroup, List.length_map]
  split <;> rfl

theorem renameAt_renumber (owners : List (List Char)) (d : Definition) (k : Nat) :
    renameAt owners (d.renumbered σ) k = (renameAt owners d k).renumbered σ := by
  unfold renameAt
  split <;> rfl

theorem owners_renumber (classes : List ClassBlock) (slot : List Char) :
    owners (classes.map (ClassBlock.renumbered σ)) slot = owners classes slot := by
  have hlists : (fun c : ClassBlock => c.lists slot) ∘ ClassBlock.renumbered σ =
      fun c => c.lists slot := by
    funext c
    exact List.any_map
  rw [owners, owners, List.filter_map, hlists, List.map_map]
  rfl

theorem assign_renumber (defs : List Definition) (classes : List ClassBlock) :
    assign (duplicates (defs.map (Definition.renumbered σ)))
        (classes.map (ClassBlock.renumbered σ)) =
      (assign (duplicates defs) classes).map (Rename.renumbered σ) := by
  rw [assign, assign, duplicates_renumber, List.flatMap_map, List.map_flatMap]
  refine congrArg (List.flatMap · _) ?_
  funext ⟨slot, group⟩
  simp only [List.zipIdx_map, ← List.map_drop, List.map_map]
  refine List.map_congr_left fun ⟨d, k⟩ _ => ?_
  simp only [Function.comp_apply, Prod.map_apply, id, owners_renumber]
  exact renameAt_renumber _ d k

theorem variantFor_renumber (className : List Char) (variants : List Rename) :
    variantFor className (variants.map (Rename.renumbered σ)) =
      (variantFor className variants).map (Rename.renumbered σ) := by
  simp only [variantFor, List.find?_map, Option.orElse_eq_orElse, Option.orElse_eq_or,
    Option.map_or]
  rfl

/-- The edit of another line. -/
def renumberedEdit (σ : Nat → Nat) (e : Edit) : Edit := { e with line := σ e.line }

theorem propagate_renumber (renames : List Rename) (classes : List ClassBlock) :
    propagate (renames.map (Rename.renumbered σ)) (classes.map (ClassBlock.renumbered σ)) =
      (propagate renames classes).map (renumberedEdit σ) := by
  have hnamed : ∀ name, (renames.map (Rename.renumbered σ)).filter (·.name == name) =
      (renames.filter (·.name == name)).map (Rename.renumbered σ) := fun name => List.filter_map
  rw [propagate, propagate, List.flatMap_map, List.map_flatMap]
  refine congrArg (List.flatMap · _) ?_
  funext c
  rw [List.map_filterMap, ClassBlock.renumbered, List.filterMap_map]
  refine List.filterMap_congr fun r _ => ?_
  rw [Function.comp_apply, hnamed, Reference.renumbered, variantFor_renumber, Option.map_map,
    Option.map_map]
  rfl

theorem edited_renumber (es : List Edit) (l : Line) :
    l.edited (es.map (renumberedEdit σ)) = l.edited es := by
  rw [Line.edited, List.foldr_map]
  rfl

end SchemaTidy.Dedupe
