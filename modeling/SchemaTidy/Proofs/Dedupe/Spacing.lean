import SchemaTidy.Proofs.Dedupe.Relabel
import SchemaTidy.Proofs.Source.Filler

/-! # Blank lines and comments do not matter

Every scan skips lines without structure, and depends on the numbers of the other lines only
through their order. So a resolution does the same to a text with such lines put in
(`resolve_insertLines`). -/

namespace SchemaTidy.Source

/-! ## Sections -/

/-- A numbered line with structure. -/
def isStructural (a : Line × Nat) : Bool := a.1.isSignificant

theorem isStructural_of_opensSection {name : List Char} {a : Line × Nat}
    (h : opensSection name a = true) : isStructural a = true := by
  obtain ⟨key, hkey, -⟩ := Line.hasKey_iff.1 (Bool.and_eq_true_iff.1 h).2
  exact Line.isSignificant_of_key hkey

theorem isStructural_of_closes {indent : Nat} {a : Line × Nat} (h : a.1.closes indent = true) :
    isStructural a = true := (Bool.and_eq_true_iff.1 h).1

/-- A scan that stops at no line without structure. -/
theorem takeWhile_structural {p : Line × Nat → Bool}
    (h : ∀ a, p a = false → isStructural a = true) (ls : List (Line × Nat)) :
    (ls.filter isStructural).takeWhile p = (ls.takeWhile p).filter isStructural := by
  rw [List.takeWhile_filter]
  congr 2
  funext a
  cases hp : p a with
  | true => simp
  | false => simp [h a hp]

theorem dropWhile_structural {p : Line × Nat → Bool}
    (h : ∀ a, p a = false → isStructural a = true) (ls : List (Line × Nat)) :
    (ls.filter isStructural).dropWhile p = (ls.dropWhile p).filter isStructural := by
  rw [List.dropWhile_filter]
  congr 2
  funext a
  cases hp : p a with
  | true => simp
  | false => simp [h a hp]

theorem sectionOf_filter (name : List Char) (ls : List (Line × Nat)) :
    sectionOf name (ls.filter isStructural) = (sectionOf name ls).filter isStructural := by
  have hcloses : ∀ a : Line × Nat, (!a.1.closes 0) = false → isStructural a = true := fun a ha =>
    isStructural_of_closes (by simpa using ha)
  have hopens : ∀ a, (!opensSection name a) = false → isStructural a = true := fun a ha =>
    isStructural_of_opensSection (by simpa using ha)
  rw [sectionOf, sectionOf, dropWhile_structural hopens, ← takeWhile_structural hcloses]
  congr 1
  cases hdrop : ls.dropWhile fun a => !opensSection name a with
  | nil => rfl
  | cons a rest =>
    have hhead : (!opensSection name a) = false := by
      have := List.head?_dropWhile_not (fun a => !opensSection name a) ls
      simpa [hdrop] using this
    rw [List.filter_cons_of_pos (hopens a hhead)]
    rfl

/-- A section of lines with others put in, as far as lines with structure go. -/
theorem sectionLines_interleave {ins : Nat → List Line}
    (hins : ∀ j, ∀ l ∈ ins j, l.isSignificant = false) (ls : List Line) (name : List Char) :
    (sectionLines (interleave ins 0 ls) name).filter isStructural =
      ((sectionLines ls name).filter isStructural).map (relabel id (place ins)) := by
  rw [sectionLines_eq, sectionLines_eq, ← sectionOf_filter, ← sectionOf_filter,
    ← sectionOf_relabel]
  exact congrArg (sectionOf name) (filter_zipIdx_interleave hins (by rw [place_zero]; omega))

end SchemaTidy.Source

namespace SchemaTidy.Dedupe
open Source Text

variable {indent : Nat}

/-! ## Lines without structure -/

theorem keyAt_of_not_structural {a : Line × Nat} (h : ¬ isStructural a = true) :
    keyAt indent a.1 = none := by
  cases hkey : keyAt indent a.1 with
  | none => rfl
  | some key => exact absurd (Line.isSignificant_of_key (keyAt_eq_some_iff.1 hkey).2) h

theorem not_hasKey_of_not_structural {a : Line × Nat} (h : ¬ isStructural a = true)
    (name : List Char) : ¬ a.1.hasKey name = true := fun hhas =>
  have ⟨_, hkey, _⟩ := Line.hasKey_iff.1 hhas
  h (Line.isSignificant_of_key hkey)

theorem isStructural_of_not_continuesList {a : Line × Nat} (h : continuesList indent a.1 = false) :
    isStructural a = true := by
  unfold continuesList at h
  unfold isStructural Line.isSignificant
  split at h <;> simp_all

theorem value_of_not_structural {a : Line × Nat} (h : ¬ isStructural a = true) :
    a.1.value = none := by
  unfold isStructural Line.isSignificant at h
  unfold Line.value
  split at h <;> simp_all

theorem listedItems_filter (body : List (Line × Nat)) :
    listedItems indent (body.filter isStructural) = listedItems indent body := by
  rw [listedItems_eq, listedItems_eq,
    takeWhile_structural fun a ha => isStructural_of_not_continuesList ha, List.filterMap_filter]
  refine List.filterMap_congr fun a _ => ?_
  split
  · rfl
  · rename_i hnot
    rw [value_of_not_structural hnot]
    rfl

theorem referencesIn_filter (body : List (Line × Nat)) :
    referencesIn indent (body.filter isStructural) = referencesIn indent body := by
  induction body with
  | nil => rfl
  | cons a rest ih =>
    by_cases ha : isStructural a = true
    · rw [List.filter_cons_of_pos ha, referencesIn, referencesIn, ih, listedItems_filter]
    · rw [List.filter_cons_of_neg ha, referencesIn, ih,
        if_neg fun h => not_hasKey_of_not_structural ha _ h.2, List.nil_append]

theorem blocksIn_filter (ls : List (Line × Nat)) :
    blocksIn indent (ls.filter isStructural) = blocksIn indent ls := by
  induction ls with
  | nil => rfl
  | cons a rest ih =>
    by_cases ha : isStructural a = true
    · have hbody : bodyOf indent (rest.filter isStructural) =
          (bodyOf indent rest).filter isStructural :=
        takeWhile_structural (fun b hb => isStructural_of_closes (by simpa using hb)) rest
      rw [List.filter_cons_of_pos ha, blocksIn_cons, blocksIn_cons, ih, hbody, referencesIn_filter]
    · rw [List.filter_cons_of_neg ha, blocksIn_cons, ih, keyAt_of_not_structural ha]

/-! ## Lines put in -/

variable {ins : Nat → List Line}

theorem definitionsIn_filter (ls : List (Line × Nat)) :
    definitionsIn indent (ls.filter isStructural) = definitionsIn indent ls := by
  rw [definitionsIn, List.filterMap_filter]
  refine List.filterMap_congr fun a _ => ?_
  split
  · rfl
  · rename_i hnot
    rw [keyAt_of_not_structural hnot]
    rfl

theorem definitions_interleave (hins : ∀ j, ∀ l ∈ ins j, l.isSignificant = false)
    (indent : Nat) (ls : List Line) :
    definitions indent (interleave ins 0 ls) =
      (definitions indent ls).map (Definition.renumbered (place ins)) := by
  rw [definitions_eq, definitions_eq, ← definitionsIn, ← definitionsIn, ← definitionsIn_filter,
    sectionLines_interleave hins, definitionsIn_relabel, definitionsIn_filter]

theorem classBlocks_interleave (hins : ∀ j, ∀ l ∈ ins j, l.isSignificant = false)
    (indent : Nat) (ls : List Line) :
    classBlocks indent (interleave ins 0 ls) =
      (classBlocks indent ls).map (ClassBlock.renumbered (place ins)) := by
  rw [classBlocks, classBlocks, ← blocksIn_filter, sectionLines_interleave hins,
    blocksIn_relabel, blocksIn_filter]

theorem plan_interleave (hins : ∀ j, ∀ l ∈ ins j, l.isSignificant = false)
    (indent : Nat) (ls : List Line) :
    plan indent (interleave ins 0 ls) = (plan indent ls).map (Rename.renumbered (place ins)) := by
  rw [plan, plan, definitions_interleave hins, classBlocks_interleave hins, assign_renumber]

theorem planEdits_interleave (hins : ∀ j, ∀ l ∈ ins j, l.isSignificant = false)
    (indent : Nat) (ls : List Line) :
    planEdits indent (interleave ins 0 ls) =
      (planEdits indent ls).map (renumberedEdit (place ins)) := by
  rw [planEdits, planEdits, plan_interleave hins, classBlocks_interleave hins,
    propagate_renumber, List.map_append, List.map_map, List.map_map]
  rfl

/-- A line without structure is not edited. -/
theorem lineEdits_eq_nil {ls : List Line} {i : Nat} {l : Line} (hl : ls[i]? = some l)
    (h : l.isSignificant = false) : lineEdits indent ls i = [] := by
  refine List.eq_nil_iff_forall_not_mem.2 fun e he => ?_
  obtain ⟨p, -, ⟨hdefines, -⟩ | hlisted⟩ := mayChange_of_mem_lineEdits he
  · exact absurd (Line.isSignificant_of_key (hdefines.line hl).2) (by simp [h])
  · cases hlisted.listedIn hl with
    | flow items _ hkey _ _ =>
      obtain ⟨key, hkey, -⟩ := Line.hasKey_iff.1 hkey
      exact absurd (Line.isSignificant_of_key hkey) (by simp [h])
    | block _ hkind =>
      rw [Line.isSignificant, hkind] at h
      cases h

theorem lineEdits_interleave (hins : ∀ j, ∀ l ∈ ins j, l.isSignificant = false)
    (indent : Nat) (ls : List Line) (i : Nat) :
    lineEdits indent (interleave ins 0 ls) (place ins i) =
      (lineEdits indent ls i).map (renumberedEdit (place ins)) := by
  have hline : (fun e : Edit => e.line == place ins i) ∘ renumberedEdit (place ins) =
      fun e => e.line == i := by
    funext e
    rw [Bool.eq_iff_iff, Function.comp_apply, beq_iff_eq, beq_iff_eq]
    exact (place_injective ins).eq_iff
  rw [lineEdits, planEdits_interleave hins, List.filter_map, hline, lineEdits]

/-- **Resolving lines with others put in.** -/
theorem resolved_interleave (hins : ∀ j, ∀ l ∈ ins j, l.isSignificant = false)
    (indent : Nat) (ls : List Line) :
    resolved indent (interleave ins 0 ls) = interleave ins 0 (resolved indent ls) := by
  rw [resolved_eq, resolved_eq, editLines, editLines, List.mapIdx_eq_zipIdx_map,
    List.mapIdx_eq_zipIdx_map]
  refine map_zipIdx_interleave (by rw [place_zero]; omega) (fun j l hl m hm => ?_) fun l i => ?_
  · have hget : (interleave ins 0 ls)[m]? = some l := by
      simpa using List.mk_mem_zipIdx_iff_getElem?.1 hm
    dsimp only
    rw [lineEdits_eq_nil hget (hins j l hl), Line.edited_nil]
  · dsimp only
    rw [lineEdits_interleave hins, edited_renumber]

/-- **Blank lines and comments do not matter.** Lines that hold only spaces, or spaces and a
comment, may be put before any line, or behind the last one if it is terminated. Resolving the text
then gives the old result with the same lines put in, and the same renames, each moved down by the
number of lines put in above it. -/
theorem resolve_insertLines (indentWidth : Nat) (text : List Char) (ins : Nat → List (List Char))
    (hfillers : ∀ i, ∀ t ∈ ins i, isFiller t = true)
    (hend : ins (lines text).length ≠ [] → text = [] ∨ text.getLast? = some '\n') :
    resolve indentWidth (insertLines ins text) =
      ⟨insertLines ins (resolve indentWidth text).text,
        (resolve indentWidth text).renames.map fun r =>
          { r with line := r.line + insertedAbove ins r.line }⟩ := by
  have hins : ∀ j, ∀ l ∈ fedLines ins j, l.isSignificant = false := by
    intro j l hl
    obtain ⟨t, ht, rfl⟩ := List.mem_map.1 hl
    exact isSignificant_fedLine (hfillers j t ht)
  have hplace : ∀ i, place (fedLines ins) i = i + insertedAbove ins i := by
    intro i
    simp [place, insertedAbove, fedLines]
  rw [resolve_eq, lines_insertLines hfillers (fitsAfter_lines hend), resolved_interleave hins,
    plan_interleave hins, insertLines_eq, lines_resolve, resolve_eq]
  congr 1
  refine List.map_congr_left fun r _ => ?_
  rw [Rename.renumbered, hplace]

/-- A comment before the second definition and a blank line at the end. -/
theorem resolve_insertLines_two_fillers :
    let text := "slots:\n  a:\n  a:\n".toList
    let ins : Nat → List (List Char) := fun i =>
      if i = 2 then ["    # again".toList] else if i = 3 then [[]] else []
    (resolve 2 text).renames.map (·.line) = [2] ∧
      (resolve 2 (insertLines ins text)).renames.map (·.line) = [3] ∧
      insertLines ins text = "slots:\n  a:\n    # again\n  a:\n\n".toList := by
  intro text ins
  have hfillers : ∀ i, ∀ t ∈ ins i, isFiller t = true := by
    intro i t ht
    simp only [ins] at ht
    split at ht
    · obtain rfl := List.mem_singleton.1 ht
      decide
    · split at ht
      · obtain rfl := List.mem_singleton.1 ht
        decide
      · cases ht
  rw [resolve_insertLines 2 text ins hfillers fun _ => .inr (by decide)]
  decide

end SchemaTidy.Dedupe
