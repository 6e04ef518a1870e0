import SchemaTidy.Dedupe.Plan
import SchemaTidy.Proofs.Dedupe.Sections
import SchemaTidy.Proofs.Lists

/-! # Renames and the references that follow them

What `assign` plans for the repeated names of a list of definitions, and which edits `propagate`
adds for the references of the classes. Each definition is renamed at most once, to a longer name,
and the first one of a name is not renamed. -/

namespace SchemaTidy.Dedupe
open Source Text

/-! ## Repeated names -/

/-- The definitions of a name. -/
def definitionsOf (defs : List Definition) (name : List Char) : List Definition :=
  defs.filter (·.key.text == name)

theorem mem_definitionsOf {defs : List Definition} {name : List Char} {d : Definition} :
    d ∈ definitionsOf defs name ↔ d ∈ defs ∧ d.key.text = name := by
  rw [definitionsOf, List.mem_filter, beq_iff_eq]

theorem definition_unique {defs : List Definition} {d d' : Definition}
    (hdefs : defs.Pairwise fun a b => a.line < b.line) (hd : d ∈ defs) (hd' : d' ∈ defs)
    (hline : d.line = d'.line) : d = d' :=
  List.inj_on_of_nodup_map (f := Definition.line) (List.pairwise_map.2 (hdefs.imp Nat.ne_of_lt))
    hd hd' hline

/-- The first definition of a name stands above the others. -/
theorem line_le_of_definitionsOf {defs rest : List Definition} {name : List Char}
    {d d' : Definition} (hdefs : defs.Pairwise fun a b => a.line < b.line)
    (h : definitionsOf defs name = d :: rest)
    (hmem : d' ∈ defs) (hname : d'.key.text = name) : d.line ≤ d'.line := by
  have hpair : (d :: rest).Pairwise fun a b => a.line < b.line := h ▸ hdefs.filter _
  have hmem' : d' ∈ d :: rest := h ▸ mem_definitionsOf.2 ⟨hmem, hname⟩
  rcases List.mem_cons.1 hmem' with rfl | hrest
  · exact Nat.le_refl _
  · exact ((List.pairwise_cons.1 hpair).1 d' hrest).le

theorem duplicates_eq (defs : List Definition) :
    duplicates defs = (defs.map (·.key.text)).eraseDups.filterMap fun name =>
      if 2 ≤ (definitionsOf defs name).length then some (name, definitionsOf defs name)
      else none := by
  unfold duplicates
  refine List.filterMap_congr ?_
  intro name _
  rw [definitionsOf]
  generalize defs.filter (·.key.text == name) = group
  match group with
  | [] => rfl
  | [_] => rfl
  | _ :: _ :: _ => simp

theorem mem_duplicates_iff {defs group : List Definition} {name : List Char} :
    (name, group) ∈ duplicates defs ↔
      group = definitionsOf defs name ∧ 2 ≤ group.length := by
  rw [duplicates_eq, List.mem_filterMap]
  constructor
  · rintro ⟨name', -, h⟩
    split at h
    · obtain ⟨rfl, rfl⟩ := Prod.mk.inj (Option.some.inj h)
      exact ⟨rfl, ‹_›⟩
    · cases h
  · rintro ⟨rfl, hlen⟩
    refine ⟨name, ?_, by rw [if_pos hlen]⟩
    obtain ⟨d, hd⟩ := List.exists_mem_of_length_pos (Nat.lt_of_lt_of_le Nat.zero_lt_two hlen)
    obtain ⟨hmem, hname⟩ := mem_definitionsOf.1 hd
    exact List.mem_eraseDups.2 (List.mem_map.2 ⟨d, hmem, hname⟩)

theorem duplicates_pairwise (defs : List Definition) :
    (duplicates defs).Pairwise fun a b => a.1 ≠ b.1 := by
  rw [duplicates_eq, List.pairwise_filterMap]
  refine (nodup_eraseDups _).imp ?_
  intro a b hab x hx y hy
  split at hx
  · split at hy
    · rw [← Option.some.inj hx, ← Option.some.inj hy]
      exact hab
    · cases hy
  · cases hx

/-! ## Renames -/

@[simp] theorem renameAt_line (owners : List (List Char)) (d : Definition) (k : Nat) :
    (renameAt owners d k).line = d.line := by
  unfold renameAt; split <;> rfl

@[simp] theorem renameAt_key (owners : List (List Char)) (d : Definition) (k : Nat) :
    (renameAt owners d k).key = d.key := by
  unfold renameAt; split <;> rfl

/-- New names are longer than the old ones: something is put before or after an underscore. -/
theorem width_lt_renameAt (owners : List (List Char)) (d : Definition) (k : Nat) :
    width d.key.text < width (renameAt owners d k).renamed := by
  have hsize : Char.utf8Size '_' = 1 := rfl
  unfold renameAt
  split <;> simp only [width_append, width_cons, hsize] <;> omega

theorem mem_assign_iff {defs : List Definition} {classes : List ClassBlock} {r : Rename} :
    r ∈ assign (duplicates defs) classes ↔
      ∃ name k d, (definitionsOf defs name)[k]? = some d ∧ 1 ≤ k ∧
        r = renameAt (owners classes name) d k := by
  unfold assign
  rw [List.mem_flatMap]
  constructor
  · rintro ⟨⟨name, group⟩, hgroup, hr⟩
    obtain ⟨rfl, -⟩ := mem_duplicates_iff.1 hgroup
    obtain ⟨⟨d, k⟩, hmem, rfl⟩ := List.mem_map.1 hr
    obtain ⟨j, hj⟩ := List.mem_iff_getElem?.1 hmem
    rw [List.getElem?_drop, List.getElem?_zipIdx] at hj
    obtain ⟨d', hd', heq⟩ := Option.map_eq_some_iff.1 hj
    obtain ⟨rfl, rfl⟩ := Prod.mk.inj heq
    exact ⟨name, 0 + (1 + j), d', by simpa using hd', by omega, rfl⟩
  · rintro ⟨name, k, d, hd, hk, rfl⟩
    have hlen := (List.getElem?_eq_some_iff.1 hd).1
    refine ⟨(name, definitionsOf defs name), mem_duplicates_iff.2 ⟨rfl, by omega⟩, ?_⟩
    refine List.mem_map.2 ⟨(d, k), List.mem_iff_getElem?.2 ⟨k - 1, ?_⟩, rfl⟩
    rw [List.getElem?_drop, List.getElem?_zipIdx, Nat.add_sub_cancel' hk, hd]
    simp

/-- A rename is that of a definition which has an earlier one of the same name. -/
theorem definition_of_mem_assign {defs : List Definition} {classes : List ClassBlock}
    (hdefs : defs.Pairwise fun a b => a.line < b.line) {r : Rename}
    (h : r ∈ assign (duplicates defs) classes) :
    (⟨r.line, r.key⟩ : Definition) ∈ defs ∧
      (∃ d ∈ defs, d.line < r.line ∧ d.key.text = r.name) ∧ width r.name < width r.renamed := by
  obtain ⟨name, k, d, hd, hk, rfl⟩ := mem_assign_iff.1 h
  have hmem := mem_definitionsOf.1 (List.mem_of_getElem? hd)
  refine ⟨by simpa using hmem.1, ?_, by simpa [Rename.name] using width_lt_renameAt _ d k⟩
  obtain ⟨hbound, rfl⟩ := List.getElem?_eq_some_iff.1 hd
  have hpair : (definitionsOf defs name).Pairwise fun a b => a.line < b.line := hdefs.filter _
  have hfirst := mem_definitionsOf.1 (List.getElem_mem (Nat.lt_of_le_of_lt (Nat.zero_le k) hbound))
  refine ⟨_, hfirst.1, ?_, ?_⟩
  · simpa using List.pairwise_iff_getElem.1 hpair 0 k (by omega) hbound hk
  · simpa [Rename.name, hmem.2] using hfirst.2

theorem assign_pairwise {defs : List Definition} {classes : List ClassBlock}
    (hdefs : defs.Pairwise fun a b => a.line < b.line) :
    (assign (duplicates defs) classes).Pairwise fun a b => a.line ≠ b.line := by
  unfold assign
  rw [List.pairwise_flatMap]
  refine ⟨fun ⟨name, group⟩ hgroup => ?_, (duplicates_pairwise defs).imp_of_mem ?_⟩
  · obtain ⟨rfl, -⟩ := mem_duplicates_iff.1 hgroup
    rw [List.pairwise_map]
    simp only [renameAt_line]
    have hpair : ((definitionsOf defs name).zipIdx.map Prod.fst).Pairwise
        fun a b => a.line < b.line := by
      rw [List.zipIdx_map_fst]
      exact hdefs.filter _
    exact (List.pairwise_map.1 hpair).drop.imp fun hlt => Nat.ne_of_lt hlt
  · rintro ⟨name, group⟩ ⟨name', group'⟩ hgroup hgroup' hne x hx y hy hline
    obtain ⟨rfl, -⟩ := mem_duplicates_iff.1 hgroup
    obtain ⟨rfl, -⟩ := mem_duplicates_iff.1 hgroup'
    obtain ⟨⟨d, k⟩, hd, rfl⟩ := List.mem_map.1 hx
    obtain ⟨⟨d', k'⟩, hd', rfl⟩ := List.mem_map.1 hy
    have hmem := mem_definitionsOf.1 (List.fst_mem_of_mem_zipIdx (List.mem_of_mem_drop hd))
    have hmem' := mem_definitionsOf.1 (List.fst_mem_of_mem_zipIdx (List.mem_of_mem_drop hd'))
    have hsame : d = d' := definition_unique hdefs hmem.1 hmem'.1 (by simpa using hline)
    exact hne (by rw [← hmem.2, ← hmem'.2, hsame])

/-! ## References -/

theorem mem_of_variantFor {className : List Char} {variants : List Rename} {v : Rename}
    (h : variantFor className variants = some v) : v ∈ variants := by
  unfold variantFor at h
  rw [Option.orElse_eq_orElse, Option.orElse_eq_or, Option.or_eq_some_iff] at h
  rcases h with h | ⟨-, h⟩ <;> exact List.mem_of_find?_eq_some h

theorem mem_propagate_iff {renames : List Rename} {classes : List ClassBlock} {e : Edit} :
    e ∈ propagate renames classes ↔ ∃ c ∈ classes, ∃ r ∈ c.references, ∃ v,
      variantFor c.name (renames.filter (·.name == r.item.text)) = some v ∧
        e = ⟨r.line, r.item.span, v.renamed⟩ := by
  unfold propagate
  simp only [List.mem_flatMap, List.mem_filterMap, Option.map_eq_some_iff]
  constructor
  · rintro ⟨c, hc, r, hr, v, hv, rfl⟩
    exact ⟨c, hc, r, hr, v, hv, rfl⟩
  · rintro ⟨c, hc, r, hr, v, hv, rfl⟩
    exact ⟨c, hc, r, hr, v, hv, rfl⟩

theorem propagate_pairwise {renames : List Rename} {classes : List ClassBlock}
    (h : (classes.flatMap (·.references)).Pairwise Reference.Precedes) :
    (propagate renames classes).Pairwise fun a b =>
      a.line < b.line ∨ a.line = b.line ∧ a.span.stop < b.span.start := by
  unfold propagate
  rw [List.pairwise_flatMap] at h ⊢
  refine ⟨fun c hc => ?_, h.2.imp fun {c c'} hcc e he e' he' => ?_⟩
  · rw [List.pairwise_filterMap]
    refine (h.1 c hc).imp ?_
    intro a b hab e he e' he'
    obtain ⟨_, -, rfl⟩ := Option.map_eq_some_iff.1 he
    obtain ⟨_, -, rfl⟩ := Option.map_eq_some_iff.1 he'
    exact hab
  · obtain ⟨r, hr, he⟩ := List.mem_filterMap.1 he
    obtain ⟨r', hr', he'⟩ := List.mem_filterMap.1 he'
    obtain ⟨_, -, rfl⟩ := Option.map_eq_some_iff.1 he
    obtain ⟨_, -, rfl⟩ := Option.map_eq_some_iff.1 he'
    exact hcc r hr r' hr'

end SchemaTidy.Dedupe
