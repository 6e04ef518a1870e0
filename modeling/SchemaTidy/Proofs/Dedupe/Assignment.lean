import SchemaTidy.Proofs.Dedupe.Edits

/-! # Who gets which definition

Definitions of a repeated name and the classes that list it are paired by position. When the
classes have different names, each class from the second one on refers to the definition that is
paired with it, and only the first class is left to look for a definition that is paired with
none (`plan_followsOwners`). -/

namespace SchemaTidy.Dedupe
open Source Text

/-! ## The rule -/

/-- The name of the definition at position `k` when it is paired with no class. -/
def numbered (slot : List Char) (k : Nat) : List Char := slot ++ '_' :: Nat.toDigits 10 (k + 1)

/-- The renames of a definition. -/
def renamesOf (renames : List Rename) (d : Definition) : List Rename :=
  renames.filter (·.line == d.line)

/-- The texts that edits put in place of a reference. -/
def redirections (edits : List Edit) (r : Reference) : List (List Char) :=
  (edits.filter fun e => e.line == r.line && e.span == r.item.span).map (·.replacement)

/-- How the definitions `defs` of a slot are named after the classes that list it, and how these
classes refer to them. Both lists are in the order of the text. -/
structure FollowsOwners (slot : List Char) (defs : List Definition) (classes : List ClassBlock)
    (renames : List Rename) (edits : List Edit) : Prop where
  /-- The first definition keeps its name. -/
  first_kept : ∀ d, defs[0]? = some d → renamesOf renames d = []
  /-- A definition is named after the class at its position. -/
  owned : ∀ k d c, 1 ≤ k → defs[k]? = some d → classes[k]? = some c →
    renamesOf renames d = [⟨d.line, d.key, lowercase c.name ++ '_' :: slot, some c.name⟩]
  /-- A definition without a class at its position is numbered. -/
  ownerless : ∀ k d, 1 ≤ k → defs[k]? = some d → classes.length ≤ k →
    renamesOf renames d = [⟨d.line, d.key, numbered slot k, none⟩]
  /-- The references of a class go to the definition at its position. -/
  to_owned : ∀ k c, 1 ≤ k → k < defs.length → classes[k]? = some c →
    ∀ r ∈ c.references, r.item.text = slot →
      redirections edits r = [lowercase c.name ++ '_' :: slot]
  /-- Those of the first class go to the first numbered definition that mentions it. -/
  first_to_ownerless : ∀ k c, classes[0]? = some c → classes.length ≤ k → k < defs.length →
    occursIn (lowercase c.name) (lowercase (numbered slot k)) = true →
    (∀ j, classes.length ≤ j → j < k →
      occursIn (lowercase c.name) (lowercase (numbered slot j)) = false) →
    ∀ r ∈ c.references, r.item.text = slot → redirections edits r = [numbered slot k]
  /-- They stay when no numbered definition mentions it. -/
  first_stays : ∀ c, classes[0]? = some c →
    (∀ k, classes.length ≤ k → k < defs.length →
      occursIn (lowercase c.name) (lowercase (numbered slot k)) = false) →
    ∀ r ∈ c.references, r.item.text = slot → redirections edits r = []
  /-- So do those of a class that has no definition at its position. -/
  surplus_stays : ∀ k c, defs.length ≤ k → classes[k]? = some c →
    ∀ r ∈ c.references, r.item.text = slot → redirections edits r = []
  /-- No class is sent to a definition that is named after another one. -/
  not_foreign : ∀ c ∈ classes, ∀ r ∈ c.references, r.item.text = slot →
    ∀ new ∈ redirections edits r, ∃ v ∈ renames,
      v.name = slot ∧ v.renamed = new ∧ (v.owner = none ∨ v.owner = some c.name)

/-! ## Renames by position -/

theorem renameAt_of_owner {owners : List (List Char)} {d : Definition} {k : Nat} {owner : List Char}
    (h : owners[k]? = some owner) :
    renameAt owners d k = ⟨d.line, d.key, lowercase owner ++ '_' :: d.key.text, some owner⟩ := by
  rw [renameAt, h]

theorem renameAt_of_none {owners : List (List Char)} {d : Definition} {k : Nat}
    (h : owners[k]? = none) :
    renameAt owners d k = ⟨d.line, d.key, numbered d.key.text k, none⟩ := by
  rw [renameAt, h]
  rfl

@[simp] theorem owner_renameAt (owners : List (List Char)) (d : Definition) (k : Nat) :
    (renameAt owners d k).owner = owners[k]? := by
  unfold renameAt
  split <;> simp_all

theorem getElem?_owners (classes : List ClassBlock) (slot : List Char) (k : Nat) :
    (owners classes slot)[k]? = (classes.filter (·.lists slot))[k]?.map (·.name) := by
  rw [owners, List.getElem?_map]

variable {defs : List Definition} {classes : List ClassBlock} {slot : List Char}

/-- The renames of a slot. -/
def variants (defs : List Definition) (classes : List ClassBlock) (slot : List Char) :
    List Rename :=
  (assign (duplicates defs) classes).filter (·.name == slot)

/-- The renames of a name are those of its definitions but the first, in their order. -/
theorem variants_eq (h : 2 ≤ (definitionsOf defs slot).length) :
    variants defs classes slot =
      ((definitionsOf defs slot).zipIdx.drop 1).map
        fun a => renameAt (owners classes slot) a.1 a.2 := by
  have hname : ∀ name group, (name, group) ∈ duplicates defs → ∀ r ∈ ((group.zipIdx.drop 1).map
      fun a => renameAt (owners classes name) a.1 a.2), r.name = name := by
    intro name group hmem r hr
    obtain ⟨rfl, -⟩ := mem_duplicates_iff.1 hmem
    obtain ⟨a, ha, rfl⟩ := List.mem_map.1 hr
    rw [Rename.name, renameAt_key]
    exact (mem_definitionsOf.1 (List.fst_mem_of_mem_zipIdx (List.mem_of_mem_drop ha))).2
  have hmem : (slot, definitionsOf defs slot) ∈ duplicates defs := mem_duplicates_iff.2 ⟨rfl, h⟩
  have hnodup : (duplicates defs).Nodup :=
    (duplicates_pairwise defs).imp fun hne heq => hne (congrArg Prod.fst heq)
  unfold variants assign
  rw [List.filter_flatMap, flatMap_eq_of_nodup hnodup hmem]
  · exact List.filter_eq_self.2 fun r hr => beq_iff_eq.2 (hname _ _ hmem r hr)
  · rintro ⟨name, group⟩ hgroup hne
    refine List.filter_eq_nil_iff.2 fun r hr heq => hne ?_
    obtain rfl : name = slot := (hname _ _ hgroup r hr).symm.trans (beq_iff_eq.1 heq)
    rw [(mem_duplicates_iff.1 hgroup).1]

theorem mem_variants_iff {v : Rename} :
    v ∈ variants defs classes slot ↔
      ∃ k d, 1 ≤ k ∧ (definitionsOf defs slot)[k]? = some d ∧
        v = renameAt (owners classes slot) d k := by
  rw [variants, List.mem_filter, mem_assign_iff, beq_iff_eq]
  constructor
  · rintro ⟨⟨name, k, d, hd, hk, rfl⟩, hname⟩
    obtain rfl : name = slot := by
      rw [Rename.name, renameAt_key] at hname
      exact (mem_definitionsOf.1 (List.mem_of_getElem? hd)).2.symm.trans hname
    exact ⟨k, d, hk, hd, rfl⟩
  · rintro ⟨k, d, hk, hd, rfl⟩
    refine ⟨⟨slot, k, d, hd, hk, rfl⟩, ?_⟩
    rw [Rename.name, renameAt_key]
    exact (mem_definitionsOf.1 (List.mem_of_getElem? hd)).2

theorem renamesOf_assign (hdefs : defs.Pairwise fun a b => a.line < b.line) {k : Nat}
    {d : Definition} (hd : (definitionsOf defs slot)[k]? = some d) :
    renamesOf (assign (duplicates defs) classes) d =
      if 1 ≤ k then [renameAt (owners classes slot) d k] else [] := by
  have hgroup : (definitionsOf defs slot).Nodup :=
    (hdefs.filter _).imp fun hlt heq => Nat.ne_of_lt hlt (congrArg Definition.line heq)
  have hmem : ∀ r, r ∈ renamesOf (assign (duplicates defs) classes) d ↔
      1 ≤ k ∧ r = renameAt (owners classes slot) d k := by
    intro r
    rw [renamesOf, List.mem_filter, mem_assign_iff, beq_iff_eq]
    constructor
    · -- the line fixes the definition, and with it the name and the position
      rintro ⟨⟨name, k', d', hd', hk', rfl⟩, hline⟩
      rw [renameAt_line] at hline
      obtain ⟨hmem', hname'⟩ := mem_definitionsOf.1 (List.mem_of_getElem? hd')
      obtain ⟨hmem, hname⟩ := mem_definitionsOf.1 (List.mem_of_getElem? hd)
      obtain rfl : d' = d := definition_unique hdefs hmem' hmem hline
      obtain rfl : name = slot := hname'.symm.trans hname
      obtain rfl : k' = k :=
        (List.getElem?_inj (List.getElem?_eq_some_iff.1 hd').1 hgroup).1 (hd'.trans hd.symm)
      exact ⟨hk', rfl⟩
    · rintro ⟨hk, rfl⟩
      exact ⟨⟨slot, k, d, hd, hk, rfl⟩, renameAt_line _ _ _⟩
  have hnodup : (renamesOf (assign (duplicates defs) classes) d).Nodup :=
    ((assign_pairwise hdefs).filter _).imp fun hne heq => hne (congrArg Rename.line heq)
  split
  · rename_i hk
    refine List.perm_singleton.1 ((List.perm_ext_iff_of_nodup hnodup (List.nodup_singleton _)).2 ?_)
    intro r
    rw [hmem, List.mem_singleton, and_iff_right hk]
  · rename_i hk
    exact List.eq_nil_iff_forall_not_mem.2 fun r hr => hk ((hmem r).1 hr).1

/-! ## References by owner -/

theorem nodup_places {references : List Reference} (h : references.Pairwise Reference.Precedes) :
    (references.map fun r => (r.line, r.item.span)).Nodup := by
  refine List.pairwise_map.2 (h.imp fun {a b} hab heq => ?_)
  obtain ⟨hline, hspan⟩ := Prod.mk.inj heq
  have hle : a.item.span.start ≤ a.item.span.stop := Nat.le_add_right _ _
  rcases hab with hlt | ⟨-, hlt⟩
  · omega
  · rw [← hspan] at hlt
    omega

/-- A reference is redirected by its own class alone. -/
theorem redirections_propagate {renames : List Rename}
    (hreferences : (classes.flatMap (·.references)).Pairwise Reference.Precedes)
    {c : ClassBlock} {r : Reference} (hc : c ∈ classes) (hr : r ∈ c.references) :
    redirections (propagate renames classes) r =
      ((variantFor c.name (renames.filter (·.name == r.item.text))).map (·.renamed)).toList := by
  -- each class with each of its references; no two pairs share a place
  let pairs := classes.flatMap fun c => c.references.map (c, ·)
  let redirect (a : ClassBlock × Reference) : Option Edit :=
    (variantFor a.1.name (renames.filter (·.name == a.2.item.text))).map
      fun v => ⟨a.2.line, a.2.item.span, v.renamed⟩
  have hplaces : (pairs.map fun a => (a.2.line, a.2.item.span)).Nodup := by
    have hrefs : pairs.map Prod.snd = classes.flatMap (·.references) := by
      simp only [pairs, List.map_flatMap, List.map_map, Function.comp_def, List.map_id']
    have := nodup_places hreferences
    rwa [← hrefs, List.map_map] at this
  have hpairs : propagate renames classes = pairs.flatMap fun a => (redirect a).toList := by
    unfold propagate
    simp only [pairs, List.flatMap_assoc, List.flatMap_map, List.filterMap_eq_flatMap_toList]
    rfl
  have hmem : (c, r) ∈ pairs := List.mem_flatMap.2 ⟨c, hc, List.mem_map_of_mem hr⟩
  unfold redirections
  rw [hpairs, List.filter_flatMap, List.map_flatMap, flatMap_eq_of_nodup hplaces.of_map hmem]
  · dsimp only [redirect]
    cases variantFor c.name (renames.filter (·.name == r.item.text)) <;> simp
  · rintro ⟨c', r'⟩ hmem' hne
    have hplace : ¬ (r'.line = r.line ∧ r'.item.span = r.item.span) := fun ⟨hline, hspan⟩ =>
      hne (List.inj_on_of_nodup_map hplaces hmem' hmem (Prod.ext hline hspan))
    dsimp only [redirect]
    cases variantFor c'.name (renames.filter (·.name == r'.item.text)) <;> simp_all

/-- A class named like the owner at some position finds the variant there, and no other one. -/
theorem variantFor_of_owner {k : Nat} {d : Definition} {name : List Char}
    (hnodup : (owners classes slot).Nodup) (hk : 1 ≤ k)
    (hd : (definitionsOf defs slot)[k]? = some d) (hname : (owners classes slot)[k]? = some name) :
    variantFor name (variants defs classes slot) = some (renameAt (owners classes slot) d k) := by
  have hmem : renameAt (owners classes slot) d k ∈ variants defs classes slot :=
    mem_variants_iff.2 ⟨k, d, hk, hd, rfl⟩
  unfold variantFor
  cases hfind : (variants defs classes slot).find? (·.owner == some name) with
  | none =>
    have := List.find?_eq_none.1 hfind _ hmem
    rw [owner_renameAt, hname] at this
    exact absurd (beq_self_eq_true _) this
  | some v =>
    obtain ⟨k', d', hk', hd', rfl⟩ := mem_variants_iff.1 (List.mem_of_find?_eq_some hfind)
    have howner : (renameAt (owners classes slot) d' k').owner = some name := by
      simpa only [beq_iff_eq] using List.find?_some hfind
    rw [owner_renameAt] at howner
    obtain rfl : k' = k := (List.getElem?_inj (List.getElem?_eq_some_iff.1 howner).1 hnodup).1
      (howner.trans hname.symm)
    rw [hd] at hd'
    rw [Option.some.inj hd']
    rfl

/-- The first class owns no variant, nor does one that has no definition at its position. Such a
class looks among the variants without an owner. -/
theorem variantFor_of_no_owner {k : Nat} {name : List Char}
    (hnodup : (owners classes slot).Nodup) (hname : (owners classes slot)[k]? = some name)
    (hk : k = 0 ∨ (definitionsOf defs slot).length ≤ k) :
    variantFor name (variants defs classes slot) = (variants defs classes slot).find?
      fun v => v.owner.isNone && occursIn (lowercase name) (lowercase v.renamed) := by
  have hnone : (variants defs classes slot).find? (·.owner == some name) = none := by
    refine List.find?_eq_none.2 fun v hv howner => ?_
    obtain ⟨j, d, hj, hd, rfl⟩ := mem_variants_iff.1 hv
    rw [owner_renameAt, beq_iff_eq] at howner
    have hbound := (List.getElem?_eq_some_iff.1 hd).1
    have hsame : j = k := (List.getElem?_inj (List.getElem?_eq_some_iff.1 howner).1 hnodup).1
      (howner.trans hname.symm)
    omega
  unfold variantFor
  rw [hnone]
  rfl

theorem mentions_renameAt {owners : List (List Char)} {d : Definition} (k : Nat) (name : List Char)
    (hd : d ∈ definitionsOf defs slot) :
    ((renameAt owners d k).owner.isNone &&
        occursIn (lowercase name) (lowercase (renameAt owners d k).renamed)) =
      (decide (owners.length ≤ k) && occursIn (lowercase name) (lowercase (numbered slot k))) := by
  rw [owner_renameAt]
  cases howner : owners[k]? with
  | none =>
    have hlen : owners.length ≤ k := List.getElem?_eq_none_iff.1 howner
    rw [renameAt_of_none howner, (mem_definitionsOf.1 hd).2, decide_eq_true hlen]
    rfl
  | some owner =>
    have hlen : ¬ owners.length ≤ k := Nat.not_le.2 (List.getElem?_eq_some_iff.1 howner).1
    rw [decide_eq_false hlen]
    rfl

theorem find?_ownerless_eq_none {name : List Char}
    (h : ∀ k, (owners classes slot).length ≤ k → k < (definitionsOf defs slot).length → 1 ≤ k →
      occursIn (lowercase name) (lowercase (numbered slot k)) = false) :
    ((variants defs classes slot).find?
      fun v => v.owner.isNone && occursIn (lowercase name) (lowercase v.renamed)) = none := by
  refine List.find?_eq_none.2 fun v hv hmentions => ?_
  obtain ⟨k, d, hk, hd, rfl⟩ := mem_variants_iff.1 hv
  rw [mentions_renameAt k name (List.mem_of_getElem? hd), Bool.and_eq_true,
    decide_eq_true_eq] at hmentions
  have hnot := h k hmentions.1 (List.getElem?_eq_some_iff.1 hd).1 hk
  rw [hnot] at hmentions
  cases hmentions.2

/-- Variants are looked through in the order of their definitions. -/
theorem find?_ownerless_eq_some {k : Nat} {d : Definition} {name : List Char} (hk : 1 ≤ k)
    (hd : (definitionsOf defs slot)[k]? = some d) (hlen : (owners classes slot).length ≤ k)
    (hmentions : occursIn (lowercase name) (lowercase (numbered slot k)) = true)
    (hleast : ∀ j, (owners classes slot).length ≤ j → j < k →
      occursIn (lowercase name) (lowercase (numbered slot j)) = false) :
    ((variants defs classes slot).find?
      fun v => v.owner.isNone && occursIn (lowercase name) (lowercase v.renamed)) =
        some (renameAt (owners classes slot) d k) := by
  obtain ⟨hbound, rfl⟩ := List.getElem?_eq_some_iff.1 hd
  rw [variants_eq (by omega), List.find?_eq_some_iff_getElem]
  refine ⟨?_, k - 1, by simp; omega, ?_, fun j hj => ?_⟩
  · rw [mentions_renameAt k name (List.getElem_mem hbound), decide_eq_true hlen, hmentions]
    rfl
  · simp [Nat.sub_add_cancel hk, Nat.add_sub_cancel' hk]
  · have hjbound : 1 + j < (definitionsOf defs slot).length := by omega
    simp only [List.getElem_map, List.getElem_drop, List.getElem_zipIdx, Nat.zero_add]
    rw [mentions_renameAt (1 + j) name (List.getElem_mem hjbound), Bool.not_eq_true',
      Bool.and_eq_false_imp]
    intro hle
    exact hleast (1 + j) (of_decide_eq_true hle) (by omega)

theorem owner_of_variantFor {name : List Char} {vs : List Rename} {v : Rename}
    (h : variantFor name vs = some v) : v.owner = none ∨ v.owner = some name := by
  unfold variantFor at h
  rw [Option.orElse_eq_orElse, Option.orElse_eq_or, Option.or_eq_some_iff] at h
  rcases h with h | ⟨-, h⟩
  · exact .inr (by simpa only [beq_iff_eq] using List.find?_some h)
  · have hboth := List.find?_some h
    rw [Bool.and_eq_true, Option.isNone_iff_eq_none] at hboth
    exact .inl hboth.1

/-! ## The plan follows the rule -/

theorem followsOwners (hdefs : defs.Pairwise fun a b => a.line < b.line)
    (hreferences : (classes.flatMap (·.references)).Pairwise Reference.Precedes)
    (hnames : (classes.map (·.name)).Nodup) (slot : List Char) :
    FollowsOwners slot (definitionsOf defs slot) (classes.filter (·.lists slot))
      (assign (duplicates defs) classes)
      (propagate (assign (duplicates defs) classes) classes) := by
  have hnodup : (owners classes slot).Nodup := hnames.sublist (List.filter_sublist.map _)
  have hlen : (owners classes slot).length = (classes.filter (·.lists slot)).length :=
    List.length_map _
  have howner : ∀ {k : Nat} {c : ClassBlock}, (classes.filter (·.lists slot))[k]? = some c →
      (owners classes slot)[k]? = some c.name := fun hc => by rw [getElem?_owners, hc]; rfl
  have hclass : ∀ {k : Nat} {c : ClassBlock},
      (classes.filter (·.lists slot))[k]? = some c → c ∈ classes := fun hc =>
    List.mem_of_mem_filter (List.mem_of_getElem? hc)
  have hkey : ∀ {k : Nat} {d : Definition},
      (definitionsOf defs slot)[k]? = some d → d.key.text = slot := fun hd =>
    (mem_definitionsOf.1 (List.mem_of_getElem? hd)).2
  have hedits : ∀ {c : ClassBlock} {r : Reference}, c ∈ classes → r ∈ c.references →
      r.item.text = slot →
      redirections (propagate (assign (duplicates defs) classes) classes) r =
        ((variantFor c.name (variants defs classes slot)).map (·.renamed)).toList :=
    fun hc hr htext => by rw [redirections_propagate hreferences hc hr, htext]; rfl
  constructor
  case first_kept =>
    intro d hd
    rw [renamesOf_assign hdefs hd, if_neg (by omega)]
  case owned =>
    intro k d c hk hd hc
    rw [renamesOf_assign hdefs hd, if_pos hk, renameAt_of_owner (howner hc), hkey hd]
  case ownerless =>
    intro k d hk hd hle
    rw [renamesOf_assign hdefs hd, if_pos hk,
      renameAt_of_none (List.getElem?_eq_none_iff.2 (hlen.trans_le hle)), hkey hd]
  case to_owned =>
    intro k c hk hbound hc r hr htext
    have hd := List.getElem?_eq_getElem hbound
    rw [hedits (hclass hc) hr htext, variantFor_of_owner hnodup hk hd (howner hc),
      renameAt_of_owner (howner hc), hkey hd]
    rfl
  case first_to_ownerless =>
    intro k c hc hle hbound hmentions hleast r hr htext
    have hpos : 0 < (classes.filter (·.lists slot)).length := (List.getElem?_eq_some_iff.1 hc).1
    have hd := List.getElem?_eq_getElem hbound
    have hle' : (owners classes slot).length ≤ k := hlen.trans_le hle
    rw [hedits (hclass hc) hr htext, variantFor_of_no_owner hnodup (howner hc) (.inl rfl),
      find?_ownerless_eq_some (Nat.le_trans hpos hle) hd hle' hmentions (hlen ▸ hleast),
      renameAt_of_none (List.getElem?_eq_none_iff.2 hle'), hkey hd]
    rfl
  case first_stays =>
    intro c hc hnone r hr htext
    rw [hedits (hclass hc) hr htext, variantFor_of_no_owner hnodup (howner hc) (.inl rfl),
      find?_ownerless_eq_none fun k hle hbound _ => hnone k (hlen ▸ hle) hbound]
    rfl
  case surplus_stays =>
    intro k c hk hc r hr htext
    have hbound := (List.getElem?_eq_some_iff.1 hc).1
    rw [hedits (hclass hc) hr htext, variantFor_of_no_owner hnodup (howner hc) (.inr hk),
      find?_ownerless_eq_none fun j hle hj _ => by omega]
    rfl
  case not_foreign =>
    intro c hc r hr htext new hnew
    rw [hedits (List.mem_of_mem_filter hc) hr htext, Option.mem_toList,
      Option.map_eq_some_iff] at hnew
    obtain ⟨v, hv, hnew⟩ := hnew
    obtain ⟨hmem, hname⟩ := List.mem_filter.1 (mem_of_variantFor hv)
    exact ⟨v, hmem, beq_iff_eq.1 hname, hnew, owner_of_variantFor hv⟩

/-- **Repeated definitions follow the classes that list them**, for every slot of a text of which
the classes have different names. -/
theorem plan_followsOwners (indentWidth : Nat) (text : List Char)
    (hnames : ((classBlocks (max indentWidth 1) (lines text)).map (·.name)).Nodup)
    (slot : List Char) :
    let indent := max indentWidth 1
    let defs := definitions indent (lines text)
    let classes := classBlocks indent (lines text)
    let renames := assign (duplicates defs) classes
    FollowsOwners slot (definitionsOf defs slot) (classes.filter (·.lists slot)) renames
      (propagate renames classes) :=
  followsOwners (definitions_pairwise _ _) (references_pairwise (sectionLines_pairwise _ _))
    hnames slot

/-- The first class follows the definition without an owner whose name mentions it. -/
theorem plan_followsOwners_first_class :
    let text := "classes:\n  a:\n    slots: [a]\nslots:\n  a:\n  a:\n".toList
    let classes := classBlocks 2 (lines text)
    let renames := assign (duplicates (definitions 2 (lines text))) classes
    redirections (propagate renames classes) ⟨2, ⟨12, ['a']⟩⟩ = ["a_2".toList] := by
  intro text classes renames
  have hclass : (classes.filter (·.lists ['a']))[0]? = some ⟨1, ['a'], [⟨2, ⟨12, ['a']⟩⟩]⟩ := by
    decide
  exact (plan_followsOwners 2 text (by decide) ['a']).first_to_ownerless 1 _ hclass (by decide)
    (by decide) (by decide) (by decide) ⟨2, ⟨12, ['a']⟩⟩ (by decide) rfl

end SchemaTidy.Dedupe
