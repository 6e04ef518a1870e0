import SchemaTidy.Proofs.Repair.Additive

/-! # What a repair leaves to be found

Main statement: `validate_repairDocument`. A repair settles the findings about the slots that it
adds, leaves all others, and brings in those about ranges of its own templates. -/

namespace SchemaTidy
open Schema

/-- The slot that is missing, if one is. -/
def Subject.missingSlot? : Subject → Option String
  | .undefinedSlot _ slot => some slot
  | _ => none

/-- The enum that is missing, if one is. -/
def Subject.missingEnum? : Subject → Option String
  | .undefinedEnum _ range => some range
  | _ => none

namespace ValidationPolicy

variable {v : ValidationPolicy} {d d' : Document}

/-- A range that is named like an enum, and nothing by that name is known. -/
def Dangling (v : ValidationPolicy) (d : Document) (range : String) : Prop :=
  range ∉ v.builtinTypes ∧ range ∉ d.classes.names ∧
    v.enumSuffix.toList <:+ range.toList ∧ range ∉ d.enums.names

theorem lacksEnum_iff {range : String} : v.lacksEnum d range = true ↔ v.Dangling d range := by
  simp [lacksEnum, Dangling, isEnumReference, ← Table.contains_iff_mem_names, and_assoc]

instance (v : ValidationPolicy) (d : Document) : DecidablePred (v.Dangling d) :=
  fun _ => decidable_of_iff _ lacksEnum_iff

/-! ## Subjects of the findings -/

theorem subjects_slotFindings (v : ValidationPolicy) (d : Document) :
    (v.slotFindings d).map (·.subject) =
      d.classes.flatMap fun (className, c) =>
        (c.slots.filter (!d.slots.contains ·)).map (.undefinedSlot className) := by
  simp only [slotFindings, List.map_flatMap, List.map_map]
  rfl

/-- What is found about one slot, if anything is. -/
def rangeSubject? (v : ValidationPolicy) (d : Document) (name : String) (slot : SlotDef) :
    Option Subject :=
  (slot.range.filter (v.Dangling d ·)).map (.undefinedEnum name)

theorem subjects_enumFindings (v : ValidationPolicy) (d : Document) :
    (v.enumFindings d).map (·.subject) = d.slots.filterMap fun (name, slot) =>
      v.rangeSubject? d name slot := by
  have hlacks : v.lacksEnum d = fun range => decide (v.Dangling d range) :=
    funext fun range => Bool.eq_iff_iff.2 (lacksEnum_iff.trans (decide_eq_true_iff).symm)
  simp only [enumFindings, List.map_filterMap, Option.map_map, rangeSubject?, hlacks]
  rfl

theorem rangeSubject?_congr (hclasses : d'.classes = d.classes) (henums : d'.enums = d.enums) :
    v.rangeSubject? d' = v.rangeSubject? d := by
  have hdangling (range : String) : v.Dangling d' range ↔ v.Dangling d range := by
    simp only [Dangling, hclasses, henums]
  funext name slot
  simp only [rangeSubject?, hdangling]

/-- The findings about slots are those about missing slots. -/
theorem filter_missingSlot? (v : ValidationPolicy) (d : Document) (keep : String → Bool) :
    ((v.validate d).map (·.subject)).filter (·.missingSlot?.any keep) =
      ((v.slotFindings d).map (·.subject)).filter (·.missingSlot?.any keep) := by
  rw [validate, List.map_append, List.filter_append, List.append_right_eq_self,
    subjects_enumFindings, List.filter_eq_nil_iff]
  intro s hs
  obtain ⟨x, -, hx⟩ := List.mem_filterMap.1 hs
  obtain ⟨range, -, rfl⟩ := Option.map_eq_some_iff.1 hx
  simp [Subject.missingSlot?]

/-- The findings about enums are those about missing enums. -/
theorem filter_missingEnum? (v : ValidationPolicy) (d : Document) :
    ((v.validate d).map (·.subject)).filter (·.missingEnum?.isSome) =
      (v.enumFindings d).map (·.subject) := by
  have hnone : ((v.slotFindings d).map (·.subject)).filter (·.missingEnum?.isSome) = [] := by
    rw [subjects_slotFindings, List.filter_eq_nil_iff]
    intro s hs
    obtain ⟨x, -, hx⟩ := List.mem_flatMap.1 hs
    obtain ⟨slot, -, rfl⟩ := List.mem_map.1 hx
    simp [Subject.missingEnum?]
  have hall : ((v.enumFindings d).map (·.subject)).filter (·.missingEnum?.isSome) =
      (v.enumFindings d).map (·.subject) := by
    rw [subjects_enumFindings, List.filter_eq_self]
    intro s hs
    obtain ⟨x, -, hx⟩ := List.mem_filterMap.1 hs
    obtain ⟨range, -, rfl⟩ := Option.map_eq_some_iff.1 hx
    rfl
  rw [validate, List.map_append, List.filter_append, hnone, hall, List.nil_append]

end ValidationPolicy

namespace RepairPolicy

variable {p : RepairPolicy} {v : ValidationPolicy} {d d' : Document} {chosen : List Candidate}

namespace Adds

/-- Declared afterwards is what was declared before, and what was added. -/
theorem contains_slots (h : Adds chosen d d') (name : String) : d'.slots.contains name =
    (d.slots.contains name || decide (name ∈ chosen.map (·.name))) := by
  rw [h.slots, Bool.eq_iff_iff, Table.contains_iff_mem_names, Table.names_append,
    names_map_entry, List.mem_append, Bool.or_eq_true_iff, Table.contains_iff_mem_names,
    decide_eq_true_iff]

/-- Missing afterwards is what was missing before and was not added. -/
theorem filter_missing (h : Adds chosen d d') (names : List String) :
    names.filter (!d'.slots.contains ·) =
      (names.filter (!d.slots.contains ·)).filter (· ∉ chosen.map (·.name)) := by
  rw [List.filter_filter]
  refine List.filter_congr fun name _ => ?_
  rw [h.contains_slots, Bool.not_or, Bool.and_comm, decide_not]

theorem subjects_slotFindings (h : Adds chosen d d') (v : ValidationPolicy) :
    (v.slotFindings d').map (·.subject) =
      ((v.slotFindings d).map (·.subject)).filter
        (·.missingSlot?.any (· ∉ chosen.map (·.name))) := by
  rw [ValidationPolicy.subjects_slotFindings, ValidationPolicy.subjects_slotFindings, h.classes,
    List.filter_flatMap]
  refine congrArg (d.classes.flatMap ·) (funext fun x => ?_)
  dsimp only
  rw [h.filter_missing, List.filter_map]
  rfl

theorem subjects_enumFindings (h : Adds chosen d d') (v : ValidationPolicy) :
    (v.enumFindings d').map (·.subject) = (v.enumFindings d).map (·.subject) ++
      chosen.filterMap fun c => v.rangeSubject? d c.name c.slot := by
  rw [v.subjects_enumFindings, v.subjects_enumFindings, h.slots, List.filterMap_append,
    List.filterMap_map, ValidationPolicy.rangeSubject?_congr h.classes h.enums]
  rfl

/-- First the missing slots that were found before and were not added, then the missing enums that
were found before, then the ranges of the added slots that name no enum. -/
theorem subjects_validate (h : Adds chosen d d') (v : ValidationPolicy) :
    let before := (v.validate d).map (·.subject)
    (v.validate d').map (·.subject) =
      before.filter (·.missingSlot?.any (· ∉ chosen.map (·.name))) ++
        before.filter (·.missingEnum?.isSome) ++
          chosen.filterMap fun c =>
            (c.slot.range.filter (v.Dangling d ·)).map (.undefinedEnum c.name) := by
  intro before
  rw [ValidationPolicy.filter_missingSlot?, ValidationPolicy.filter_missingEnum?,
    ValidationPolicy.validate, List.map_append, h.subjects_enumFindings, h.subjects_slotFindings,
    List.append_assoc]
  rfl

/-- Of the slots that classes refer to, those are missing that were missing before and were not
added. -/
theorem completeness (h : Adds chosen d d') (suffix : String) :
    let before := Completeness.ofDocument suffix d
    let after := Completeness.ofDocument suffix d'
    after.missingSlots = before.missingSlots.filter (· ∉ chosen.map (·.name)) ∧
      after.classes = before.classes ∧ after.slotsReferenced = before.slotsReferenced := by
  simp only [Completeness.ofDocument, h.classes, and_true]
  exact h.filter_missing _

end Adds

/-- **What is found after a repair.** First the missing slots that were found before and were not
added, then the missing enums that were found before, then the ranges of the added slots that name
no enum, in the order of the log. Of the slots that classes refer to, those are missing that were
missing before and were not added. -/
theorem validate_repairDocument (p : RepairPolicy) (v : ValidationPolicy) (d : Document)
    (suffix : String) :
    let d' := (p.repairDocument d).1
    let added := (p.repairDocument d).2.map (·.slot)
    let before := (v.validate d).map (·.subject)
    let completeness := Completeness.ofDocument suffix
    (∃ chosen : List Candidate, p.Chosen d chosen ∧
      (v.validate d').map (·.subject) =
        before.filter (·.missingSlot?.any (· ∉ added)) ++ before.filter (·.missingEnum?.isSome) ++
          chosen.filterMap fun c =>
            (c.slot.range.filter (v.Dangling d ·)).map (.undefinedEnum c.name)) ∧
    (completeness d').missingSlots = (completeness d).missingSlots.filter (· ∉ added) ∧
    (completeness d').classes = (completeness d).classes ∧
    (completeness d').slotsReferenced = (completeness d).slotsReferenced := by
  intro d' added before completeness
  obtain ⟨chosen, hchosen, hadds⟩ := p.repairDocument_adds d
  have hadded : added = chosen.map (·.name) := hchosen.log
  rw [hadded]
  exact ⟨⟨chosen, hchosen, hadds.subjects_validate v⟩, hadds.completeness suffix⟩

end RepairPolicy

end SchemaTidy
