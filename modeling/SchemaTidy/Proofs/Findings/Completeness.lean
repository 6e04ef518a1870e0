import Mathlib.Data.Finset.Card
import SchemaTidy.Proofs.Findings.Places

/-! # Findings and completeness

Main statement: `completeness_matches_findings`. The findings list what is amiss place by place,
the completeness of a document counts missing names, each once and in ascending order. Both agree
on the slots. On the enums they differ by the ranges that are builtin types or classes: nothing is
found there, but they count as missing when they are named like an enum and no enum has the
name. -/

namespace SchemaTidy
open Schema

/-! ## Sorted names -/

theorem mem_sortedNames {names : List String} {name : String} :
    name ∈ sortedNames names ↔ name ∈ names := by
  rw [sortedNames, List.mem_mergeSort, List.mem_eraseDups]

/-- Sorted names ascend strictly. -/
theorem pairwise_sortedNames (names : List String) : (sortedNames names).Pairwise (· < ·) := by
  have htrans (a b c : String) (hab : decide (a ≤ b) = true) (hbc : decide (b ≤ c) = true) :
      decide (a ≤ c) = true :=
    decide_eq_true (String.le_trans (of_decide_eq_true hab) (of_decide_eq_true hbc))
  have htotal (a b : String) : (decide (a ≤ b) || decide (b ≤ a)) = true := by
    simpa using String.le_total a b
  have hsorted := List.pairwise_mergeSort htrans htotal names.eraseDups
  have hnodup : (sortedNames names).Nodup :=
    (List.mergeSort_perm _ _).nodup_iff.2 (nodup_eraseDups names)
  refine (hsorted.and hnodup).imp fun {a b} ⟨hle, hne⟩ => String.not_le.1 fun hge => ?_
  exact hne (String.le_antisymm (of_decide_eq_true hle) hge)

theorem nodup_sortedNames (names : List String) : (sortedNames names).Nodup :=
  (pairwise_sortedNames names).imp String.ne_of_lt

namespace Schema.Document

/-- Whether a class lists this slot. -/
def Refers (d : Document) (slot : String) : Prop := ∃ x ∈ d.classes, slot ∈ x.2.slots

instance (d : Document) : DecidablePred d.Refers := fun _ => inferInstanceAs (Decidable (∃ _ ∈ _, _))

/-- Whether a slot has this range. -/
def Ranges (d : Document) (range : String) : Prop := ∃ x ∈ d.slots, x.2.range = some range

end Schema.Document

namespace Completeness

variable {d : Document} {suffix slot range : String}

theorem mem_missingSlots :
    slot ∈ (ofDocument suffix d).missingSlots ↔ d.Refers slot ∧ slot ∉ d.slots.names := by
  rw [← Table.contains_iff_mem_names, Bool.not_eq_true]
  simp [ofDocument, mem_sortedNames, Document.Refers]

theorem mem_missingEnums :
    range ∈ (ofDocument suffix d).missingEnums ↔
      d.Ranges range ∧ suffix.toList <:+ range.toList ∧ range ∉ d.enums.names := by
  rw [← Table.contains_iff_mem_names, Bool.not_eq_true]
  simp [ofDocument, mem_sortedNames, Document.Ranges, isEnumReference, and_assoc]

/-- The slots that classes refer to are missing or declared. -/
theorem slotsReferenced_eq (suffix : String) (d : Document) :
    (ofDocument suffix d).slotsReferenced =
      (d.slots.names.toFinset.filter d.Refers).card + (ofDocument suffix d).slotsMissing := by
  have hdeclared : ((sortedNames (d.classes.flatMap (·.2.slots))).filter d.slots.contains).toFinset =
      d.slots.names.toFinset.filter d.Refers := by
    ext slot
    simp only [List.mem_toFinset, List.mem_filter, Finset.mem_filter, mem_sortedNames,
      List.mem_flatMap, Table.contains_iff_mem_names]
    exact and_comm
  rw [← hdeclared, List.toFinset_card_of_nodup ((nodup_sortedNames _).filter _)]
  exact List.length_eq_length_filter_add _

end Completeness

namespace ValidationPolicy

variable {v : ValidationPolicy} {d : Document}

theorem mem_subjects_iff {subject : Subject} :
    subject ∈ (v.validate d).map (·.subject) ↔ ∃ place, v.Amiss d place subject := by
  rw [← map_snd_located, List.mem_map]
  exact ⟨fun ⟨x, hx, heq⟩ => ⟨x.1, mem_located_iff.1 (heq ▸ hx)⟩,
    fun ⟨place, h⟩ => ⟨_, mem_located_iff.2 h, rfl⟩⟩

theorem exists_undefinedSlot_iff {slot : String} :
    (∃ cls, .undefinedSlot cls slot ∈ (v.validate d).map (·.subject)) ↔
      d.Refers slot ∧ slot ∉ d.slots.names := by
  simp only [mem_subjects_iff]
  constructor
  · rintro ⟨cls, place, h⟩
    cases h with
    | item hclass hitem hmissing =>
      exact ⟨⟨_, List.mem_of_getElem? hclass, List.mem_of_getElem? hitem⟩, hmissing⟩
  · rintro ⟨⟨⟨name, cls⟩, hclass, hitem⟩, hmissing⟩
    obtain ⟨c, hc⟩ := List.mem_iff_getElem?.1 hclass
    obtain ⟨i, hi⟩ := List.mem_iff_getElem?.1 hitem
    exact ⟨name, .item c i, .item hc hi hmissing⟩

theorem exists_undefinedEnum_iff {range : String} :
    (∃ slot, .undefinedEnum slot range ∈ (v.validate d).map (·.subject)) ↔
      d.Ranges range ∧ v.Dangling d range := by
  simp only [mem_subjects_iff]
  constructor
  · rintro ⟨slot, place, h⟩
    cases h with
    | range hslot hrange hdangling => exact ⟨⟨_, List.mem_of_getElem? hslot, hrange⟩, hdangling⟩
  · rintro ⟨⟨⟨name, slot⟩, hslot, hrange⟩, hdangling⟩
    obtain ⟨s, hs⟩ := List.mem_iff_getElem?.1 hslot
    exact ⟨name, .range s, .range hs hrange hdangling⟩

/-- **Findings and completeness of a document agree.** The missing slots are the slots that
findings name. The missing enums are the ranges that findings name, and besides them those that
are named like an enum and are no enum, but builtin types or classes. Both ascend. The slots that
are referred to and not missing are the declared ones that classes list, and a complete document
has no findings. -/
theorem completeness_matches_findings (v : ValidationPolicy) (d : Document) :
    let c := Completeness.ofDocument v.enumSuffix d
    let found := (v.validate d).map (·.subject)
    (c.missingSlots.Pairwise (· < ·) ∧
      ∀ slot, slot ∈ c.missingSlots ↔ ∃ cls, .undefinedSlot cls slot ∈ found) ∧
    (c.missingEnums.Pairwise (· < ·) ∧
      ∀ range, range ∈ c.missingEnums ↔ (∃ slot, .undefinedEnum slot range ∈ found) ∨
        d.Ranges range ∧ v.enumSuffix.toList <:+ range.toList ∧ range ∉ d.enums.names ∧
          (range ∈ v.builtinTypes ∨ range ∈ d.classes.names)) ∧
    c.slotsMissing = c.missingSlots.length ∧ c.enumsMissing = c.missingEnums.length ∧
    c.slotsMissing ≤ c.slotsReferenced ∧
    c.slotsReferenced - c.slotsMissing = (d.slots.names.toFinset.filter d.Refers).card ∧
    (c.isComplete = true → (v.validate d).isEmpty = true) := by
  intro c found
  have hslots (slot : String) :
      slot ∈ c.missingSlots ↔ ∃ cls, .undefinedSlot cls slot ∈ found :=
    Completeness.mem_missingSlots.trans exists_undefinedSlot_iff.symm
  have henums (range : String) :
      range ∈ c.missingEnums ↔ (∃ slot, .undefinedEnum slot range ∈ found) ∨
        d.Ranges range ∧ v.enumSuffix.toList <:+ range.toList ∧ range ∉ d.enums.names ∧
          (range ∈ v.builtinTypes ∨ range ∈ d.classes.names) := by
    rw [Completeness.mem_missingEnums, exists_undefinedEnum_iff, Dangling]
    tauto
  have hcount := Completeness.slotsReferenced_eq v.enumSuffix d
  refine ⟨⟨(pairwise_sortedNames _).filter _, hslots⟩, ⟨(pairwise_sortedNames _).filter _, henums⟩,
    rfl, rfl, ?_, ?_, fun hcomplete => ?_⟩
  · exact hcount ▸ Nat.le_add_left _ _
  · exact Nat.sub_eq_of_eq_add hcount
  · obtain ⟨hnoSlots, hnoEnums⟩ := Bool.and_eq_true_iff.1 hcomplete
    have hnoSlots : c.missingSlots = [] := List.length_eq_zero_iff.1 (beq_iff_eq.1 hnoSlots)
    have hnoEnums : c.missingEnums = [] := List.length_eq_zero_iff.1 (beq_iff_eq.1 hnoEnums)
    rw [List.isEmpty_iff, ← List.map_eq_nil_iff (f := (·.subject)), List.eq_nil_iff_forall_not_mem]
    intro subject hfound
    obtain ⟨place, hamiss⟩ := mem_subjects_iff.1 hfound
    cases hamiss with
    | item => exact List.not_mem_nil (hnoSlots ▸ (hslots _).2 ⟨_, hfound⟩)
    | range => exact List.not_mem_nil (hnoEnums ▸ (henums _).2 (.inl ⟨_, hfound⟩))

end ValidationPolicy

end SchemaTidy
