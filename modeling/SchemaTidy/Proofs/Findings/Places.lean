import Mathlib.Data.List.Forall2
import SchemaTidy.Proofs.Lists
import SchemaTidy.Proofs.Repair.Findings

/-! # Findings and the places they are about

Main statement: `validate_lists_places`. A document is searched place by place: each item of each
class, then the range of each slot. The findings are what is amiss at these places, once each and
in document order, so that nothing is found just when nothing is amiss. -/

namespace SchemaTidy
open Schema

/-- A place where something can be amiss: an item in the list of a class, or the range of a slot.
Classes, items and slots are counted from zero. -/
inductive Place where
  | item (cls index : Nat)
  | range (slot : Nat)
deriving DecidableEq, Repr

/-- Document order: first all items, class by class, then all ranges. -/
inductive Place.Before : Place → Place → Prop where
  | laterClass {c i c' i' : Nat} (h : c < c') : Before (.item c i) (.item c' i')
  | laterItem {c i i' : Nat} (h : i < i') : Before (.item c i) (.item c i')
  | itemRange {c i s : Nat} : Before (.item c i) (.range s)
  | laterSlot {s s' : Nat} (h : s < s') : Before (.range s) (.range s')

namespace ValidationPolicy

variable {v : ValidationPolicy} {d : Document}

/-- What is amiss at a place: the item is no declared slot, or the range is named like an enum and
nothing by that name is known. -/
inductive Amiss (v : ValidationPolicy) (d : Document) : Place → Subject → Prop where
  | item {c i : Nat} {name slot : String} {cls : ClassDef} (hclass : d.classes[c]? = some (name, cls))
    (hitem : cls.slots[i]? = some slot) (hmissing : slot ∉ d.slots.names) :
    Amiss v d (.item c i) (.undefinedSlot name slot)
  | range {s : Nat} {name range : String} {slot : SlotDef} (hslot : d.slots[s]? = some (name, slot))
    (hrange : slot.range = some range) (hdangling : v.Dangling d range) :
    Amiss v d (.range s) (.undefinedEnum name range)

/-! ## Subjects with their places -/

/-- The items of one class that are no declared slots. -/
def locatedItems (d : Document) (c : Nat) (name : String) (cls : ClassDef) :
    List (Place × Subject) :=
  (cls.slots.zipIdx.filter fun x => !d.slots.contains x.1).map fun (slot, i) =>
    (.item c i, .undefinedSlot name slot)

def locatedSlots (d : Document) : List (Place × Subject) :=
  d.classes.zipIdx.flatMap fun ((name, cls), c) => locatedItems d c name cls

def locatedRanges (v : ValidationPolicy) (d : Document) : List (Place × Subject) :=
  d.slots.zipIdx.filterMap fun ((name, slot), s) =>
    (v.rangeSubject? d name slot).map fun subject => (.range s, subject)

/-- What is amiss in a document, each with its place. -/
def located (v : ValidationPolicy) (d : Document) : List (Place × Subject) :=
  locatedSlots d ++ v.locatedRanges d

theorem mem_locatedItems {c : Nat} {name : String} {cls : ClassDef} {x : Place × Subject} :
    x ∈ locatedItems d c name cls ↔ ∃ i slot, cls.slots[i]? = some slot ∧ slot ∉ d.slots.names ∧
      x = (.item c i, .undefinedSlot name slot) := by
  have hmissing (slot : String) : (!d.slots.contains slot) = true ↔ slot ∉ d.slots.names := by
    rw [← Table.contains_iff_mem_names, Bool.not_eq_true', Bool.not_eq_true]
  simp only [locatedItems, List.mem_map, List.mem_filter, Prod.exists,
    List.mem_zipIdx_iff_getElem?, hmissing]
  exact ⟨fun ⟨slot, i, ⟨hitem, hslot⟩, hx⟩ => ⟨i, slot, hitem, hslot, hx.symm⟩,
    fun ⟨i, slot, hitem, hslot, hx⟩ => ⟨slot, i, ⟨hitem, hslot⟩, hx.symm⟩⟩

theorem mem_locatedSlots {x : Place × Subject} :
    x ∈ locatedSlots d ↔ ∃ c name cls, d.classes[c]? = some (name, cls) ∧
      x ∈ locatedItems d c name cls := by
  simp only [locatedSlots, List.mem_flatMap, Prod.exists, List.mem_zipIdx_iff_getElem?]
  exact ⟨fun ⟨name, cls, c, hclass, hx⟩ => ⟨c, name, cls, hclass, hx⟩,
    fun ⟨c, name, cls, hclass, hx⟩ => ⟨name, cls, c, hclass, hx⟩⟩

theorem rangeSubject?_eq_some_iff {name : String} {slot : SlotDef} {subject : Subject} :
    v.rangeSubject? d name slot = some subject ↔ ∃ range, slot.range = some range ∧
      v.Dangling d range ∧ subject = .undefinedEnum name range := by
  simp only [rangeSubject?, Option.map_eq_some_iff, Option.filter_eq_some_iff, decide_eq_true_eq]
  constructor
  · rintro ⟨range, ⟨hrange, hdangling⟩, hs⟩
    exact ⟨range, hrange, hdangling, hs.symm⟩
  · rintro ⟨range, hrange, hdangling, hs⟩
    exact ⟨range, ⟨hrange, hdangling⟩, hs.symm⟩

theorem mem_locatedRanges {x : Place × Subject} :
    x ∈ v.locatedRanges d ↔ ∃ s name slot subject, d.slots[s]? = some (name, slot) ∧
      v.rangeSubject? d name slot = some subject ∧ x = (.range s, subject) := by
  simp only [locatedRanges, List.mem_filterMap, Prod.exists, List.mem_zipIdx_iff_getElem?,
    Option.map_eq_some_iff]
  exact ⟨fun ⟨name, slot, s, hslot, subject, hs, hx⟩ => ⟨s, name, slot, subject, hslot, hs, hx.symm⟩,
    fun ⟨s, name, slot, subject, hslot, hs, hx⟩ => ⟨name, slot, s, hslot, subject, hs, hx.symm⟩⟩

/-- What is located is what is amiss. -/
theorem mem_located_iff {place : Place} {subject : Subject} :
    (place, subject) ∈ v.located d ↔ v.Amiss d place subject := by
  rw [located, List.mem_append, mem_locatedSlots, mem_locatedRanges]
  constructor
  · rintro (⟨c, name, cls, hclass, hx⟩ | ⟨s, name, slot, subject', hslot, hs, hx⟩)
    · obtain ⟨i, slot, hitem, hmissing, hx⟩ := mem_locatedItems.1 hx
      obtain ⟨rfl, rfl⟩ := Prod.mk.inj hx
      exact .item hclass hitem hmissing
    · obtain ⟨rfl, rfl⟩ := Prod.mk.inj hx
      obtain ⟨range, hrange, hdangling, rfl⟩ := rangeSubject?_eq_some_iff.1 hs
      exact .range hslot hrange hdangling
  · intro h
    cases h with
    | item hclass hitem hmissing =>
      exact .inl ⟨_, _, _, hclass, mem_locatedItems.2 ⟨_, _, hitem, hmissing, rfl⟩⟩
    | range hslot hrange hdangling =>
      exact .inr ⟨_, _, _, _, hslot,
        rangeSubject?_eq_some_iff.2 ⟨_, hrange, hdangling, rfl⟩, rfl⟩

/-- Places are visited in document order. -/
theorem located_pairwise (v : ValidationPolicy) (d : Document) :
    (v.located d).Pairwise fun a b => a.1.Before b.1 := by
  rw [located, List.pairwise_append]
  refine ⟨?_, ?_, ?_⟩
  · rw [locatedSlots, List.pairwise_flatMap]
    refine ⟨fun x _ => ?_, (pairwise_zipIdx d.classes).imp fun {x y} hxy a ha b hb => ?_⟩
    · exact List.pairwise_map.2 (((pairwise_zipIdx _).filter _).imp fun hlt => .laterItem hlt)
    · obtain ⟨i, slot, -, -, rfl⟩ := mem_locatedItems.1 ha
      obtain ⟨j, slot', -, -, rfl⟩ := mem_locatedItems.1 hb
      exact .laterClass hxy
  · rw [locatedRanges, List.pairwise_filterMap]
    refine (pairwise_zipIdx d.slots).imp fun {x y} hxy a ha b hb => ?_
    obtain ⟨_, -, rfl⟩ := Option.map_eq_some_iff.1 ha
    obtain ⟨_, -, rfl⟩ := Option.map_eq_some_iff.1 hb
    exact .laterSlot hxy
  · intro a ha b hb
    obtain ⟨c, name, cls, -, ha⟩ := mem_locatedSlots.1 ha
    obtain ⟨i, slot, -, -, rfl⟩ := mem_locatedItems.1 ha
    obtain ⟨s, name', slot', subject, -, -, rfl⟩ := mem_locatedRanges.1 hb
    exact .itemRange

/-! ## The findings -/

theorem map_snd_locatedItems (c : Nat) (name : String) (cls : ClassDef) :
    (locatedItems d c name cls).map (·.2) =
      (cls.slots.filter (!d.slots.contains ·)).map (.undefinedSlot name) := by
  have hfst : cls.slots.filter (!d.slots.contains ·) =
      (cls.slots.zipIdx.filter fun x => !d.slots.contains x.1).map (·.1) := by
    nth_rewrite 1 [← List.zipIdx_map_fst 0 cls.slots]
    rw [List.filter_map]
    rfl
  rw [hfst, locatedItems, List.map_map, List.map_map]
  rfl

/-- The findings are about what is located, in the same order. -/
theorem map_snd_located (v : ValidationPolicy) (d : Document) :
    (v.located d).map (·.2) = (v.validate d).map (·.subject) := by
  rw [located, validate, List.map_append, List.map_append, subjects_slotFindings,
    subjects_enumFindings]
  congr 1
  · rw [locatedSlots, List.map_flatMap]
    nth_rewrite 2 [← List.zipIdx_map_fst 0 d.classes]
    rw [List.flatMap_map]
    exact congrArg d.classes.zipIdx.flatMap (funext fun _ => map_snd_locatedItems _ _ _)
  · rw [locatedRanges, List.map_filterMap]
    nth_rewrite 2 [← List.zipIdx_map_fst 0 d.slots]
    rw [List.filterMap_map]
    refine congrArg (d.slots.zipIdx.filterMap ·) (funext fun _ => ?_)
    rw [Option.map_map, Function.comp_apply]
    exact Option.map_id'

/-- Nothing is found just when nothing is amiss. -/
theorem validate_eq_nil_iff :
    v.validate d = [] ↔ ∀ place subject, ¬ v.Amiss d place subject := by
  rw [← List.map_eq_nil_iff (f := (·.subject)), ← map_snd_located, List.map_eq_nil_iff,
    List.eq_nil_iff_forall_not_mem, Prod.forall]
  simp only [mem_located_iff]

/-- A finding is about a place where something is amiss. -/
theorem exists_amiss {subject : Subject} (h : subject ∈ (v.validate d).map (·.subject)) :
    ∃ place, v.Amiss d place subject := by
  rw [← map_snd_located] at h
  obtain ⟨⟨place, subject⟩, hlocated, rfl⟩ := List.mem_map.1 h
  exact ⟨place, mem_located_iff.1 hlocated⟩

/-- Of a document in which nothing is found, what classes list is declared. -/
theorem declared_of_validate_eq_nil (h : v.validate d = []) {name slot : String} {cls : ClassDef}
    (hclass : (name, cls) ∈ d.classes) (hslot : slot ∈ cls.slots) : slot ∈ d.slots.names := by
  obtain ⟨c, hc⟩ := List.mem_iff_getElem?.1 hclass
  obtain ⟨i, hi⟩ := List.mem_iff_getElem?.1 hslot
  exact not_not.1 fun hmissing => validate_eq_nil_iff.1 h _ _ (.item hc hi hmissing)

/-- **The findings of a document.** They are about the places where something is amiss, one finding
for each, in document order. So there is none just when every item of a class is a declared slot,
and every range that is named like an enum, and is neither builtin nor a class, is a declared
enum. -/
theorem validate_lists_places (v : ValidationPolicy) (d : Document) :
    (∃ places : List Place, places.Pairwise Place.Before ∧
      List.Forall₂ (v.Amiss d) places ((v.validate d).map (·.subject)) ∧
      ∀ place subject, v.Amiss d place subject → place ∈ places) ∧
    ((v.validate d).isEmpty = true ↔
      (∀ name cls, (name, cls) ∈ d.classes → ∀ slot ∈ cls.slots, slot ∈ d.slots.names) ∧
      ∀ name slot range, (name, slot) ∈ d.slots → slot.range = some range →
        range ∉ v.builtinTypes → range ∉ d.classes.names →
        v.enumSuffix.toList <:+ range.toList → range ∈ d.enums.names) := by
  have hempty : (v.validate d).isEmpty = true ↔ ∀ place subject, ¬ v.Amiss d place subject :=
    List.isEmpty_iff.trans validate_eq_nil_iff
  refine ⟨⟨(v.located d).map (·.1), ?_, ?_, fun place subject h => ?_⟩, hempty.trans ⟨?_, ?_⟩⟩
  · exact List.pairwise_map.2 (v.located_pairwise d)
  · rw [← map_snd_located, List.forall₂_map_left_iff, List.forall₂_map_right_iff, List.forall₂_same]
    exact fun x hx => mem_located_iff.1 hx
  · exact List.mem_map.2 ⟨_, mem_located_iff.2 h, rfl⟩
  · refine fun h => ⟨fun name cls hclass slot hslot => ?_, ?_⟩
    · exact declared_of_validate_eq_nil (validate_eq_nil_iff.2 h) hclass hslot
    · intro name slot range hslot hrange hbuiltin hclass hsuffix
      obtain ⟨s, hs⟩ := List.mem_iff_getElem?.1 hslot
      exact not_not.1 fun henum => h _ _ (.range hs hrange ⟨hbuiltin, hclass, hsuffix, henum⟩)
  · rintro ⟨hslots, hranges⟩ place subject h
    cases h with
    | item hclass hitem hmissing =>
      exact hmissing (hslots _ _ (List.mem_of_getElem? hclass) _ (List.mem_of_getElem? hitem))
    | range hslot hrange hdangling =>
      obtain ⟨hbuiltin, hclass, hsuffix, henum⟩ := hdangling
      exact henum (hranges _ _ _ (List.mem_of_getElem? hslot) hrange hbuiltin hclass hsuffix)

end ValidationPolicy

end SchemaTidy
