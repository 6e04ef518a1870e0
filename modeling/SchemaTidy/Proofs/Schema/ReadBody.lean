import Mathlib.Data.List.Induction
import SchemaTidy.Proofs.Schema.SlotBody
import SchemaTidy.Proofs.Yaml.Mapping
import SchemaTidy.Proofs.Yaml.NumberText
import SchemaTidy.Proofs.Yaml.Repeats

/-! # Bodies that are read

Reading is lenient: an attribute that does not fit is kept as an extra one, under the text of its
key. Main statement: `read_bodies_settle`. What is read keeps its declared and its extra attributes
apart, so that it is written with all of them and is read again as it is. -/

namespace SchemaTidy.Schema
open Yaml (Value Entries)

variable {es : Entries} {name : String} {key value v : Value}

/-! ## Slots -/

namespace SlotDef

variable {slot : SlotDef}

/-- Numbers and truth values do not read like the names of declared attributes. -/
theorem eq_string_of_mem_declaredNames (hkey : scalarText? key = some name)
    (hname : name ∈ declaredNames) : key = .string name := by
  have hwords : ∀ word ∈ declaredNames,
      word.toList.all Decimal.isNumberChar = false ∧ word ≠ "true" ∧ word ≠ "false" := by decide
  obtain ⟨hletters, htrue, hfalse⟩ := hwords name hname
  cases key with
  | string s => rw [Option.some.inj hkey]
  | number n =>
    have htext : n.text = name.toList := by
      rw [← Option.some.inj hkey, String.toList_ofList]
    exact absurd htext (n.text_ne hletters)
  | bool b =>
    cases b
    · exact absurd (Option.some.inj hkey).symm hfalse
    · exact absurd (Option.some.inj hkey).symm htrue
  | null | sequence | mapping | tagged => cases hkey

/-- Setting a declared attribute leaves all others as they are. -/
theorem add_of_declares (hkey : scalarText? key = some name) (h : declares name value = true)
    (slot : SlotDef) :
    (slot.add key value).extra = slot.extra ∧
      ∀ e ∈ (slot.add key value).declared, e.1 = .string name ∨ e ∈ slot.declared := by
  unfold declares at h
  split at h
  case h_5 => cases h
  all_goals
    obtain ⟨content, hcontent⟩ := Option.isSome_iff_exists.1 h
    simp only [add, hkey, hcontent, mem_declared_iff]
    exact ⟨trivial, by grind⟩

/-- What has been gathered from some entries: each attribute comes from an entry with its name, and
is a declared one just when it fits. -/
structure Gathered (es : Entries) (slot : SlotDef) : Prop where
  nodup : slot.extra.names.Nodup
  extra : ∀ x ∈ slot.extra, declares x.1 x.2 = false ∧
    ∃ key, (key, x.2) ∈ es ∧ scalarText? key = some x.1
  declared : ∀ e ∈ slot.declared, ∃ name key value, e.1 = .string name ∧ (key, value) ∈ es ∧
    scalarText? key = some name ∧ declares name value = true

theorem Gathered.mono (h : Gathered es slot) (e : Value × Value) : Gathered (es ++ [e]) slot where
  nodup := h.nodup
  extra x hx := by
    obtain ⟨hfits, key, hmem, hkey⟩ := h.extra x hx
    exact ⟨hfits, key, List.mem_append_left _ hmem, hkey⟩
  declared e he := by
    obtain ⟨name, key, value, hname, hmem, hkey⟩ := h.declared e he
    exact ⟨name, key, value, hname, List.mem_append_left _ hmem, hkey⟩

theorem Gathered.add (h : Gathered es slot) (key value : Value) :
    Gathered (es ++ [(key, value)]) (slot.add key value) := by
  cases hkey : scalarText? key with
  | none =>
    rw [SlotDef.add, hkey]
    exact h.mono _
  | some name =>
    have hmono := h.mono (key, value)
    cases hfits : declares name value
    · rw [add_of_not_declares hkey hfits]
      refine ⟨Table.nodup_names_insert h.nodup _ _, fun x hx => ?_, hmono.declared⟩
      rcases Table.mem_of_mem_insert hx with rfl | hold
      · exact ⟨hfits, key, List.mem_concat_self, hkey⟩
      · exact hmono.extra x hold
    · obtain ⟨hextra, hdeclared⟩ := add_of_declares hkey hfits slot
      refine ⟨hextra ▸ h.nodup, fun x hx => hmono.extra x (hextra ▸ hx), fun e he => ?_⟩
      rcases hdeclared e he with hname | hold
      · exact ⟨name, key, value, hname, List.mem_concat_self, hkey, hfits⟩
      · exact hmono.declared e hold

theorem gathered_ofValue (es : Entries) : Gathered es (ofValue (.mapping es)) := by
  induction es using List.reverseRecOn with
  | nil => exact ⟨List.nodup_nil, nofun, nofun⟩
  | append_singleton es e ih =>
    rw [ofValue, List.foldl_append]
    exact ih.add e.1 e.2

/-- Both entries of a name that is declared and extra would have its string as their key. -/
theorem Gathered.apart (h : Gathered es slot) (hdistinct : es.Distinct) : slot.Apart where
  nodup := h.nodup
  extra x hx := (h.extra x hx).1
  declared e he name hname hkey := by
    obtain ⟨x, hx, rfl⟩ := List.mem_map.1 hname
    obtain ⟨hunfit, key, hmem, hread⟩ := h.extra x hx
    obtain ⟨other, key', value, hother, hmem', hread', hfits⟩ := h.declared e he
    obtain rfl : x.1 = other := Value.string.inj (hkey.symm.trans hother)
    rw [eq_string_of_mem_declaredNames hread (mem_declaredNames hfits)] at hmem
    rw [eq_string_of_mem_declaredNames hread' (mem_declaredNames hfits)] at hmem'
    have hvalue : some x.2 = some value :=
      (hdistinct.codeValue?_of_mem hmem rfl).symm.trans (hdistinct.codeValue?_of_mem hmem' rfl)
    rw [← Option.some.inj hvalue, hunfit] at hfits
    cases hfits

theorem apart_ofValue (h : v.Unrepeated) : (ofValue v).Apart := by
  cases h with
  | mapping hdistinct _ _ => exact (gathered_ofValue _).apart hdistinct
  | null | bool | number | string | sequence | tagged => exact ⟨List.nodup_nil, nofun, nofun⟩

end SlotDef

/-! ## Classes -/

namespace ClassDef

variable {c : ClassDef}

/-- Extra attributes have different names, and none has the name of the slots. -/
structure Apart (c : ClassDef) : Prop where
  nodup : c.extra.names.Nodup
  extra : "slots" ∉ c.extra.names

theorem add_of_ne (hkey : scalarText? key = some name) (h : name ≠ "slots") (c : ClassDef)
    (value : Value) : c.add key value = { c with extra := c.extra.insert name value } := by
  rw [add, hkey]
  split
  next hnone => cases hnone
  next hslots => exact absurd (Option.some.inj hslots) h
  next hother =>
    cases hother
    rfl

theorem Apart.add (h : c.Apart) (key value : Value) : (c.add key value).Apart := by
  cases hkey : scalarText? key with
  | none =>
    rw [ClassDef.add, hkey]
    exact h
  | some name =>
    by_cases hname : name = "slots"
    · rw [ClassDef.add, hkey, hname]
      exact ⟨h.nodup, h.extra⟩
    · rw [add_of_ne hkey hname]
      refine ⟨Table.nodup_names_insert h.nodup _ _, fun hmem => ?_⟩
      rcases (Table.mem_names_insert _ _).1 hmem with heq | hold
      · exact hname heq.symm
      · exact h.extra hold

theorem apart_ofValue (v : Value) : (ofValue v).Apart := by
  have hempty : empty.Apart := ⟨List.nodup_nil, nofun⟩
  cases v with
  | mapping es =>
    rw [ofValue]
    induction es using List.reverseRecOn with
    | nil => exact hempty
    | append_singleton es e ih =>
      rw [List.foldl_append]
      exact ih.add e.1 e.2
  | null | bool | number | string | sequence | tagged => exact hempty

theorem Apart.distinct (h : c.Apart) : c.entries.Distinct := by
  refine List.pairwise_append.2 ⟨?_, Entries.distinct_of_names h.nodup, ?_⟩
  · split
    · exact List.Pairwise.nil
    · exact List.pairwise_singleton _ _
  · intro e he e' he'
    obtain ⟨x, hx, rfl⟩ := List.mem_map.1 he'
    split at he
    · cases he
    · rw [List.mem_singleton.1 he, Value.same_string, Bool.eq_false_iff]
      intro hkey
      have hname : x.1 = "slots" := (Value.string.inj (Value.isString_iff.1 hkey)).symm
      exact h.extra (hname ▸ List.mem_map.2 ⟨x, hx, rfl⟩)

/-- The body of a class has all its attributes, the slots first. -/
theorem Apart.toValue_eq (h : c.Apart) : c.toValue = .mapping c.entries :=
  congrArg Value.mapping (@Entries.foldl_insert [] _ h.distinct)

theorem foldl_extra {extra : Table Value} (h : "slots" ∉ extra.names) (front : ClassDef) :
    (extra.map fun (name, value) => (Value.string name, value)).foldl
      (fun c (k, v) => c.add k v) front =
    { front with
      extra := extra.foldl (fun (table : Table Value) (name, value) => table.insert name value)
        front.extra } := by
  induction extra generalizing front with
  | nil => rfl
  | cons x rest ih =>
    have hne : x.1 ≠ "slots" := fun heq => h (heq ▸ List.mem_cons_self)
    have hkey : scalarText? (.string x.1) = some x.1 := rfl
    have hstep := add_of_ne hkey hne front x.2
    rw [List.map_cons, List.foldl_cons]
    dsimp only
    rw [hstep, ih fun hmem => h (List.mem_cons_of_mem _ hmem)]
    rfl

theorem slotNames_strings (names : List String) :
    slotNames (.sequence (names.map .string)) = names := by
  rw [slotNames, List.filterMap_map]
  exact List.filterMap_some

/-- **The body of a class is read as the class.** -/
theorem ofValue_toValue (h : c.Apart) : ofValue c.toValue = c := by
  have hextra := @Table.foldl_insert _ [] _ h.nodup
  have hslots : (if c.slots.isEmpty then []
      else [(Value.string "slots", Value.sequence (c.slots.map .string))]).foldl
        (fun c (k, v) => c.add k v) empty = { c with extra := [] } := by
    split
    next hempty => rw [List.isEmpty_iff.1 hempty]; rfl
    · rw [List.foldl_cons, List.foldl_nil]
      dsimp only
      rw [add, scalarText?, slotNames_strings]
      rfl
  rw [h.toValue_eq, ofValue, entries, List.foldl_append, hslots, foldl_extra h.extra]
  exact congrArg (fun extra => { c with extra := extra }) hextra

end ClassDef

/-! ## Both -/

/-- **What is read is read again.** The body of a slot or of a class that was read from a value has
all attributes that it was read with, none in the place of another, and is read as it is. -/
theorem read_bodies_settle (h : v.Unrepeated) :
    ((SlotDef.ofValue v).toValue = .mapping (SlotDef.ofValue v).entries ∧
      (SlotDef.ofValue v).entries.Distinct ∧
      SlotDef.ofValue (SlotDef.ofValue v).toValue = SlotDef.ofValue v) ∧
    (ClassDef.ofValue v).toValue = .mapping (ClassDef.ofValue v).entries ∧
      (ClassDef.ofValue v).entries.Distinct ∧
      ClassDef.ofValue (ClassDef.ofValue v).toValue = ClassDef.ofValue v := by
  have hslot := SlotDef.apart_ofValue h
  have hclass := ClassDef.apart_ofValue v
  exact ⟨⟨hslot.toValue_eq, hslot.distinct, SlotDef.ofValue_toValue hslot⟩,
    hclass.toValue_eq, hclass.distinct, ClassDef.ofValue_toValue hclass⟩

/-- A body with attributes that fit and attributes that do not, and with two keys of one text. -/
def mixedBody : Value := .mapping [
  (.string "range", .number (.whole 5)), (.string "7", .string "first"),
  (.string "description", .tagged "old" (.string "kept")), (.string "identifier", .string "Yes"),
  (.string "required", .string "maybe"), (.number (.whole 7), .string "second"),
  (.string "slots", .sequence [.string "a", .number (.whole 2), .null])]

theorem unrepeated_mixedBody : mixedBody.Unrepeated := by
  refine .mapping ?_ ?_ ?_
  · simp [Entries.Distinct, Value.same]
  · simp only [List.forall_mem_cons, List.not_mem_nil, false_imp_iff, implies_true, and_true]
    exact ⟨.string _, .string _, .string _, .string _, .string _, .number _, .string _⟩
  · simp only [List.forall_mem_cons, List.not_mem_nil, false_imp_iff, implies_true, and_true]
    refine ⟨.number _, .string _, .tagged _ (.string _), .string _, .string _, .string _, .sequence ?_⟩
    simp only [List.forall_mem_cons, List.not_mem_nil, false_imp_iff, implies_true, and_true]
    exact ⟨.string _, .number _, .null⟩

theorem read_bodies_settle_mixed :
    mixedBody.Unrepeated ∧
    SlotDef.ofValue mixedBody = ⟨some "kept", none, some true, none,
      [("range", .number (.whole 5)), ("7", .string "second"), ("required", .string "maybe"),
        ("slots", .sequence [.string "a", .number (.whole 2), .null])]⟩ ∧
    SlotDef.ofValue (SlotDef.ofValue mixedBody).toValue = SlotDef.ofValue mixedBody ∧
    (ClassDef.ofValue mixedBody).slots = ["a", "2"] ∧
    ClassDef.ofValue (ClassDef.ofValue mixedBody).toValue = ClassDef.ofValue mixedBody := by
  obtain ⟨⟨-, -, hslot⟩, -, -, hclass⟩ := read_bodies_settle unrepeated_mixedBody
  exact ⟨unrepeated_mixedBody, by decide +kernel, hslot, by decide +kernel, hclass⟩

end SchemaTidy.Schema
