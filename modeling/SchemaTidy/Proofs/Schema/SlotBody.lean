import SchemaTidy.Proofs.Yaml.Entries
import SchemaTidy.Schema.Definition

/-! # Bodies of slots

A slot is written as a mapping, its declared attributes first. Reading this mapping gives the slot
back (`ofValue_toValue`), if none of its extra attributes would be read as a declared one, or is
named like one that it has. -/

namespace SchemaTidy.Schema.SlotDef
open Yaml (Value Entries)

variable {slot : SlotDef} {name : String} {key value : Value}

/-- The attributes that a slot declares, as opposed to its extra ones. -/
def declaredNames : List String := ["description", "range", "identifier", "required"]

/-- Extra attributes have different names, and no names of declared ones. -/
structure Regular (slot : SlotDef) : Prop where
  nodup : slot.extra.names.Nodup
  extra : ∀ name ∈ slot.extra.names, name ∉ declaredNames

/-- Whether an attribute of this name and value is read as a declared one. -/
def declares (name : String) (value : Value) : Bool :=
  match name with
  | "description" | "range" => value.untaggedString?.isSome
  | "identifier" | "required" => (flag? value).isSome
  | _ => false

/-- Extra attributes have different names. They do not fit as declared ones, and where one is named
like a declared one, this is not there. -/
structure Apart (slot : SlotDef) : Prop where
  nodup : slot.extra.names.Nodup
  extra : ∀ x ∈ slot.extra, declares x.1 x.2 = false
  declared : ∀ e ∈ slot.declared, ∀ name ∈ slot.extra.names, e.1 ≠ .string name

theorem mem_declaredNames (h : declares name value = true) : name ∈ declaredNames := by
  unfold declares at h
  split at h
  case h_5 => cases h
  all_goals decide

theorem mem_declared_iff {e : Value × Value} :
    e ∈ slot.declared ↔
      (∃ s, slot.description = some s ∧ (.string "description", .string s) = e) ∨
      (∃ s, slot.range = some s ∧ (.string "range", .string s) = e) ∨
      (∃ b, slot.identifier = some b ∧ (.string "identifier", .bool b) = e) ∨
      ∃ b, slot.required = some b ∧ (.string "required", .bool b) = e := by
  simp [declared, or_assoc]

theorem mem_declared {e : Value × Value} (h : e ∈ slot.declared) :
    ∃ name ∈ declaredNames, e.1 = .string name := by
  rcases mem_declared_iff.1 h with ⟨_, -, rfl⟩ | ⟨_, -, rfl⟩ | ⟨_, -, rfl⟩ | ⟨_, -, rfl⟩ <;>
    exact ⟨_, by decide, rfl⟩

theorem distinct_declared (slot : SlotDef) : slot.declared.Distinct := by
  obtain ⟨description, range, identifier, required, extra⟩ := slot
  cases description <;> cases range <;> cases identifier <;> cases required <;>
    simp [declared, Entries.Distinct, Yaml.Value.same]

theorem Regular.apart (h : slot.Regular) : slot.Apart where
  nodup := h.nodup
  extra x hx := by
    rw [Bool.eq_false_iff]
    exact fun hfits => h.extra x.1 (List.mem_map.2 ⟨x, hx, rfl⟩) (mem_declaredNames hfits)
  declared e he name hname heq := by
    obtain ⟨other, hother, hkey⟩ := mem_declared he
    rw [heq] at hkey
    exact h.extra name hname (Value.string.inj hkey ▸ hother)

theorem Apart.distinct (h : slot.Apart) : slot.entries.Distinct := by
  refine List.pairwise_append.2
    ⟨slot.distinct_declared, Entries.distinct_of_names h.nodup, fun e he e' he' => ?_⟩
  obtain ⟨x, hx, rfl⟩ := List.mem_map.1 he'
  rw [Value.same_string, Bool.eq_false_iff]
  exact fun hkey => h.declared e he x.1 (List.mem_map.2 ⟨x, hx, rfl⟩) (Value.isString_iff.1 hkey)

/-- The body of a slot has all its attributes, the declared ones first. -/
theorem Apart.toValue_eq (h : slot.Apart) : slot.toValue = .mapping slot.entries := by
  have hset := Entries.foldl_insert h.distinct
  rw [List.foldl_map] at hset
  exact congrArg Value.mapping hset

theorem foldl_declared (slot : SlotDef) :
    slot.declared.foldl (fun d (k, v) => d.add k v) empty = { slot with extra := [] } := by
  obtain ⟨description, range, identifier, required, extra⟩ := slot
  cases description <;> cases range <;> cases identifier <;> cases required <;> rfl

theorem add_of_not_declares (hkey : scalarText? key = some name) (h : declares name value = false)
    (slot : SlotDef) : slot.add key value = { slot with extra := slot.extra.insert name value } := by
  simp only [add, hkey]
  split <;> simp_all [declares]

theorem foldl_extra {extra : Table Value} (h : ∀ x ∈ extra, declares x.1 x.2 = false)
    (front : SlotDef) :
    (extra.map fun (name, value) => (Value.string name, value)).foldl
      (fun d (k, v) => d.add k v) front =
    { front with
      extra := extra.foldl (fun (table : Table Value) (name, value) => table.insert name value)
        front.extra } := by
  induction extra generalizing front with
  | nil => rfl
  | cons x rest ih =>
    obtain ⟨hx, hrest⟩ := List.forall_mem_cons.1 h
    have hkey : scalarText? (.string x.1) = some x.1 := rfl
    have hstep := add_of_not_declares hkey hx front
    rw [List.map_cons, List.foldl_cons]
    dsimp only
    rw [hstep, ih hrest]
    rfl

/-- **The body of a slot is read as the slot.** -/
theorem ofValue_toValue (h : slot.Apart) : ofValue slot.toValue = slot := by
  have hextra := @Table.foldl_insert _ [] _ h.nodup
  rw [h.toValue_eq, ofValue, entries, List.foldl_append, foldl_declared, foldl_extra h.extra]
  exact congrArg (fun extra => { slot with extra := extra }) hextra

end SchemaTidy.Schema.SlotDef
