import Mathlib.Data.List.Induction
import SchemaTidy.Proofs.Schema.SlotSection

/-! # The tables of a document and its mapping

A document that was read has the tables that its mapping reads as (`faithful_of_parse`). It stays
so when slots are declared under new names: they come last in the table and in the section of the
mapping, and nothing else changes (`Faithful.addSlots`). -/

namespace SchemaTidy.Schema
open Yaml (Value Entries)

namespace Document

variable {α : Type} {read : Value → α} {root es : Entries} {d d' : Document} {name : String}
  {slot : SlotDef} {added : Table SlotDef}

/-! ## Reading sections -/

/-- Whether a key reads as a name. -/
def readsAs (name : String) (key : Value) : Bool := scalarText? key == some name

/-- What an entry of a section does to the table. -/
def readEntry (read : Value → α) (table : Table α) (e : Value × Value) : Table α :=
  match scalarText? e.1 with
  | some name => table.insert name (read e.2)
  | none => table

theorem readEntries_eq_foldl (read : Value → α) (es : Entries) :
    readEntries read es = es.foldl (readEntry read) [] := rfl

theorem readEntries_concat (read : Value → α) (es : Entries) (e : Value × Value) :
    readEntries read (es ++ [e]) = readEntry read (readEntries read es) e :=
  List.foldl_append

theorem readEntries_concat_string (es : Entries) (name : String) (body : Value) :
    readEntries read (es ++ [(.string name, body)]) =
      (readEntries read es).insert name (read body) :=
  readEntries_concat read es _

theorem mem_names_readEntries :
    name ∈ (readEntries read es).names ↔ ∃ e ∈ es, scalarText? e.1 = some name := by
  induction es using List.reverseRecOn with
  | nil => simp [readEntries, Table.names]
  | append_singleton es e ih =>
    rw [readEntries_concat, readEntry]
    cases htext : scalarText? e.1 with
    | none => simp [ih, htext]
    | some other => simp [Table.mem_names_insert, ih, htext, or_comm, eq_comm]

theorem readSection_eq_ok {table : Table α} (h : readSection root name read = .ok table) :
    ∃ es, sectionEntries root name = .ok es ∧ table = readEntries read es := by
  unfold readSection at h
  cases hes : sectionEntries root name with
  | error e => rw [hes] at h; cases h
  | ok es => exact ⟨es, rfl, by rw [hes] at h; exact (Except.ok.inj h).symm⟩

theorem sectionEntries_congr {root' : Entries} (h : root'.get? name = root.get? name) :
    sectionEntries root' name = sectionEntries root name := by
  rw [sectionEntries, h, sectionEntries]

/-- Sections other than that of the slots are read alike when only this one changes. -/
theorem readSection_of_without {root' : Entries} (h : root'.without "slots" = root.without "slots")
    (hne : name ≠ "slots") : readSection root' name read = readSection root name read := by
  rw [readSection, sectionEntries_congr (Entries.get?_eq_of_without h hne), readSection]

theorem ofRoot_eq_ok_iff :
    ofRoot root = .ok d ↔ d.root = root ∧
      readSection root "classes" ClassDef.ofValue = .ok d.classes ∧
      readSection root "slots" SlotDef.ofValue = .ok d.slots ∧
      readSection root "enums" id = .ok d.enums := by
  unfold ofRoot
  constructor
  · intro h
    obtain ⟨classes, hclasses, h⟩ := bind_eq_ok.1 h
    obtain ⟨slots, hslots, h⟩ := bind_eq_ok.1 h
    obtain ⟨enums, henums, h⟩ := bind_eq_ok.1 h
    obtain rfl := Except.ok.inj h
    exact ⟨rfl, hclasses, hslots, henums⟩
  · rintro ⟨rfl, hclasses, hslots, henums⟩
    rw [hclasses, hslots, henums]
    rfl

theorem parse_eq_ok_iff {text : String} :
    parse text = .ok d ↔
      ∃ root, Yaml.read text.toList = .ok (.mapping root) ∧ ofRoot root = .ok d := by
  unfold parse
  cases Yaml.read text.toList with
  | error e => simp
  | ok v => cases v <;> simp

/-! ## Documents as they are read -/

/-- The tables of a document are those of its mapping, which has no two entries of one key. -/
structure Faithful (d : Document) : Prop where
  distinct : d.root.Distinct
  read : ofRoot d.root = .ok d

theorem faithful_of_parse {text : String} (h : parse text = .ok d) : d.Faithful := by
  obtain ⟨root, hread, hroot⟩ := parse_eq_ok_iff.1 h
  have heq : d.root = root := (ofRoot_eq_ok_iff.1 hroot).1
  exact ⟨heq ▸ Yaml.distinct_of_read hread, heq ▸ hroot⟩

/-! ## Declaring slots -/

/-- A mapping with some more entries in the section of the slots, behind those that are there. -/
structure Extends (root root' : Entries) (added : Entries) : Prop where
  others : root'.without "slots" = root.without "slots"
  slots : ∀ es, sectionEntries root "slots" = .ok es →
    sectionEntries root' "slots" = .ok (es ++ added)

theorem Extends.refl (root : Entries) : Extends root root [] :=
  ⟨rfl, fun es h => by rw [h, List.append_nil]⟩

theorem Extends.trans {root root' root'' added more : Entries} (h : Extends root root' added)
    (h' : Extends root' root'' more) : Extends root root'' (added ++ more) :=
  ⟨h'.others.trans h.others, fun es hes => by
    rw [h'.slots _ (h.slots es hes), List.append_assoc]⟩

/-- A new name is no key of the section. -/
theorem Faithful.get?_eq_none (h : d.Faithful) (hnew : name ∉ d.slots.names)
    (hes : sectionEntries d.root "slots" = .ok es) : es.get? name = none := by
  obtain ⟨es', hes', hslots⟩ := readSection_eq_ok (ofRoot_eq_ok_iff.1 h.read).2.2.1
  obtain rfl := Except.ok.inj (hes.symm.trans hes')
  refine Entries.get?_eq_none_iff.2 fun e he => Bool.eq_false_iff.2 fun hkey => hnew ?_
  rw [hslots]
  exact mem_names_readEntries.2 ⟨e, he, by rw [Yaml.Value.isString_iff.1 hkey]; rfl⟩

/-- **A slot that is declared under a new name leaves the tables those of the mapping.** -/
theorem Faithful.addSlot (h : d.Faithful) (hnew : name ∉ d.slots.names)
    (hbody : SlotDef.ofValue slot.toValue = slot) :
    (d.addSlot name slot).Faithful ∧
      Extends d.root (d.addSlot name slot).root [(.string name, slot.toValue)] := by
  obtain ⟨-, hclasses, hslots, henums⟩ := ofRoot_eq_ok_iff.1 h.read
  obtain ⟨es, hes, htable⟩ := readSection_eq_ok hslots
  obtain ⟨hdistinct, hothers, hsection⟩ := setSlot_spec h.distinct hes name slot.toValue
  rw [Entries.insert_of_get?_eq_none (h.get?_eq_none hnew hes)] at hsection
  constructor
  · refine ⟨hdistinct, ofRoot_eq_ok_iff.2 ⟨rfl, ?_, ?_, ?_⟩⟩
    · exact (readSection_of_without hothers (by decide)).trans hclasses
    · show readSection (setSlot d.root name slot.toValue) "slots" SlotDef.ofValue =
        .ok (d.slots.insert name slot)
      rw [readSection, hsection, htable, Except.map, readEntries_concat_string, hbody]
    · exact (readSection_of_without hothers (by decide)).trans henums
  · refine ⟨hothers, fun es' hes' => ?_⟩
    obtain rfl := Except.ok.inj (hes'.symm.trans hes)
    exact hsection

/-- Declare slots one after the other. -/
def addSlots (d : Document) (added : Table SlotDef) : Document :=
  added.foldl (fun d (name, slot) => d.addSlot name slot) d

theorem addSlots_cons (d : Document) (x : String × SlotDef) (rest : Table SlotDef) :
    d.addSlots (x :: rest) = (d.addSlot x.1 x.2).addSlots rest := rfl

theorem addSlots_classes (d : Document) (added : Table SlotDef) :
    (d.addSlots added).classes = d.classes := by
  induction added generalizing d with
  | nil => rfl
  | cons x rest ih => exact ih (d.addSlot x.1 x.2)

theorem addSlots_enums (d : Document) (added : Table SlotDef) :
    (d.addSlots added).enums = d.enums := by
  induction added generalizing d with
  | nil => rfl
  | cons x rest ih => exact ih (d.addSlot x.1 x.2)

/-- Names that are new stay so when another one is declared. -/
theorem new_after_addSlot {x : String × SlotDef} {rest : Table SlotDef}
    (hnew : ∀ name ∈ Table.names (x :: rest), name ∉ d.slots.names)
    (hnodup : (Table.names (x :: rest)).Nodup) :
    ∀ name ∈ rest.names, name ∉ (d.addSlot x.1 x.2).slots.names := by
  intro name hname hmem
  rcases (Table.mem_names_insert _ _).1 hmem with rfl | hold
  · exact (List.nodup_cons.1 hnodup).1 hname
  · exact hnew name (List.mem_cons_of_mem _ hname) hold

/-- Slots with different new names come after those that are there. -/
theorem addSlots_slots (hnew : ∀ name ∈ added.names, name ∉ d.slots.names)
    (hnodup : added.names.Nodup) : (d.addSlots added).slots = d.slots ++ added := by
  induction added generalizing d with
  | nil => exact (List.append_nil _).symm
  | cons x rest ih =>
    have hstep : (d.addSlot x.1 x.2).slots = d.slots ++ [x] :=
      Table.insert_of_new (hnew x.1 List.mem_cons_self) x.2
    rw [addSlots_cons, ih (new_after_addSlot hnew hnodup) (List.nodup_cons.1 hnodup).2, hstep,
      List.append_assoc]
    rfl

/-- **Slots that are declared under different new names leave the tables those of the mapping.** -/
theorem Faithful.addSlots (h : d.Faithful) (hnew : ∀ name ∈ added.names, name ∉ d.slots.names)
    (hnodup : added.names.Nodup) (hbody : ∀ x ∈ added, SlotDef.ofValue x.2.toValue = x.2) :
    (d.addSlots added).Faithful ∧
      Extends d.root (d.addSlots added).root
        (added.map fun (name, slot) => (.string name, slot.toValue)) := by
  induction added generalizing d with
  | nil => exact ⟨h, Extends.refl d.root⟩
  | cons x rest ih =>
    obtain ⟨hfaithful, hstep⟩ :=
      h.addSlot (hnew x.1 List.mem_cons_self) (hbody x List.mem_cons_self)
    obtain ⟨hfaithful', hrun⟩ := ih hfaithful (new_after_addSlot hnew hnodup)
      (List.nodup_cons.1 hnodup).2 fun y hy => hbody y (List.mem_cons_of_mem _ hy)
    exact ⟨hfaithful', hstep.trans hrun⟩

end Document

end SchemaTidy.Schema
