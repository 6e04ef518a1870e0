import SchemaTidy.Engine
import SchemaTidy.Proofs.Dedupe.Outline
import SchemaTidy.Proofs.Dedupe.Settled
import SchemaTidy.Proofs.Schema.SlotSection

/-! # Texts that are left as they are

Main statement: `dedupe_eq_self`. A text is left as it is just when the names that the scan finds
in it are different. They are, if they are keys of the slots section in their order. In a text in
block style with levels of two spaces they are these keys (`dedupe_eq_self_of_lays`); but the scan
goes by indentation alone, so that in other texts it may find keys of other mappings
(`dedupe_renames_attributes`). -/

namespace SchemaTidy
open Schema (Document)

namespace Yaml

/-- The keys under a field. -/
def Content.keys : Content → List (List Char)
  | .nested inner => inner.fields.map (·.key.text)
  | _ => []

/-- The content may be that of the section of the slots: names that are different, if it is a
mapping, and no block scalar. -/
def Content.IsSlotSection : Content → Prop
  | .nested inner =>
    (∀ f ∈ inner.fields, Text.IsName f.key.text) ∧ (inner.fields.map (·.key.text)).Nodup
  | .leaf (some (.text _ _)) => False
  | _ => True

end Yaml

namespace Dedupe
open Source

variable {indentWidth indent : Nat} {text : List Char} {ls : List Line}

/-- The names that the scan finds in a text, one for each line that it takes for a definition. -/
def definedNames (indentWidth : Nat) (text : List Char) : List (List Char) :=
  (definitions (max indentWidth 1) (lines text)).map (·.key.text)

theorem nodup_of_plan_eq_nil (h : plan indent ls = []) :
    ((definitions indent ls).map (·.key.text)).Nodup := by
  refine List.pairwise_map.2 ((definitions_pairwise _ _).imp_of_mem fun {a b} ha hb hlt heq => ?_)
  -- the later of two lines with one name would have been renamed
  have hrepeats : RepeatsAt indent ls b.line b.key :=
    ⟨mem_definitions_iff.1 hb, a.line, a.key, hlt, mem_definitions_iff.1 ha, heq⟩
  obtain ⟨r, hr, -⟩ := hrepeats.exists_rename
  rw [h] at hr
  cases hr

/-- A resolution that renames nothing leaves the text as it is, and that is so just when the names
that the scan finds are different. -/
theorem resolve_eq_self_iff :
    resolve indentWidth text = ⟨text, []⟩ ↔ (definedNames indentWidth text).Nodup := by
  refine ⟨fun h => ?_, resolve_of_nodup⟩
  rw [resolve_eq] at h
  exact nodup_of_plan_eq_nil (congrArg Outcome.renames h)

/-- Keys of a mapping without repeated keys, in their order, are different names. -/
theorem nodup_of_sublist_keys {names : List (List Char)} {es : Yaml.Entries} (hes : es.Distinct)
    (h : (names.map fun name => Yaml.Value.string (String.ofList name)).Sublist (es.map (·.1))) :
    names.Nodup := by
  have hkeys : (es.map (·.1)).Pairwise fun k l => k.same l = false := List.pairwise_map.2 hes
  refine (List.pairwise_map.1 (hkeys.sublist h)).imp fun {a b} hdiffers heq => ?_
  subst heq
  simp [Yaml.Value.same_string, Yaml.Value.isString] at hdiffers

/-! ## Block style -/

section
open Yaml

variable {n : Nat} {xs : List (Line × Nat)} {fs : List Field} {l : Line} {c : Content}
  {b : Block .mapping}

/-- The names of the keys at a column. -/
theorem names_definitionsIn (xs : List (Line × Nat)) :
    (definitionsIn n xs).map (·.key.text) = xs.filterMap fun a => (keyAt n a.1).map (·.text) := by
  rw [definitionsIn, List.map_filterMap]
  exact List.filterMap_congr fun a _ => by rw [Option.map_map]; rfl

theorem filterMap_keyAt_eq_nil (h : ∀ a ∈ xs, keyAt n a.1 = none) :
    (xs.filterMap fun a => (keyAt n a.1).map (·.text)) = [] :=
  List.filterMap_eq_nil_iff.2 fun a ha => by rw [h a ha]; rfl

theorem keys_of_outline (h : Outline n xs fs) :
    (xs.filterMap fun a => (keyAt n a.1).map (·.text)) = fs.map (·.key.text) := by
  induction h with
  | nil => rfl
  | field hkey htext hunder h ih =>
    rw [List.filterMap_cons_some (by rw [hkey]; rfl), List.filterMap_append,
      filterMap_keyAt_eq_nil hunder.keyAt_eq_none, ih]
    exact congrArg (· :: _) htext

/-- The keys in the section of the slots are those of its block. -/
theorem keys_of_under (hunder : Under 0 l xs c) (hsection : c.IsSlotSection) :
    ((Content.body c xs).filterMap fun a => (keyAt 2 a.1).map (·.text)) = c.keys := by
  cases hunder with
  | leaf hcs =>
    cases hcs with
    | none | inline => rfl
    | text => exact hsection.elim
  | flush => rfl
  | @nested s k inside after inner hvalue hinside =>
    cases s with
    | mapping => exact keys_of_outline (outline_of_lays hinside rfl hsection.1 k)
    | sequence =>
      refine (filterMap_keyAt_eq_nil fun a ha => ?_).trans ?_
      · exact keyAt_of_list hinside rfl a.1 (mem_structural ha).1
      · cases inner <;> rfl

/-- The names that the scan finds in a text in block style are the keys of its slots section. -/
theorem definedNames_of_lays (h : LaysText (lines text) b)
    (hnames : ∀ f ∈ b.fields, Text.IsName f.key.text)
    (hslots : ∀ f ∈ b.fields, f.key.text = slotsName → f.content.IsSlotSection) :
    definedNames 2 text = ((b.content? slotsName).map (·.keys)).getD [] := by
  obtain ⟨k, inside, hlays, heq⟩ := sectionOf_of_laysText h slotsName
  have hstart : definedNames 2 text =
      (sectionOf slotsName (structural 0 (lines text))).filterMap fun a =>
        (keyAt 2 a.1).map (·.text) := by
    rw [definedNames, definitions_eq, ← definitionsIn, ← definitionsIn_filter, names_definitionsIn,
      sectionLines_eq, ← sectionOf_filter]
    rfl
  rw [hstart, heq, Block.content?]
  rcases section_of_outline (outline_of_lays hlays rfl hnames k) slotsName with
    ⟨hnone, hsection⟩ | ⟨f, l, ys, hsome, hunder, hsection⟩
  · rw [hsection, hnone]
    rfl
  · have hmem := List.mem_of_find?_eq_some hsome
    have hname : f.key.text = slotsName := by simpa using List.find?_some hsome
    rw [hsection, hsome]
    exact keys_of_under hunder (hslots f hmem hname)

theorem nodup_of_isSlotSection (h : c.IsSlotSection) : c.keys.Nodup := by
  cases c with
  | nested inner => exact h.2
  | leaf | flush => exact List.nodup_nil

end

end Dedupe

namespace Policy
open Dedupe

variable {p : Policy} {text : String}

theorem dedupe_eq_self_iff_resolve :
    p.dedupe text = ⟨text, []⟩ ↔ resolve p.indentWidth text.toList = ⟨text.toList, []⟩ := by
  rw [dedupe]
  obtain ⟨out, renames⟩ := resolve p.indentWidth text.toList
  simp only [Deduped.mk.injEq, Dedupe.Outcome.mk.injEq, List.map_eq_nil_iff]
  exact and_congr_left' ⟨fun h => by simp [← h], fun h => by simp [h]⟩

/-- Of a mapping that was read, the entries of a section have different keys. -/
theorem distinct_of_sectionEntries {cs : List Char} {root es : Yaml.Entries} {name : String}
    (hread : Yaml.read cs = .ok (.mapping root))
    (h : Document.sectionEntries root name = .ok es) : es.Distinct := by
  rcases Document.sectionEntries_eq_ok h with hget | ⟨rfl, -⟩
  · cases (Yaml.unrepeated_of_read hread).of_get? hget with
    | mapping hdistinct => exact hdistinct
  · exact List.Pairwise.nil

/-- **A text is left as it is just when the names that the scan finds are different.** In
particular this is so for a text that reads as a mapping, when the names are keys of its slots
section in their order. -/
theorem dedupe_eq_self (p : Policy) (text : String) :
    (p.dedupe text = ⟨text, []⟩ ↔ (definedNames p.indentWidth text.toList).Nodup) ∧
    ∀ root slots, Yaml.read text.toList = .ok (.mapping root) →
      Document.sectionEntries root "slots" = .ok slots →
      ((definedNames p.indentWidth text.toList).map fun name =>
        Yaml.Value.string (String.ofList name)).Sublist (slots.map (·.1)) →
      p.dedupe text = ⟨text, []⟩ := by
  have hiff : p.dedupe text = ⟨text, []⟩ ↔ (definedNames p.indentWidth text.toList).Nodup :=
    dedupe_eq_self_iff_resolve.trans resolve_eq_self_iff
  refine ⟨hiff, fun root slots hread hslots hnames => hiff.2 ?_⟩
  exact nodup_of_sublist_keys (distinct_of_sectionEntries hread hslots) hnames

/-- **A text in block style is left as it is**, if the slots in it have different names. -/
theorem dedupe_eq_self_of_lays (hwidth : p.indentWidth = 2) {b : Yaml.Block .mapping}
    (h : Yaml.LaysText (Source.lines text.toList) b)
    (hnames : ∀ f ∈ b.fields, Text.IsName f.key.text)
    (hslots : ∀ f ∈ b.fields, f.key.text = slotsName → f.content.IsSlotSection) :
    p.dedupe text = ⟨text, []⟩ := by
  refine dedupe_eq_self_iff_resolve.2 (resolve_eq_self_iff.2 ?_)
  rw [hwidth, definedNames_of_lays h hnames hslots]
  cases hcontent : b.content? slotsName with
  | none => exact List.nodup_nil
  | some c =>
    obtain ⟨f, hf, hkey, rfl⟩ := Schema.mem_of_content? hcontent
    exact nodup_of_isSlotSection (hslots f hf hkey)

/-- A level of two spaces, as it is meant to be. -/
theorem dedupe_eq_self_two_spaces :
    let text := "slots:\n  a:\n    range: string\n  b:\n    range: string\n"
    Policy.standard.dedupe text = ⟨text, []⟩ := by
  intro text
  let body : Yaml.Value := .mapping [(.string "range", .string "string")]
  let slots : Yaml.Entries := [(.string "a", body), (.string "b", body)]
  have hread : Yaml.read text.toList = .ok (.mapping [(.string "slots", .mapping slots)]) := by
    decide +kernel
  exact (dedupe_eq_self Policy.standard text).2 _ slots hread rfl (by decide +kernel)

/-- With levels of one space the attributes of the slots are taken for definitions. No mapping in
this text repeats a key: it has the seven scalars that its value has. -/
theorem dedupe_renames_attributes :
    let text := "slots:\n a:\n  range: string\n b:\n  range: string\n"
    let body : Yaml.Value := .mapping [(.string "range", .string "string")]
    Yaml.read text.toList =
      .ok (.mapping [(.string "slots", .mapping [(.string "a", body), (.string "b", body)])]) ∧
    (Yaml.Document.first text.toList).1.items.countP (fun item => item.kind matches .scalar ..) =
      7 ∧
    Policy.standard.dedupe text =
      ⟨"slots:\n a:\n  range: string\n b:\n  range_2: string\n",
        [⟨5, "range", "range_2", none⟩]⟩ := by
  decide +kernel

end Policy

end SchemaTidy
