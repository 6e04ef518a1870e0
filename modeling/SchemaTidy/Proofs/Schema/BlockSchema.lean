import SchemaTidy.Proofs.Schema.Tables
import SchemaTidy.Proofs.Text.Stretch
import SchemaTidy.Proofs.Yaml.BlockValues

/-! # Schemas in block style

Which classes, and which lists of slots, a document has that is read from a text in block style.
The names in it are plain, so that a reader by lines can tell them too. -/

namespace SchemaTidy.Yaml
open Text (IsName isNameChar)

/-! ## Fields -/

/-- What stands under a key: a value that is no block, a block below it, or items flush with it. -/
inductive Content where
  | leaf (value : Option Leaf)
  | nested {s : Shape} (inner : Block s)
  | flush (inner : Block .sequence)

def Content.value : Content → Value
  | .leaf value => valueOf value
  | .nested inner => inner.value
  | .flush inner => inner.value

structure Field where
  key : Words
  content : Content

/-- The fields of a mapping; a list has none. -/
def Block.fields : {s : Shape} → Block s → List Field
  | _, .entry key value rest => ⟨key, .leaf value⟩ :: rest.fields
  | _, .nested key inner rest => ⟨key, .nested inner⟩ :: rest.fields
  | _, .flush key inner rest => ⟨key, .flush inner⟩ :: rest.fields
  | _, .nil => []
  | _, .item _ _ => []
  | _, .nestedItem _ _ => []

def Block.entries (b : Block .mapping) : Entries :=
  b.fields.map fun f => (plainValue f.key.text, f.content.value)

theorem Block.parts_eq_entries : (b : Block .mapping) → b.parts = b.entries
  | .nil => rfl
  | .entry _ _ rest => congrArg (_ :: ·) rest.parts_eq_entries
  | .nested _ _ rest => congrArg (_ :: ·) rest.parts_eq_entries
  | .flush _ _ rest => congrArg (_ :: ·) rest.parts_eq_entries

/-- The content under a name. -/
def Block.content? (b : Block .mapping) (name : List Char) : Option Content :=
  (b.fields.find? (·.key.text == name)).map (·.content)

/-! ## Names -/

/-- The words are a name of letters, digits and underscores, and are read as a string. -/
structure Words.IsNamed (w : Words) : Prop where
  name : IsName w.text
  string : plainValue w.text = .string (String.ofList w.text)

theorem ne_of_isNameChar {c d : Char} (hc : isNameChar c = true) (hd : isNameChar d = false) :
    c ≠ d := by
  rintro rfl
  rw [hc] at hd
  cases hd

theorem not_mem_of_isNameChar {c : Char} {cs : List Char} (hc : isNameChar c = true)
    (hcs : cs.all (fun d => !isNameChar d) = true) : c ∉ cs := by
  intro hmem
  have hnot := List.all_eq_true.1 hcs c hmem
  rw [hc] at hnot
  cases hnot

theorem isWord_of_name {name : List Char} (h : ∀ c ∈ name, isNameChar c = true) (inFlow : Bool) :
    Scalar.isWord inFlow name = true := by
  induction name with
  | nil => rfl
  | cons c cs ih =>
    obtain ⟨hc, hcs⟩ := List.forall_mem_cons.1 h
    have hgap : isGap c = false := by
      simp [isGap, ne_of_isNameChar (d := ' ') hc rfl, ne_of_isNameChar (d := '\t') hc rfl]
    have hbreak : isBreak c = false := by
      simp [isBreak, ne_of_isNameChar (d := '\n') hc rfl, ne_of_isNameChar (d := '\r') hc rfl,
        ne_of_isNameChar (d := '\u0085') hc rfl, ne_of_isNameChar (d := '\u2028') hc rfl,
        ne_of_isNameChar (d := '\u2029') hc rfl]
    have hcolon : (c == ':') = false := beq_false_of_ne (ne_of_isNameChar hc rfl)
    have hat : Scalar.endsAtColon inFlow (c :: cs) = false := by
      cases cs with
      | nil => simp [Scalar.endsAtColon]
      | cons d ds => rw [Scalar.endsAtColon_cons_cons, hcolon, Bool.false_and]
    have hflow : Scalar.isFlowIndicator c = false := by
      cases hmem : Scalar.isFlowIndicator c with
      | false => rfl
      | true => exact absurd (List.contains_iff_mem.1 hmem) (not_mem_of_isNameChar hc (by decide))
    rw [Scalar.isWord, hgap, hbreak, hcolon, hat, hflow, ih hcs, Bool.and_false]
    rfl

theorem isFurther_of_name {name : List Char} (h : IsName name) (inFlow : Bool) :
    Scalar.IsFurther inFlow name where
  word := isWord_of_name h.2 inFlow
  ne_nil := h.1
  no_comment hhead :=
    absurd rfl (ne_of_isNameChar (h.2 '#' (List.mem_of_mem_head? hhead)) rfl)

/-- A name is a plain scalar. -/
theorem isPlain_of_name {name : List Char} (h : IsName name) (inFlow : Bool) :
    Words.IsPlain inFlow ⟨name, []⟩ where
  first := isFurther_of_name h inFlow
  more x hx := absurd hx List.not_mem_nil
  start := by
    obtain ⟨c, cs, heq, hc⟩ := h.exists_cons
    refine ⟨c, cs, heq, fun hind => ?_⟩
    exact absurd (List.contains_iff_mem.1 hind) (not_mem_of_isNameChar hc (by decide))

/-- A name that is not too long may be a key. -/
theorem isKey_of_name {name : List Char} (h : IsName name) (hshort : name.length ≤ 1024) :
    Words.IsKey ⟨name, []⟩ where
  plain := isPlain_of_name h false
  no_mark hhead :=
    absurd rfl (ne_of_isNameChar (h.2 byteOrderMark (List.mem_of_mem_head? hhead)) (by decide))
  no_dash hhead := absurd rfl (ne_of_isNameChar (h.2 '-' (List.mem_of_mem_head? hhead)) rfl)
  no_point hhead := absurd rfl (ne_of_isNameChar (h.2 '.' (List.mem_of_mem_head? hhead)) rfl)
  short := by simpa [Words.text, Scalar.spelled] using hshort

/-- The keys are different names. -/
structure Block.HasNames (b : Block .mapping) : Prop where
  named : ∀ f ∈ b.fields, f.key.IsNamed
  nodup : (b.fields.map (·.key.text)).Nodup

variable {b : Block .mapping}

theorem Block.HasNames.entries_eq (h : b.HasNames) :
    b.entries = b.fields.map fun f => (.string (String.ofList f.key.text), f.content.value) :=
  List.map_congr_left fun f hf => by rw [(h.named f hf).string]

theorem Block.HasNames.distinct (h : b.HasNames) : b.entries.Distinct := by
  rw [h.entries_eq]
  exact Entries.distinct_of_names (List.pairwise_map.2
    ((List.pairwise_map.1 h.nodup).imp fun hne heq => hne (String.ofList_inj.1 heq)))

/-- A mapping with names as keys has one entry for each field. -/
theorem Block.HasNames.value_eq (h : b.HasNames) : b.value = .mapping b.entries := by
  have hdistinct : ([] ++ b.entries : Entries).Distinct := h.distinct
  rw [Block.value, b.parts_eq_entries, Shape.whole, Entries.foldl_insert hdistinct]
  rfl

theorem Block.HasNames.get?_entries (h : b.HasNames) (name : String) :
    b.entries.get? name = (b.content? name.toList).map (·.value) := by
  rw [h.entries_eq, Entries.get?, List.find?_map, Block.content?]
  simp only [Option.map_map]
  have hsame : (fun e : Value × Value => e.1.isString name) ∘
      (fun f : Field => (Value.string (String.ofList f.key.text), f.content.value)) =
        fun f => f.key.text == name.toList := by
    funext f
    simp [Value.isString, ← String.toList_inj]
  rw [hsame]
  rfl

/-! ## Lists of slots -/

/-- The names in a list. -/
def Block.names : {s : Shape} → Block s → List (List Char)
  | _, .item (some (.inline (.plain w))) rest => w.text :: rest.names
  | _, .item _ rest => rest.names
  | _, .nestedItem _ rest => rest.names
  | _, _ => []

/-- A list has only names in it; an item may be left out. -/
def Block.ListsNames : {s : Shape} → Block s → Prop
  | _, .item none rest => rest.ListsNames
  | _, .item (some (.inline (.plain w))) rest => w.IsNamed ∧ rest.ListsNames
  | _, .item (some _) _ => False
  | _, .nestedItem _ _ => False
  | _, _ => True

/-- The names that stand in a list, be it on one line, below the key or flush with it. -/
def Content.names : Content → List (List Char)
  | .leaf (some (.inline (.list items))) => items.words.map (·.text)
  | .leaf _ => []
  | .nested inner => inner.names
  | .flush inner => inner.names

/-- The content may be that of `slots`: a list of names, one name, or nothing. -/
def Content.IsSlots : Content → Prop
  | .leaf none => True
  | .leaf (some (.inline (.plain w))) => IsName w.text
  | .leaf (some (.inline (.list items))) => ∀ w ∈ items.words, w.IsNamed
  | @nested .sequence inner => inner.ListsNames
  | .flush inner => inner.ListsNames
  | _ => False

/-! ## Classes -/

def Block.IsClass (b : Block .mapping) : Prop :=
  b.HasNames ∧ ∀ f ∈ b.fields, f.key.text = "slots".toList → f.content.IsSlots

/-- A class is anything but a block scalar; if it has attributes, they have names. -/
def Content.IsClass : Content → Prop
  | @nested .mapping inner => inner.IsClass
  | .leaf (some (.text _ _)) => False
  | _ => True

def Content.IsClassSection : Content → Prop
  | @nested .mapping inner => inner.HasNames ∧ ∀ f ∈ inner.fields, f.content.IsClass
  | .leaf (some (.text _ _)) => False
  | _ => True

/-- The keys of a schema, of its classes and of their attributes are names, and so is what the
lists of slots hold. -/
def Block.IsSchema (b : Block .mapping) : Prop :=
  b.HasNames ∧ ∀ f ∈ b.fields, f.key.text = "classes".toList → f.content.IsClassSection

/-- The slots that a class lists. -/
def Content.slots : Content → List (List Char)
  | @nested .mapping inner => ((inner.content? "slots".toList).map (·.names)).getD []
  | _ => []

/-- The names of the classes of a section, each with the slots that it lists. -/
def Content.classes : Content → List (List Char × List (List Char))
  | @nested .mapping inner => inner.fields.map fun f => (f.key.text, f.content.slots)
  | _ => []

def Block.classes (b : Block .mapping) : List (List Char × List (List Char)) :=
  ((b.content? "classes".toList).map (·.classes)).getD []

theorem Block.HasNames.content?_eq (h : b.HasNames) {f : Field} (hf : f ∈ b.fields) :
    b.content? f.key.text = some f.content := by
  have hfind : b.fields.find? (·.key.text == f.key.text) = some f := by
    have hnodup := h.nodup
    revert hf hnodup
    induction b.fields with
    | nil => intro hf; cases hf
    | cons g fs ih =>
      intro hf hnodup
      obtain ⟨hnew, hnodup⟩ := List.nodup_cons.1 hnodup
      rcases List.mem_cons.1 hf with rfl | hf
      · simp
      · have hne : g.key.text ≠ f.key.text := fun heq =>
          hnew (List.mem_map.2 ⟨f, hf, heq.symm⟩)
        rw [List.find?_cons_of_neg (by simpa using hne), ih hf hnodup]
  rw [Block.content?, hfind]
  rfl

/-! ## Reading the classes -/

/-- Null, a boolean, a number or a string. -/
def Value.isScalar : Value → Bool
  | .null | .bool _ | .number _ | .string _ => true
  | _ => false

theorem isScalar_of_resolvePlain {cs : List Char} {v : Value} (h : resolvePlain cs = .value v) :
    v.isScalar = true := by
  unfold resolvePlain at h
  split at h
  · cases h
    rfl
  · split at h
    · cases h
      rfl
    · rename_i n _ _
      cases n <;> cases h
      rfl
    · split at h <;> cases h <;> rfl

theorem isScalar_plainValue (text : List Char) : (plainValue text).isScalar = true := by
  unfold plainValue
  split
  · exact isScalar_of_resolvePlain ‹_›
  · rfl

end SchemaTidy.Yaml

namespace SchemaTidy.Schema
open Yaml (Value Entries Block Content Field)

/-- The value under a name, if the value is a mapping. -/
def field? : Value → String → Option Value
  | .mapping es, name => Yaml.Entries.get? es name
  | _, _ => none

def isSequence : Value → Bool
  | .sequence _ => true
  | _ => false

/-- Whether the slots of a class are written as a list, and not as a scalar. -/
def Document.listsSlots (d : Document) (className : String) : Bool :=
  (((d.root.get? "classes").bind (field? · className)).bind (field? · "slots")).any isSequence

/-- The slots of a class are those under the last of its keys that is `slots`. -/
theorem slots_foldl_add {fields : List Field} (h : (fields.map (·.key.text)).Nodup) (c : ClassDef) :
    ((fields.map fun f => (Value.string (String.ofList f.key.text), f.content.value)).foldl
        (fun c (k, v) => c.add k v) c).slots =
      ((fields.find? (·.key.text == "slots".toList)).map
        fun f => ClassDef.slotNames f.content.value).getD c.slots := by
  induction fields generalizing c with
  | nil => rfl
  | cons f fs ih =>
    obtain ⟨hnew, hnodup⟩ := List.nodup_cons.1 h
    rw [List.map_cons, List.foldl_cons, ih hnodup]
    by_cases hf : f.key.text = "slots".toList
    · have hnone : fs.find? (·.key.text == "slots".toList) = none := by
        refine List.find?_eq_none.2 fun g hg heq => hnew ?_
        exact List.mem_map.2 ⟨g, hg, by simpa [hf] using heq⟩
      rw [hnone, List.find?_cons_of_pos (by simpa using hf)]
      simp [ClassDef.add, scalarText?, hf]
    · have hadd : (c.add (.string (String.ofList f.key.text)) f.content.value).slots = c.slots := by
        have hne : String.ofList f.key.text ≠ "slots" := fun heq =>
          hf (by rw [← heq, String.toList_ofList])
        rw [ClassDef.add, scalarText?]
        split
        · cases ‹some _ = none›
        · exact absurd (Option.some.inj ‹_›) hne
        · rfl
      rw [List.find?_cons_of_neg (by simpa using hf), hadd]

theorem slots_ofValue {b : Block .mapping} (h : b.HasNames) :
    (ClassDef.ofValue b.value).slots =
      ((b.content? "slots".toList).map fun c => ClassDef.slotNames c.value).getD [] := by
  rw [h.value_eq, h.entries_eq, ClassDef.ofValue]
  refine (slots_foldl_add h.nodup ClassDef.empty).trans ?_
  rw [Block.content?, Option.map_map]
  rfl

theorem readEntries_fields {α : Type} (read : Value → α) {fields : List Field}
    (h : (fields.map (·.key.text)).Nodup) :
    Document.readEntries read
        (fields.map fun f => (Value.string (String.ofList f.key.text), f.content.value)) =
      fields.map fun f => (String.ofList f.key.text, read f.content.value) := by
  induction fields using List.reverseRecOn with
  | nil => rfl
  | append_singleton fs f ih =>
    rw [List.map_append, List.nodup_append] at h
    have hnew : String.ofList f.key.text ∉
        Table.names (fs.map fun f => (String.ofList f.key.text, read f.content.value)) := by
      rw [Table.names, List.map_map]
      intro hmem
      obtain ⟨g, hg, heq⟩ := List.mem_map.1 hmem
      exact h.2.2 _ (List.mem_map.2 ⟨g, hg, rfl⟩) _ List.mem_cons_self (String.ofList_inj.1 heq)
    rw [List.map_append, List.map_singleton, Document.readEntries_concat_string, ih h.1,
      Table.insert_of_new hnew, List.map_append, List.map_singleton]

/-! ## The classes of a document -/

theorem slotNames_block : (b : Block .sequence) → b.ListsNames →
    (ClassDef.slotNames b.value).map (·.toList) = b.names
  | .nil, _ => rfl
  | .item none rest, h => slotNames_block rest h
  | .item (some (.inline (.plain w))) rest, h => by
    have hslots : ClassDef.slotNames (Block.item (some (.inline (.plain w))) rest).value =
        String.ofList w.text :: ClassDef.slotNames rest.value := by
      have hword : scalarText? (Yaml.valueOf (some (.inline (.plain w)))) = some (String.ofList w.text) :=
        congrArg scalarText? h.1.string
      exact List.filterMap_cons_some hword
    rw [hslots, List.map_cons, slotNames_block rest h.2, String.toList_ofList]
    rfl
  | .item (some (.inline (.quoted _ _))) _, h => h.elim
  | .item (some (.inline (.list _))) _, h => h.elim
  | .item (some (.inline .braces)) _, h => h.elim
  | .item (some (.text _ _)) _, h => h.elim
  | .nestedItem _ _, h => h.elim

theorem isSequence_of_isScalar {v : Value} (h : v.isScalar = true) : isSequence v = false := by
  cases v <;> first | rfl | cases h

/-- A list of slots has the names that stand in it. -/
theorem slotNames_content {c : Content} (h : c.IsSlots) :
    (if isSequence c.value then (ClassDef.slotNames c.value).map (·.toList) else []) = c.names := by
  match c, h with
  | .leaf none, _ => rfl
  | .leaf (some (.inline (.plain w))), _ =>
    have hscalar : isSequence (Content.leaf (some (.inline (.plain w)))).value = false :=
      isSequence_of_isScalar (Yaml.isScalar_plainValue w.text)
    rw [hscalar]
    rfl
  | .leaf (some (.inline (.list items))), h =>
    have hwords : (items.words.map fun w => Yaml.plainValue w.text).filterMap scalarText? =
        items.words.map fun w => String.ofList w.text := by
      rw [List.filterMap_map, ← List.filterMap_eq_map]
      exact List.filterMap_congr fun w hw => congrArg scalarText? (h w hw).string
    refine (if_pos rfl).trans ?_
    change ((items.words.map fun w => Yaml.plainValue w.text).filterMap scalarText?).map _ = _
    rw [hwords, List.map_map]
    exact List.map_congr_left fun w _ => String.toList_ofList
  | .leaf (some (.inline (.quoted _ _))), h => exact h.elim
  | .leaf (some (.inline .braces)), h => exact h.elim
  | .leaf (some (.text _ _)), h => exact h.elim
  | @Content.nested .mapping _, h => exact h.elim
  | @Content.nested .sequence inner, h => exact slotNames_block inner h
  | .flush inner, h => exact slotNames_block inner h

theorem mem_of_content? {b : Block .mapping} {name : List Char} {c : Content}
    (h : b.content? name = some c) : ∃ f ∈ b.fields, f.key.text = name ∧ f.content = c := by
  obtain ⟨f, hfind, rfl⟩ := Option.map_eq_some_iff.1 h
  exact ⟨f, List.mem_of_find?_eq_some hfind, by simpa using List.find?_some hfind, rfl⟩

theorem field?_value {b : Block .mapping} (h : b.HasNames) (name : String) :
    field? b.value name = (b.content? name.toList).map (·.value) := by
  rw [h.value_eq, field?, h.get?_entries]

theorem field?_of_isScalar {v : Value} (h : v.isScalar = true) (name : String) :
    field? v name = none := by
  cases v <;> first | rfl | cases h

/-- The slots of a class that is read, as far as they are written as a list. -/
theorem slots_content {c : Content} (h : c.IsClass) :
    (if (field? c.value "slots").any isSequence then (ClassDef.ofValue c.value).slots.map (·.toList)
      else []) = c.slots := by
  match c, h with
  | @Content.nested .mapping inner, h =>
    have hvalue : (@Content.nested .mapping inner).value = inner.value := rfl
    rw [hvalue, field?_value h.1, slots_ofValue h.1, Content.slots]
    cases hslots : inner.content? "slots".toList with
    | none => rfl
    | some content =>
      obtain ⟨f, hf, hkey, rfl⟩ := mem_of_content? hslots
      exact slotNames_content (h.2 f hf hkey)
  | .leaf none, _ => rfl
  | .leaf (some (.inline (.plain w))), _ =>
    have hnone : field? (Content.leaf (some (.inline (.plain w)))).value "slots" = none :=
      field?_of_isScalar (Yaml.isScalar_plainValue w.text) "slots"
    rw [hnone]
    rfl
  | .leaf (some (.inline (.quoted _ _))), _ => rfl
  | .leaf (some (.inline (.list _))), _ => rfl
  | .leaf (some (.inline .braces)), _ => rfl
  | .leaf (some (.text _ _)), h => exact h.elim
  | @Content.nested .sequence _, _ => rfl
  | .flush _, _ => rfl

/-- The entries of the section of the classes, if it can be one. -/
theorem sectionEntries_content {root es : Entries} {c : Content} {name : String}
    (hget : root.get? name = some c.value) (h : Document.sectionEntries root name = .ok es)
    (hc : c.IsClassSection) :
    (∃ inner : Block .mapping, c = .nested inner ∧ inner.HasNames ∧ es = inner.entries) ∨
      c.classes = [] ∧ es = [] := by
  rw [Document.sectionEntries, hget] at h
  cases c with
  | @nested s inner =>
    cases s with
    | sequence => cases h
    | mapping =>
      have hvalue : (@Content.nested .mapping inner).value = .mapping inner.entries := hc.1.value_eq
      rw [hvalue] at h
      cases h
      exact .inl ⟨inner, rfl, hc.1, rfl⟩
  | flush => cases h
  | leaf value =>
    rcases value with _ | ((w | _ | _ | _) | _)
    · cases h
      exact .inr ⟨rfl, rfl⟩
    · have hscalar := Yaml.isScalar_plainValue w.text
      rw [show (Content.leaf (some (.inline (.plain w)))).value = Yaml.plainValue w.text from rfl] at h
      cases hv : Yaml.plainValue w.text with
      | null =>
        rw [hv] at h
        cases h
        exact .inr ⟨rfl, rfl⟩
      | mapping => rw [hv] at hscalar; cases hscalar
      | _ => rw [hv] at h; cases h
    · cases h
    · cases h
    · cases h
      exact .inr ⟨rfl, rfl⟩
    · exact hc.elim

/-- **The classes of a document in block style** are those of its block, and so are their slots as
far as these are written as lists. -/
theorem classes_of_ofRoot {b : Block .mapping} {d : Document} (h : b.IsSchema)
    (hroot : Document.ofRoot b.entries = .ok d) :
    (d.classes.map fun (name, c) =>
      (name.toList, if d.listsSlots name then c.slots.map (·.toList) else [])) = b.classes := by
  obtain ⟨heq, hclasses, -, -⟩ := Document.ofRoot_eq_ok_iff.1 hroot
  obtain ⟨es, hes, htable⟩ := Document.readSection_eq_ok hclasses
  have hget := h.1.get?_entries "classes"
  cases hcontent : b.content? "classes".toList with
  | none =>
    rw [hcontent] at hget
    rw [Document.sectionEntries, hget] at hes
    cases hes
    rw [htable, Block.classes, hcontent]
    rfl
  | some c =>
    rw [hcontent] at hget
    obtain ⟨f, hf, hkey, rfl⟩ := mem_of_content? hcontent
    rw [Block.classes, hcontent]
    have hsection := h.2 f hf hkey
    rcases sectionEntries_content hget hes hsection with ⟨inner, hc, hnames, rfl⟩ | ⟨hc, rfl⟩
    · rw [hc] at hsection hget
      rw [htable, hnames.entries_eq, readEntries_fields _ hnames.nodup, List.map_map, hc]
      refine List.map_congr_left fun g hg => ?_
      have hlists : d.listsSlots (String.ofList g.key.text) =
          (field? g.content.value "slots").any isSequence := by
        rw [Document.listsSlots, heq, hget, Option.map_some, Option.bind_some,
          show (Content.nested inner).value = inner.value from rfl, field?_value hnames,
          String.toList_ofList, hnames.content?_eq hg]
        rfl
      simp only [Function.comp_apply, hlists, String.toList_ofList]
      rw [slots_content (hsection.2 g hg)]
    · rw [htable, Option.map_some, Option.getD_some, hc]
      rfl

end SchemaTidy.Schema
