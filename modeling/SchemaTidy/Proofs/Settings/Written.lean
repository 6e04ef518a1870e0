import SchemaTidy.Proofs.Settings.Layer
import SchemaTidy.Proofs.Toml.Document
import SchemaTidy.Settings.Policy

/-! # A policy, written and read

Main statement: `read_text_ofPolicy`. The settings of a policy are written so that they read back,
though not always in the order in which they were written: an empty catalog comes up before the
identifier. -/

namespace SchemaTidy.Settings
open Toml (Value Table Statement Plain entries sectionsText LegibleSection)

/-- The numbers of a policy. -/
def counts (p : Policy) : List Nat :=
  [p.repair.catalogMinReferences, p.repair.identifier.minReferences, p.indentWidth]

/-- A policy whose numbers have no more than 63 bits. -/
def Writable (p : Policy) : Prop := ∀ n ∈ counts p, n < Nat.pow 2 63

instance (p : Policy) : Decidable (Writable p) :=
  inferInstanceAs (Decidable (∀ n ∈ counts p, n < Nat.pow 2 63))

variable {p : Policy}

def identifierEntries (i : IdentifierSlot) : Table :=
  slotEntries i.toCatalogSlot ++ [("min_references", count i.minReferences)]

/-- The settings of repairs that have no section of their own. -/
def repairValues (p : RepairPolicy) : Table :=
  ("catalog_min_references", count p.catalogMinReferences) ::
    if p.catalog.isEmpty then [("catalog", .array [])] else []

def catalogValue (p : RepairPolicy) : Value :=
  .array (p.catalog.map fun slot => .table (slotEntries slot))

/-- The settings of repairs, those with sections of their own last. -/
def repairSettings (p : RepairPolicy) : Table :=
  repairValues p ++ ("identifier", .table (identifierEntries p.identifier)) ::
    if p.catalog.isEmpty then [] else [("catalog", catalogValue p)]

def indentEntries (width : Nat) : Table := [("indent_width", count width)]

/-- The settings of a policy as they are read back. -/
def settings (p : Policy) : Table :=
  [("validation", .table (validationEntries p.validation)),
    ("repair", .table (repairSettings p.repair)),
    ("dedupe", .table (indentEntries p.indentWidth))]

def firstSections (p : Policy) : List (List Statement) :=
  [.header ["validation"] :: entries (validationEntries p.validation),
    .header ["repair"] :: entries (repairValues p.repair),
    .header ["repair", "identifier"] :: entries (identifierEntries p.repair.identifier)]

def catalogSection (slot : CatalogSlot) : List Statement :=
  .element ["repair", "catalog"] :: entries (slotEntries slot)

def indentSection (width : Nat) : List Statement :=
  .header ["dedupe"] :: entries (indentEntries width)

/-- The statements of a policy, section by section. -/
def sections (p : Policy) : List (List Statement) :=
  firstSections p ++ p.repair.catalog.map catalogSection ++ [indentSection p.indentWidth]

/-! ## The text -/

theorem plain_validationEntries (p : ValidationPolicy) : Plain (validationEntries p) := by
  simp only [Plain, validationEntries, List.forall_mem_cons]
  refine ⟨.list fun v hv => ?_, .scalar (.string _), .scalar (.bool _), nofun⟩
  obtain ⟨s, -, rfl⟩ := List.mem_map.1 hv
  exact .string s

theorem plain_slotEntries (slot : CatalogSlot) : Plain (slotEntries slot) := by
  simp only [Plain, slotEntries, List.forall_mem_cons]
  exact ⟨.scalar (.string _), .scalar (.string _), .scalar (.string _), nofun⟩

theorem plain_identifierEntries {i : IdentifierSlot} (h : i.minReferences < Nat.pow 2 63) :
    Plain (identifierEntries i) := by
  intro e he
  rcases List.mem_append.1 he with he | he
  · exact plain_slotEntries _ e he
  · rw [List.mem_singleton.1 he]
    exact .scalar (.count h)

theorem plain_indentEntries {width : Nat} (h : width < Nat.pow 2 63) : Plain (indentEntries width) :=
  List.forall_mem_cons.2 ⟨.scalar (.count h), nofun⟩

theorem plain_repairValues {p : RepairPolicy} (h : p.catalogMinReferences < Nat.pow 2 63) :
    Plain (repairValues p) := by
  rw [repairValues, Plain, List.forall_mem_cons]
  refine ⟨.scalar (.count h), fun e he => ?_⟩
  split at he
  · rw [List.mem_singleton.1 he]
    exact .list nofun
  · cases he

theorem isSeries_catalogValue (p : RepairPolicy) :
    (catalogValue p).isSeries = !p.catalog.isEmpty := by
  rw [catalogValue, Value.isSeries, List.isEmpty_map, Bool.and_eq_left_iff_imp]
  intro
  rw [List.all_map, List.all_eq_true]
  exact fun _ _ => rfl

/-- An empty catalog is a value, and any other one has sections. -/
theorem ownEntries_repairEntries (p : RepairPolicy) :
    Toml.ownEntries (repairEntries p) = repairValues p := by
  have hseries := isSeries_catalogValue p
  change List.filter _ [(_, count _), (_, .table _), (_, catalogValue p)] = _
  rw [List.filter_cons_of_pos rfl,
    List.filter_cons_of_neg (by simp [Value.isSection, Value.table?])]
  cases hcatalog : p.catalog with
  | nil =>
    simp [repairValues, hcatalog, catalogValue, Value.isSection, Value.isSeries, Value.table?]
  | cons slot more =>
    rw [hcatalog] at hseries
    simp [repairValues, hcatalog, Value.isSection, hseries]

theorem elementSections_catalog (catalog : List CatalogSlot) :
    Toml.elementSections ["repair", "catalog"]
        (catalog.map fun slot => .table (slotEntries slot)) =
      (catalog.map catalogSection).map Toml.sectionText := by
  induction catalog with
  | nil => rfl
  | cons slot catalog ih =>
    have hplain := plain_slotEntries slot
    rw [List.map_cons, Toml.elementSections, ih, Toml.elementSection_eq, hplain.ownEntries,
      hplain.sections]
    rfl

theorem sections_repairEntries {p : RepairPolicy} (h : p.identifier.minReferences < Nat.pow 2 63) :
    Toml.sections ["repair"] (repairEntries p) =
      Toml.sectionText (.header ["repair", "identifier"] ::
        entries (identifierEntries p.identifier)) ::
      (p.catalog.map catalogSection).map Toml.sectionText := by
  have hplain := plain_identifierEntries h
  have hidentifier : (Value.table (identifierEntries p.identifier)).sections
      ["repair", "identifier"] = [Toml.sectionText (.header ["repair", "identifier"] ::
        entries (identifierEntries p.identifier))] := by
    rw [Value.sections, hplain.sections, List.append_nil,
      hplain.tableSection (List.cons_ne_nil _ _)]
  have hcatalog : (catalogValue p).sections ["repair", "catalog"] =
      (p.catalog.map catalogSection).map Toml.sectionText := by
    have hseries := isSeries_catalogValue p
    rw [catalogValue] at hseries ⊢
    rw [Value.sections, hseries, elementSections_catalog]
    cases p.catalog <;> rfl
  change [] ++ ((Value.table (identifierEntries p.identifier)).sections ["repair", "identifier"] ++
    ((catalogValue p).sections ["repair", "catalog"] ++ [])) = _
  rw [hidentifier, hcatalog, List.nil_append, List.append_nil]
  rfl

theorem text_ofPolicy (h : Writable p) :
    Toml.text (ofPolicy p) = String.ofList (sectionsText (sections p)) := by
  simp only [Writable, counts, List.forall_mem_cons] at h
  obtain ⟨-, hidentifier, hindent, -⟩ := h
  have hvalidation := plain_validationEntries p.validation
  have hdedupe := plain_indentEntries hindent
  have hrepair : Toml.tableSection ["repair"] (repairEntries p.repair) =
      [Toml.sectionText (.header ["repair"] :: entries (repairValues p.repair))] := by
    rw [Toml.tableSection_eq, ownEntries_repairEntries]
    rw [ownEntries_repairEntries]
    exact List.cons_ne_nil _ _
  have hsections : Toml.sections [] (ofPolicy p) = (sections p).map Toml.sectionText := by
    change Toml.sections [] [("validation", .table (validationEntries p.validation)),
      ("repair", .table (repairEntries p.repair)), ("dedupe", .table (indentEntries _))] = _
    simp only [Toml.sections, Value.sections, List.nil_append]
    rw [hvalidation.tableSection (List.cons_ne_nil _ _), hvalidation.sections, hrepair,
      sections_repairEntries hidentifier, hdedupe.tableSection (List.cons_ne_nil _ _),
      hdedupe.sections, sections]
    simp [firstSections, indentSection]
  rw [Toml.text, sectionsText, ← hsections]
  rfl

theorem legibleSection {head : Statement} (hhead : head.Legible) {t : Table} (h : Plain t) :
    LegibleSection (head :: entries t) :=
  ⟨List.cons_ne_nil _ _, List.forall_mem_cons.2 ⟨hhead, h.legible⟩⟩

theorem legibleSection_sections (h : Writable p) :
    ∀ statements ∈ sections p, LegibleSection statements := by
  simp only [Writable, counts, List.forall_mem_cons] at h
  obtain ⟨hcatalog, hidentifier, hindent, -⟩ := h
  simp only [sections, firstSections, List.cons_append, List.nil_append, List.forall_mem_cons,
    List.forall_mem_append]
  refine ⟨legibleSection (.header (by decide)) (plain_validationEntries _),
    legibleSection (.header (by decide)) (plain_repairValues hcatalog),
    legibleSection (.header (by decide)) (plain_identifierEntries hidentifier), ?_,
    legibleSection (.header (by decide)) (plain_indentEntries hindent), nofun⟩
  intro statements hmem
  obtain ⟨slot, -, rfl⟩ := List.mem_map.1 hmem
  exact legibleSection (.element (by decide)) (plain_slotEntries slot)

/-! ## The outline -/

open Toml (Outline Node Children)

/-- The entries of a table as they come up in an outline. -/
def leaves (t : Table) : Children := t.map fun e => (e.1, .leaf e.2)

theorem valuesOf_leaves (t : Table) : Node.valuesOf (leaves t) = t := by
  induction t with
  | nil => rfl
  | cons e t ih => exact congrArg (e :: ·) ih

/-- The elements of a catalog so far. An array of tables comes up with its first element. -/
def catalogSoFar (elements : List (List (String × Node))) : Children :=
  if elements.isEmpty then [] else [("catalog", .series elements)]

/-- The outline of a policy in front of the last section, without values for a catalog. -/
def outlineRoot (validation least identifier : Node) (elements : List (List (String × Node))) :
    Children :=
  [("validation", validation), ("repair", .branch .written
    (("catalog_min_references", least) :: ("identifier", identifier) :: catalogSoFar elements))]

theorem take_element (validation least identifier : Node)
    (elements : List (List (String × Node))) (current : List String) (slot : CatalogSlot) :
    (catalogSection slot).foldlM Outline.take
        ⟨outlineRoot validation least identifier elements, current⟩ =
      some ⟨outlineRoot validation least identifier (elements ++ [leaves (slotEntries slot)]),
        ["repair", "catalog"]⟩ := by
  by_cases hempty : elements = []
  · rw [hempty]
    rfl
  · simp [catalogSection, entries, slotEntries, leaves, outlineRoot, catalogSoFar, hempty,
      Outline.take, Outline.underHeader, Children.within, Children.openElement, Children.setEntry,
      Children.setNew, Schema.Table.get?, Schema.Table.insert, Schema.Table.contains]

theorem take_catalog (validation least identifier : Node) (slots : List CatalogSlot)
    (elements : List (List (String × Node))) (current : List String) :
    ∃ current', (slots.map catalogSection).flatten.foldlM Outline.take
        ⟨outlineRoot validation least identifier elements, current⟩ =
      some ⟨outlineRoot validation least identifier
        (elements ++ slots.map fun slot => leaves (slotEntries slot)), current'⟩ := by
  induction slots generalizing elements current with
  | nil => exact ⟨current, by simp⟩
  | cons slot slots ih =>
    obtain ⟨current', h⟩ := ih (elements ++ [leaves (slotEntries slot)]) ["repair", "catalog"]
    refine ⟨current', ?_⟩
    rw [List.map_cons, List.flatten_cons, List.foldlM_append, take_element]
    simpa using h

theorem tablesOf_leaves (slots : List CatalogSlot) :
    Node.tablesOf (slots.map fun slot => leaves (slotEntries slot)) =
      slots.map fun slot => .table (slotEntries slot) := by
  induction slots with
  | nil => rfl
  | cons slot slots ih => rw [List.map_cons, Node.tablesOf, valuesOf_leaves, ih, List.map_cons]

theorem take_indentSection (validation least identifier : Node)
    (elements : List (List (String × Node))) (current : List String) (width : Nat) :
    (indentSection width).foldlM Outline.take
        ⟨outlineRoot validation least identifier elements, current⟩ =
      some ⟨outlineRoot validation least identifier elements ++
        [("dedupe", .branch .written (leaves (indentEntries width)))], ["dedupe"]⟩ :=
  rfl

theorem valuesOf_append (t u : Children) :
    Node.valuesOf (t ++ u) = Node.valuesOf t ++ Node.valuesOf u := by
  induction t with
  | nil => rfl
  | cons e t ih => exact congrArg (_ :: ·) ih

theorem valuesOf_outlineRoot (validation least identifier : Node) {slots : List CatalogSlot}
    (h : slots ≠ []) :
    Node.valuesOf (outlineRoot validation least identifier
        (slots.map fun slot => leaves (slotEntries slot))) =
      [("validation", validation.value), ("repair", .table
        [("catalog_min_references", least.value), ("identifier", identifier.value),
          ("catalog", .array (slots.map fun slot => .table (slotEntries slot)))])] := by
  simp [outlineRoot, catalogSoFar, h, Node.valuesOf, Node.value, tablesOf_leaves]

/-- The statements of a policy make up its settings. -/
theorem table_sections (p : Policy) :
    (Outline.ofStatements (sections p).flatten).map (·.table) = some (settings p) := by
  obtain ⟨validation, ⟨least, identifier, catalog⟩, width⟩ := p
  cases catalog with
  | nil => rfl
  | cons slot more =>
    have hfirst :
        (firstSections ⟨validation, ⟨least, identifier, slot :: more⟩, width⟩).flatten.foldlM
          Outline.take ⟨[], []⟩ =
        some ⟨outlineRoot (.branch .written (leaves (validationEntries validation)))
          (.leaf (count least)) (.branch .written (leaves (identifierEntries identifier))) [],
          ["repair", "identifier"]⟩ := rfl
    obtain ⟨current, hcatalog⟩ := take_catalog
      (.branch .written (leaves (validationEntries validation))) (.leaf (count least))
      (.branch .written (leaves (identifierEntries identifier))) (slot :: more) []
      ["repair", "identifier"]
    rw [sections, List.flatten_append, List.flatten_append, List.flatten_singleton,
      Outline.ofStatements, List.foldlM_append, List.foldlM_append, hfirst, Option.bind_eq_bind,
      Option.bind_some, hcatalog, Option.bind_some, take_indentSection, List.nil_append]
    change some (Node.valuesOf (_ ++ _)) = _
    rw [valuesOf_append, valuesOf_outlineRoot _ _ _ (List.cons_ne_nil slot more)]
    simp only [Node.valuesOf, Node.value, valuesOf_leaves]
    rfl

/-- **The settings of a policy read back.** -/
theorem read_text_ofPolicy (h : Writable p) :
    Toml.read (Toml.text (ofPolicy p)) = some (settings p) := by
  rw [text_ofPolicy h, Toml.read_sectionsText (legibleSection_sections h), table_sections]

theorem write?_ofPolicy (h : Writable p) :
    Toml.write? (ofPolicy p) = some (Toml.text (ofPolicy p)) := by
  simp only [Writable, counts, List.forall_mem_cons] at h
  obtain ⟨hleast, hidentifier, hindent, -⟩ := h
  have hcatalog : (catalogValue p.repair).isWritable = true := by
    refine Toml.allWritable_iff.2 fun v hv => ?_
    obtain ⟨slot, -, rfl⟩ := List.mem_map.1 hv
    exact (plain_slotEntries slot).isWritable
  have hrepair : (Value.table (repairEntries p.repair)).isWritable = true := by
    refine Toml.tableIsWritable_iff.2 ?_
    simp only [repairEntries, List.forall_mem_cons]
    exact ⟨(Toml.Scalar.count hleast).isWritable, (plain_identifierEntries hidentifier).isWritable,
      hcatalog, nofun⟩
  refine if_pos (Toml.tableIsWritable_iff.2 ?_)
  simp only [ofPolicy, List.forall_mem_cons]
  exact ⟨(plain_validationEntries _).isWritable, hrepair, (plain_indentEntries hindent).isWritable,
    nofun⟩

/-! ## What the settings hold -/

theorem solid_repairSettings (p : RepairPolicy) : Solid (.table (repairSettings p)) := by
  obtain ⟨least, identifier, catalog⟩ := p
  cases catalog <;>
    simp [repairSettings, repairValues, identifierEntries, slotEntries, catalogValue, count, Solid,
      AllSolid, Schema.Table.names]

theorem solid_settings (p : Policy) : Solid (.table (settings p)) := by
  have hnames : ["validation", "repair", "dedupe"].Nodup := by decide
  refine ⟨nofun, hnames, ?_, solid_repairSettings p.repair, ?_, trivial⟩ <;>
    simp [validationEntries, indentEntries, count, Solid, AllSolid, Schema.Table.names]

/-- All settings of repairs are read back, in another order when the catalog is empty. -/
theorem mem_repairSettings {p : RepairPolicy} {e : String × Value} (h : e ∈ repairEntries p) :
    e ∈ repairSettings p := by
  obtain ⟨least, identifier, catalog⟩ := p
  simp only [repairEntries, List.mem_cons, List.not_mem_nil, or_false] at h
  rcases h with rfl | rfl | rfl <;> cases catalog <;>
    simp [repairSettings, repairValues, catalogValue, identifierEntries]

theorem holds_settings (p : Policy) : Holds (.table (settings p)) (.table (ofPolicy p)) := by
  obtain ⟨-, -, hvalidation, hrepair, hindent, -⟩ := solid_settings p
  have hentries : HoldsAll (repairSettings p.repair) (repairEntries p.repair) :=
    holdsAll_iff.2 fun e he => ⟨e.2, Schema.Table.get?_of_mem hrepair.2.1 (mem_repairSettings he),
      Solid.holds _ (allSolid_iff.1 hrepair.2.2 e (mem_repairSettings he))⟩
  exact ⟨_, rfl, ⟨_, rfl, Solid.holds _ hvalidation⟩, ⟨_, rfl, _, rfl, hentries⟩,
    ⟨_, rfl, Solid.holds _ hindent⟩, trivial⟩

end SchemaTidy.Settings
