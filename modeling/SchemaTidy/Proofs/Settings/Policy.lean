import SchemaTidy.Settings.Policy
import SchemaTidy.Proofs.Settings.Layer

/-! # Settings that hold a policy

Main statement: `policy?_of_holds`. Settings that are as those of a policy describe this policy,
whatever else is set: every default is overridden, and other keys do not count. -/

namespace SchemaTidy.Settings
open Toml (Value Table)

variable {v : Value}

/-! ## Sections and their settings -/

section Sections

variable {t : Table}

theorem validation?_table {p : ValidationPolicy} : validation? (.table t) = some p ↔
    setting t "builtin_types" (list? text?) Policy.standard.validation.builtinTypes =
        some p.builtinTypes ∧
      setting t "enum_suffix" text? Policy.standard.validation.enumSuffix = some p.enumSuffix ∧
      setting t "suggest_similar" truth? Policy.standard.validation.suggestSimilar =
        some p.suggestSimilar := by
  simp only [validation?, section?, Option.bind_eq_bind, Option.bind_some, Option.pure_def,
    Option.bind_eq_some_iff]
  constructor
  · rintro ⟨_, htypes, _, hsuffix, _, hhints, heq⟩
    obtain rfl := Option.some.inj heq
    exact ⟨htypes, hsuffix, hhints⟩
  · rintro ⟨htypes, hsuffix, hhints⟩
    exact ⟨_, htypes, _, hsuffix, _, hhints, rfl⟩

theorem identifier?_table {i : IdentifierSlot} : identifier? (.table t) = some i ↔
    setting t "name" text? Policy.standard.repair.identifier.name = some i.name ∧
      setting t "range" text? Policy.standard.repair.identifier.range = some i.range ∧
      setting t "description" text? Policy.standard.repair.identifier.description =
        some i.description ∧
      setting t "min_references" count? Policy.standard.repair.identifier.minReferences =
        some i.minReferences := by
  simp only [identifier?, section?, Option.bind_eq_bind, Option.bind_some, Option.pure_def,
    Option.bind_eq_some_iff]
  constructor
  · rintro ⟨_, hname, _, hrange, _, hdescription, _, hleast, heq⟩
    obtain rfl := Option.some.inj heq
    exact ⟨hname, hrange, hdescription, hleast⟩
  · rintro ⟨hname, hrange, hdescription, hleast⟩
    exact ⟨_, hname, _, hrange, _, hdescription, _, hleast, rfl⟩

theorem repair?_table {p : RepairPolicy} : repair? (.table t) = some p ↔
    setting t "catalog_min_references" count? Policy.standard.repair.catalogMinReferences =
        some p.catalogMinReferences ∧
      setting t "identifier" identifier? Policy.standard.repair.identifier = some p.identifier ∧
      setting t "catalog" (list? catalogSlot?) Policy.standard.repair.catalog = some p.catalog := by
  simp only [repair?, section?, Option.bind_eq_bind, Option.bind_some, Option.pure_def,
    Option.bind_eq_some_iff]
  constructor
  · rintro ⟨_, hleast, _, hidentifier, _, hcatalog, heq⟩
    obtain rfl := Option.some.inj heq
    exact ⟨hleast, hidentifier, hcatalog⟩
  · rintro ⟨hleast, hidentifier, hcatalog⟩
    exact ⟨_, hleast, _, hidentifier, _, hcatalog, rfl⟩

theorem policy?_table {p : Policy} : policy? (.table t) = some p ↔
    setting t "validation" validation? Policy.standard.validation = some p.validation ∧
      setting t "repair" repair? Policy.standard.repair = some p.repair ∧
      setting t "dedupe" indentWidth? Policy.standard.indentWidth = some p.indentWidth := by
  simp only [policy?, section?, Option.bind_eq_bind, Option.bind_some, Option.pure_def,
    Option.bind_eq_some_iff]
  constructor
  · rintro ⟨_, hvalidation, _, hrepair, _, hindent, heq⟩
    obtain rfl := Option.some.inj heq
    exact ⟨hvalidation, hrepair, hindent⟩
  · rintro ⟨hvalidation, hrepair, hindent⟩
    exact ⟨_, hvalidation, _, hrepair, _, hindent, rfl⟩

end Sections

/-! ## Settings that are there -/

/-- A setting that is as an entry has it is not the default. -/
theorem setting_of_holds {α : Type} {t entries : Table} {read : Value → Option α} {a : α}
    (ht : ∀ e ∈ entries, ∃ w, t.get? e.1 = some w ∧ Holds w e.2) {name : String} {value : Value}
    (hmem : (name, value) ∈ entries) (hread : ∀ w, Holds w value → read w = some a) (default : α) :
    setting t name read default = some a := by
  obtain ⟨w, hget, hw⟩ := ht _ hmem
  dsimp only at hget
  rw [setting, hget]
  exact hread w hw

theorem text?_of_holds {s : String} (h : Holds v (.string s)) : text? v = some s := by
  cases h
  rfl

theorem truth?_of_holds {b : Bool} (h : Holds v (.bool b)) : truth? v = some b := by
  cases h
  rfl

theorem count?_of_holds {n : Nat} (h : Holds v (count n)) : count? v = some n := by
  cases h
  rfl

/-- A list is read item by item. -/
theorem list?_of_holds {α : Type} {read : Value → Option α} {value : α → Value}
    (hread : ∀ a, read (value a) = some a) {as : List α} (h : Holds v (.array (as.map value))) :
    list? read v = some as := by
  cases h
  rw [list?]
  induction as with
  | nil => rfl
  | cons a as ih => rw [List.map_cons, List.mapM_cons, hread, ih]; rfl

theorem validation?_of_holds {p : ValidationPolicy} (h : Holds v (.table (validationEntries p))) :
    validation? v = some p := by
  obtain ⟨t, rfl, ht⟩ := h.of_table
  exact validation?_table.2
    ⟨setting_of_holds ht (.head _) (fun _ => list?_of_holds (by intro; rfl)) _,
      setting_of_holds ht (.tail _ (.head _)) (fun _ => text?_of_holds) _,
      setting_of_holds ht (.tail _ (.tail _ (.head _))) (fun _ => truth?_of_holds) _⟩

theorem identifier?_of_holds {i : IdentifierSlot}
    (h : Holds v (.table (slotEntries i.toCatalogSlot ++
      [("min_references", count i.minReferences)]))) : identifier? v = some i := by
  obtain ⟨t, rfl, ht⟩ := h.of_table
  exact identifier?_table.2
    ⟨setting_of_holds ht (.head _) (fun _ => text?_of_holds) _,
      setting_of_holds ht (.tail _ (.head _)) (fun _ => text?_of_holds) _,
      setting_of_holds ht (.tail _ (.tail _ (.head _))) (fun _ => text?_of_holds) _,
      setting_of_holds ht (.tail _ (.tail _ (.tail _ (.head _)))) (fun _ => count?_of_holds) _⟩

theorem repair?_of_holds {p : RepairPolicy} (h : Holds v (.table (repairEntries p))) :
    repair? v = some p := by
  obtain ⟨t, rfl, ht⟩ := h.of_table
  exact repair?_table.2
    ⟨setting_of_holds ht (.head _) (fun _ => count?_of_holds) _,
      setting_of_holds ht (.tail _ (.head _)) (fun _ => identifier?_of_holds) _,
      setting_of_holds ht (.tail _ (.tail _ (.head _)))
        (fun _ => list?_of_holds (by intro; rfl)) _⟩

theorem indentWidth?_of_holds {n : Nat} (h : Holds v (.table [("indent_width", count n)])) :
    indentWidth? v = some n := by
  obtain ⟨t, rfl, ht⟩ := h.of_table
  exact setting_of_holds ht (.head _) (fun _ => count?_of_holds) _

theorem policy?_of_holds {p : Policy} (h : Holds v (.table (ofPolicy p))) : policy? v = some p := by
  obtain ⟨t, rfl, ht⟩ := h.of_table
  exact policy?_table.2
    ⟨setting_of_holds ht (.head _) (fun _ => validation?_of_holds) _,
      setting_of_holds ht (.tail _ (.head _)) (fun _ => repair?_of_holds) _,
      setting_of_holds ht (.tail _ (.tail _ (.head _))) (fun _ => indentWidth?_of_holds) _⟩

end SchemaTidy.Settings
