import SchemaTidy.Proofs.Settings.OnePath
import SchemaTidy.Proofs.Settings.Policy

/-! # Settings that are texts

Main statement: `policy?_of_setAt`. Settings that describe a policy describe one too when a text is
put in at the path of such a setting, and there the policy has the text as it is read. -/

namespace SchemaTidy.Settings
open Toml (Value Table)

/-- A setting whose values are texts. -/
inductive TextSetting where
  | enumSuffix
  | identifierName
  | identifierRange
  | identifierDescription
deriving DecidableEq, Repr

namespace TextSetting

def path : TextSetting → List String
  | .enumSuffix => ["validation", "enum_suffix"]
  | .identifierName => ["repair", "identifier", "name"]
  | .identifierRange => ["repair", "identifier", "range"]
  | .identifierDescription => ["repair", "identifier", "description"]

/-- What a policy has for a setting. -/
def of : TextSetting → Policy → String
  | .enumSuffix, p => p.validation.enumSuffix
  | .identifierName, p => p.repair.identifier.name
  | .identifierRange, p => p.repair.identifier.range
  | .identifierDescription, p => p.repair.identifier.description

end TextSetting

variable {v b c : Value} {lower : Option Value} {path : List String} {field key name text : String} {t u : Table}
variable {α : Type} {read : Value → Option α} {d x : α}

/-! ## One setting of a section -/

/-- Settings that are no table are read as defaults once one of them is put in. -/
theorem exists_read_entriesOf (hempty : ∃ x, read (.table []) = some x)
    (h : ∀ w ∈ lower, ∃ x, read w = some x) : ∃ x, read (.table (entriesOf lower)) = some x := by
  cases lower with
  | none => exact hempty
  | some w =>
    cases w with
    | table entries => exact h _ rfl
    | _ => exact hempty

theorem exists_read_of_setting (h : setting t name read d = some x) :
    ∀ w ∈ t.get? name, ∃ x, read w = some x := by
  intro w hw
  rw [setting, hw] at h
  exact ⟨x, h⟩

/-- Of the settings of a section only the one under the key is read anew. -/
theorem exists_setting {P : α → Prop} (hothers : ∀ name ≠ key, t.get? name = u.get? name)
    (hc : t.get? key = some c) (hx : setting u name read d = some x)
    (hread : name = key → ∃ y, read c = some y ∧ P y) :
    ∃ y, setting t name read d = some y ∧ (name = key → P y) := by
  by_cases hname : name = key
  · obtain ⟨y, hy, hP⟩ := hread hname
    exact ⟨y, by rw [setting, hname, hc]; exact hy, fun _ => hP⟩
  · refine ⟨x, ?_, fun heq => absurd heq hname⟩
    rw [setting, hothers name hname]
    exact hx

/-! ## Sections -/

theorem validation?_of_setAt (h : SetAt v ["enum_suffix"] lower b)
    (hlower : ∀ w ∈ lower, ∃ p, validation? w = some p) (htext : text? v = some text) :
    ∃ p, validation? b = some p ∧ p.enumSuffix = text := by
  obtain ⟨t, rfl, hothers, c, hc, rfl⟩ := h
  obtain ⟨p, hp⟩ : ∃ p, validation? (.table (entriesOf lower)) = some p :=
    exists_read_entriesOf ⟨_, rfl⟩ hlower
  obtain ⟨htypes, -, hhints⟩ := validation?_table.1 hp
  rw [setting, ← hothers _ (by decide)] at htypes hhints
  refine ⟨{ p with enumSuffix := text }, validation?_table.2 ⟨htypes, ?_, hhints⟩, rfl⟩
  rw [setting, hc]
  exact htext

/-- The path leads to one of the texts. -/
theorem identifier?_of_setAt (h : SetAt v [field] lower b) (hfield : field ≠ "min_references")
    (hlower : ∀ w ∈ lower, ∃ i, identifier? w = some i) (htext : text? v = some text) :
    ∃ i, identifier? b = some i ∧ ("name" = field → i.name = text) ∧
      ("range" = field → i.range = text) ∧ ("description" = field → i.description = text) := by
  obtain ⟨t, rfl, hothers, c, hc, rfl⟩ := h
  obtain ⟨i, hi⟩ : ∃ i, identifier? (.table (entriesOf lower)) = some i :=
    exists_read_entriesOf ⟨_, rfl⟩ hlower
  obtain ⟨hname, hrange, hdescription, hleast⟩ := identifier?_table.1 hi
  have hread : ∃ y, text? c = some y ∧ y = text := ⟨text, htext, rfl⟩
  obtain ⟨name', hname', hname⟩ := exists_setting hothers hc hname fun _ => hread
  obtain ⟨range', hrange', hrange⟩ := exists_setting hothers hc hrange fun _ => hread
  obtain ⟨description', hdescription', hdescription⟩ :=
    exists_setting hothers hc hdescription fun _ => hread
  rw [setting, ← hothers _ hfield.symm] at hleast
  exact ⟨⟨⟨name', range', description'⟩, i.minReferences⟩,
    identifier?_table.2 ⟨hname', hrange', hdescription', hleast⟩, hname, hrange, hdescription⟩

theorem repair?_of_setAt {P : IdentifierSlot → Prop} (h : SetAt v ("identifier" :: path) lower b)
    (hlower : ∀ w ∈ lower, ∃ p, repair? w = some p)
    (hread : ∀ below c, SetAt v path below c → (∀ w ∈ below, ∃ i, identifier? w = some i) →
      ∃ i, identifier? c = some i ∧ P i) : ∃ p, repair? b = some p ∧ P p.identifier := by
  obtain ⟨t, rfl, hothers, c, hc, hset⟩ := h
  obtain ⟨p, hp⟩ : ∃ p, repair? (.table (entriesOf lower)) = some p :=
    exists_read_entriesOf ⟨_, rfl⟩ hlower
  obtain ⟨hleast, hidentifier, hcatalog⟩ := repair?_table.1 hp
  obtain ⟨i, hi, hP⟩ := hread _ c hset (exists_read_of_setting hidentifier)
  rw [setting, ← hothers _ (by decide)] at hleast hcatalog
  refine ⟨{ p with identifier := i }, repair?_table.2 ⟨hleast, ?_, hcatalog⟩, hP⟩
  rw [setting, hc]
  exact hi

theorem policy?_of_validation {P : ValidationPolicy → Prop}
    (h : SetAt v ("validation" :: path) lower b) (hlower : ∀ w ∈ lower, ∃ p, policy? w = some p)
    (hread : ∀ below c, SetAt v path below c → (∀ w ∈ below, ∃ p, validation? w = some p) →
      ∃ p, validation? c = some p ∧ P p) : ∃ p, policy? b = some p ∧ P p.validation := by
  obtain ⟨t, rfl, hothers, c, hc, hset⟩ := h
  obtain ⟨p, hp⟩ : ∃ p, policy? (.table (entriesOf lower)) = some p :=
    exists_read_entriesOf ⟨_, rfl⟩ hlower
  obtain ⟨hvalidation, hrepair, hindent⟩ := policy?_table.1 hp
  obtain ⟨validation, hread', hP⟩ := hread _ c hset (exists_read_of_setting hvalidation)
  rw [setting, ← hothers _ (by decide)] at hrepair hindent
  refine ⟨{ p with validation }, policy?_table.2 ⟨?_, hrepair, hindent⟩, hP⟩
  rw [setting, hc]
  exact hread'

theorem policy?_of_repair {P : RepairPolicy → Prop}
    (h : SetAt v ("repair" :: path) lower b) (hlower : ∀ w ∈ lower, ∃ p, policy? w = some p)
    (hread : ∀ below c, SetAt v path below c → (∀ w ∈ below, ∃ p, repair? w = some p) →
      ∃ p, repair? c = some p ∧ P p) : ∃ p, policy? b = some p ∧ P p.repair := by
  obtain ⟨t, rfl, hothers, c, hc, hset⟩ := h
  obtain ⟨p, hp⟩ : ∃ p, policy? (.table (entriesOf lower)) = some p :=
    exists_read_entriesOf ⟨_, rfl⟩ hlower
  obtain ⟨hvalidation, hrepair, hindent⟩ := policy?_table.1 hp
  obtain ⟨repair, hread', hP⟩ := hread _ c hset (exists_read_of_setting hrepair)
  rw [setting, ← hothers _ (by decide)] at hvalidation hindent
  refine ⟨{ p with repair }, policy?_table.2 ⟨hvalidation, ?_, hindent⟩, hP⟩
  rw [setting, hc]
  exact hread'

theorem policy?_of_identifier {P : IdentifierSlot → Prop}
    (h : SetAt v ["repair", "identifier", field] lower b) (hfield : field ≠ "min_references")
    (hlower : ∀ w ∈ lower, ∃ p, policy? w = some p) (htext : text? v = some text)
    (hP : ∀ i : IdentifierSlot, ("name" = field → i.name = text) ∧
      ("range" = field → i.range = text) ∧ ("description" = field → i.description = text) → P i) :
    ∃ p, policy? b = some p ∧ P p.repair.identifier :=
  policy?_of_repair (P := fun p => P p.identifier) h hlower fun _ _ hrepair hbelow =>
    repair?_of_setAt hrepair hbelow fun _ _ hidentifier hbelow => by
      obtain ⟨i, hi, htexts⟩ := identifier?_of_setAt hidentifier hfield hbelow htext
      exact ⟨i, hi, hP i htexts⟩

/-- **A text that is put in is read as its setting**, and the other settings fit as before. -/
theorem policy?_of_setAt {s : TextSetting} (h : SetAt v s.path lower b)
    (hlower : ∀ w ∈ lower, ∃ p, policy? w = some p) (htext : text? v = some text) :
    ∃ p, policy? b = some p ∧ s.of p = text := by
  cases s with
  | enumSuffix =>
    exact policy?_of_validation (P := fun p => p.enumSuffix = text) h hlower
      fun _ _ hset hbelow => validation?_of_setAt hset hbelow htext
  | identifierName =>
    exact policy?_of_identifier (P := fun i => i.name = text) h (by decide) hlower htext
      fun _ htexts => htexts.1 rfl
  | identifierRange =>
    exact policy?_of_identifier (P := fun i => i.range = text) h (by decide) hlower htext
      fun _ htexts => htexts.2.1 rfl
  | identifierDescription =>
    exact policy?_of_identifier (P := fun i => i.description = text) h (by decide) hlower htext
      fun _ htexts => htexts.2.2 rfl

end SchemaTidy.Settings
