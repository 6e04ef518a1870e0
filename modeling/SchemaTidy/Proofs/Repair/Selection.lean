import SchemaTidy.Proofs.Repair.Additions

/-! # Which slots a repair adds

Main statement: `repairDocument_picks`. The candidates are gone through in their order, and each is
added or passed by for reasons that the document and the candidates before it give. -/

namespace SchemaTidy.RepairPolicy
open Schema

/-- The slots of the picked candidates come after those that are there. -/
theorem repairDocument_slots_picked (p : RepairPolicy) (d : Document) :
    ∃ picked, Picked d [] 0 p.candidates picked ∧
      (p.repairDocument d).1.slots = d.slots ++ picked.map (fun x => (x.1.name, x.1.slot)) ∧
      (p.repairDocument d).2 = picked.map fun x => ⟨x.1.name, d.referrers x.1.name⟩ := by
  obtain ⟨picked, hpicked, hdoc, hlog⟩ := p.repairDocument_picked d
  have hnames : Table.names (picked.map fun x => entry x.1) = picked.map fun x => x.1.name := by
    rw [Table.names, List.map_map]
    rfl
  refine ⟨picked, hpicked, ?_, hlog⟩
  rw [hdoc]
  exact Document.addSlots_slots (hnames ▸ hpicked.new_names) (hnames ▸ hpicked.nodup_names)

/-- **Which slots a repair adds.** The candidates are the slot that identifies, which is required,
and then those of the catalog, which are not. Of them, in this order, those are picked whose slot is
not declared, which as many different classes refer to as the threshold says, at least one, and
whose name no picked one before has. Each is added with the slot of its own template and logged, in
the same order, with the classes that refer to it, each once and in the order of the classes. -/
theorem repairDocument_picks (p : RepairPolicy) (d : Document) :
    (p.candidates =
      ⟨p.identifier.name, p.identifier.minReferences,
        { description := some p.identifier.description, range := some p.identifier.range
          identifier := some true, required := some true, extra := [] }⟩ ::
      p.catalog.map fun s =>
        ⟨s.name, p.catalogMinReferences,
          { description := some s.description, range := some s.range
            identifier := none, required := some false, extra := [] }⟩) ∧
    (∃ picked : List (Candidate × Nat), picked.Sublist p.candidates.zipIdx ∧
      (∀ x ∈ p.candidates.zipIdx, x ∈ picked ↔
        x.1.name ∉ d.slots.names ∧ max 1 x.1.threshold ≤ (d.referrers x.1.name).length ∧
          ∀ y ∈ picked, y.2 < x.2 → y.1.name ≠ x.1.name) ∧
      (p.repairDocument d).1.slots = d.slots ++ picked.map (fun x => (x.1.name, x.1.slot)) ∧
      (p.repairDocument d).2 = picked.map fun x => ⟨x.1.name, d.referrers x.1.name⟩) ∧
    ∀ slot, (d.referrers slot).Nodup ∧ (d.referrers slot).Sublist d.classes.names ∧
      ∀ className, className ∈ d.referrers slot ↔
        ∃ c, (className, c) ∈ d.classes ∧ slot ∈ c.slots := by
  refine ⟨rfl, ?_, fun slot => ⟨d.nodup_referrers slot, d.referrers_sublist slot, fun _ =>
    Document.mem_referrers⟩⟩
  obtain ⟨picked, hpicked, hslots, hlog⟩ := p.repairDocument_slots_picked d
  refine ⟨picked, hpicked.sublist, fun x hx => ?_, hslots, hlog⟩
  rw [hpicked.mem_iff x hx, Calls, and_assoc, and_iff_right List.not_mem_nil]

/-- One class is too few for the slot that identifies, and enough for the first entry of the catalog
with its name. -/
example :
    let p : RepairPolicy := ⟨0, ⟨⟨"id", "string", "Key"⟩, 2⟩,
      [⟨"id", "integer", "Number"⟩, ⟨"id", "float", "Measure"⟩, ⟨"name", "string", "Name"⟩]⟩
    let d : Document := ⟨[], [("A", ⟨["id", "id"], []⟩)], [], []⟩
    (p.repairDocument d).2 = [⟨"id", ["A"]⟩] ∧
      (p.repairDocument d).1.slots = [("id", CatalogSlot.template ⟨"id", "integer", "Number"⟩)] := by
  decide +kernel

end SchemaTidy.RepairPolicy
