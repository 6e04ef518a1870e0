import SchemaTidy.Proofs.Repair.Additions

/-! # Repairs only add

Main statement: `repairDocument_additive`. What a document has stays as it is and where it is, and
the tables of the repaired document are those of its mapping. -/

namespace SchemaTidy.RepairPolicy
open Schema Document

variable {p : RepairPolicy} {d : Document}

/-- The second document is the first one with the slots of some candidates after its own. -/
structure Adds (chosen : List Candidate) (d d' : Document) : Prop where
  classes : d'.classes = d.classes
  enums : d'.enums = d.enums
  slots : d'.slots = d.slots ++ chosen.map entry

/-- The slots of the chosen candidates come after those that are there. -/
theorem repairDocument_adds (p : RepairPolicy) (d : Document) :
    ∃ chosen : List Candidate, p.Chosen d chosen ∧ Adds chosen d (p.repairDocument d).1 := by
  obtain ⟨chosen, hchosen, heq, hnodup, hnew⟩ := p.repairDocument_spec d
  rw [heq]
  exact ⟨chosen, hchosen, addSlots_classes .., addSlots_enums .., addSlots_slots hnew hnodup⟩

/-- A repaired document has the tables of its mapping, if the document did. -/
theorem faithful_repairDocument (p : RepairPolicy) (h : d.Faithful) :
    (p.repairDocument d).1.Faithful ∧
      ∃ chosen : List Candidate, p.Chosen d chosen ∧
        Extends d.root (p.repairDocument d).1.root
          (chosen.map fun c => (.string c.name, c.slot.toValue)) := by
  obtain ⟨chosen, hchosen, heq, hnodup, hnew⟩ := p.repairDocument_spec d
  have hread : ∀ x ∈ chosen.map entry, SlotDef.ofValue x.2.toValue = x.2 := by
    intro x hx
    obtain ⟨c, hc, rfl⟩ := List.mem_map.1 hx
    exact ofValue_toValue_of_candidate (hchosen.sublist.subset hc)
  obtain ⟨hfaithful, hextends⟩ := h.addSlots hnew hnodup hread
  rw [List.map_map] at hextends
  rw [heq]
  exact ⟨hfaithful, chosen, hchosen, hextends⟩

/-- **A repair of a document that was read only adds slots.** The entries of its mapping stay, in
their order, and so do those of the slots section, which the added ones follow in the order of the
log, each with the body of its template. Classes and enums stay, and reading the new mapping gives
the new tables. -/
theorem repairDocument_additive (p : RepairPolicy) {text : String} (h : parse text = .ok d) :
    let d' := (p.repairDocument d).1
    d'.root.without "slots" = d.root.without "slots" ∧
    (∃ (old : Yaml.Entries) (chosen : List Candidate), sectionEntries d.root "slots" = .ok old ∧
      p.Chosen d chosen ∧ sectionEntries d'.root "slots" =
        .ok (old ++ chosen.map fun c => (.string c.name, c.slot.toValue))) ∧
    d'.classes = d.classes ∧ d'.enums = d.enums ∧ ofRoot d'.root = .ok d' := by
  intro d'
  have hfaithful := faithful_of_parse h
  obtain ⟨hfaithful', chosen, hchosen, hextends⟩ := p.faithful_repairDocument hfaithful
  obtain ⟨old, hold, -⟩ := readSection_eq_ok (ofRoot_eq_ok_iff.1 hfaithful.read).2.2.1
  obtain ⟨_, -, hadds⟩ := p.repairDocument_adds d
  exact ⟨hextends.others, ⟨old, chosen, hold, hchosen, hextends.slots old hold⟩,
    hadds.classes, hadds.enums, hfaithful'.read⟩

/-- A document whose slots section names a slot by a number, and lacks another one. -/
theorem repairDocument_additive_number_key :
    let text := "classes: {A: {slots: [id, 7]}}\nslots: {7: {range: float}}\nenums:\n"
    let p := Policy.standard.repair
    ∃ d, parse text = .ok d ∧ (p.repairDocument d).2.map (·.slot) = ["id"] ∧
      ofRoot (p.repairDocument d).1.root = .ok (p.repairDocument d).1 := by
  intro text p
  have hread : ((parse text).map fun d => (p.repairDocument d).2.map (·.slot)) =
      .ok ["id"] := by decide +kernel
  cases hparse : parse text with
  | error e => rw [hparse] at hread; cases hread
  | ok d =>
    rw [hparse] at hread
    exact ⟨d, rfl, Except.ok.inj hread, (p.repairDocument_additive hparse).2.2.2.2⟩

end SchemaTidy.RepairPolicy
