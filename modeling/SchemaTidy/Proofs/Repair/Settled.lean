import SchemaTidy.Proofs.Repair.Additive

/-! # Repairing twice

Main statement: `repair_settles`. A repaired document calls for no further slot
(`repairDocument_repairDocument`), and the outcomes of a repair that do not change the text come up
again. -/

namespace SchemaTidy.RepairPolicy
open Schema Document

variable {p : RepairPolicy} {d : Document} {text : String}

/-! ## Nothing left to add -/

/-- References come from the classes alone. -/
theorem references_congr {d' : Document} (h : d'.classes = d.classes) :
    d'.references = d.references := by
  rw [references, h, references]

theorem additions_eq_nil {taken : List String} {cs : List Candidate}
    (h : ∀ c ∈ cs, demand d c = none) : additions d taken cs = [] := by
  induction cs with
  | nil => rfl
  | cons c cs ih =>
    rw [additions, h c List.mem_cons_self]
    exact ih fun c' hc' => h c' (List.mem_cons_of_mem _ hc')

/-- A candidate that a repaired document calls for was called for before, and so it is there. -/
theorem demand_repairDocument {c : Candidate} (hc : c ∈ p.candidates) :
    demand (p.repairDocument d).1 c = none := by
  refine Option.eq_none_iff_forall_ne_some.2 fun classes hdemand => ?_
  obtain ⟨hrefs, hlen, hnew⟩ := demand_eq_some_iff.1 hdemand
  obtain ⟨chosen, hchosen, hadds⟩ := p.repairDocument_adds d
  rw [references_congr hadds.classes] at hrefs
  rw [hadds.slots, Table.names, List.map_append, List.mem_append, not_or] at hnew
  refine hnew.2 ?_
  have hbefore : demand d c = some classes := demand_eq_some_iff.2 ⟨hrefs, hlen, hnew.1⟩
  rw [← Table.names, names_map_entry, ← hchosen.log]
  exact declared_of_demand hbefore hc

theorem repairDocument_repairDocument (p : RepairPolicy) (d : Document) :
    p.repairDocument (p.repairDocument d).1 = ((p.repairDocument d).1, []) := by
  have hnil : additions (p.repairDocument d).1 [] p.candidates = [] :=
    additions_eq_nil fun c hc => demand_repairDocument hc
  rw [repairDocument, hnil]
  rfl

/-! ## Outcomes -/

theorem repair_of_error {e : SchemaError} (h : parse text = .error e) :
    p.repair text = ⟨text, [.skipped e]⟩ := by
  unfold repair
  rw [h]
  rfl

/-- What becomes of a text that is a document. -/
theorem repair_of_ok (h : parse text = .ok d) :
    p.repair text =
      match (p.repairDocument d).1.text, (p.repairDocument d).2 with
      | .error e, _ => ⟨text, [.skipped e]⟩
      | .ok _, [] => ⟨text, []⟩
      | .ok written, log => ⟨written, log.map .added⟩ := by
  unfold repair
  rw [h]
  dsimp only [bind, Except.bind]
  generalize p.repairDocument d = repaired
  obtain ⟨d', log⟩ := repaired
  dsimp only
  cases d'.text with
  | error e => rfl
  | ok written => cases log <;> rfl

/-- Where there is nothing to add, a repair leaves the text as it is. -/
theorem repair_of_log_eq_nil (h : parse text = .ok d) (hlog : (p.repairDocument d).2 = []) :
    (p.repair text).text = text ∧ (p.repair text).added = 0 := by
  rw [repair_of_ok h, hlog]
  cases (p.repairDocument d).1.text <;> exact ⟨rfl, rfl⟩

/-- What is written for the document of a text is read back as the mapping that was meant. -/
def Rereads (p : RepairPolicy) (text : String) : Prop :=
  ∀ d written, parse text = .ok d → (p.repairDocument d).2 ≠ [] →
    (p.repairDocument d).1.text = .ok written →
      Yaml.read written.toList = .ok (.mapping (p.repairDocument d).1.root)

/-- A text stays as it is and nothing is added, or the repaired document is written and can be read
again. -/
theorem Rereads.repair_cases (hreread : p.Rereads text) (h : parse text = .ok d) :
    ((p.repair text).text = text ∧ (p.repair text).added = 0) ∨
      ∃ written, p.repair text = ⟨written, (p.repairDocument d).2.map .added⟩ ∧
        parse written = .ok (p.repairDocument d).1 := by
  by_cases hlog : (p.repairDocument d).2 = []
  · exact .inl (repair_of_log_eq_nil h hlog)
  · rw [repair_of_ok h]
    cases hwritten : (p.repairDocument d).1.text with
    | error e => exact .inl ⟨rfl, rfl⟩
    | ok written =>
      refine .inr ⟨written, ?_, parse_eq_ok_iff.2 ⟨_, hreread d written h hlog hwritten,
        (p.faithful_repairDocument (faithful_of_parse h)).1.read⟩⟩
      cases hlog' : (p.repairDocument d).2 with
      | nil => exact absurd hlog' hlog
      | cons a log => rfl

/-- A repair that changes a text makes a document of it that calls for nothing. -/
theorem Rereads.settled_cases (hreread : p.Rereads text) :
    ((p.repair text).text = text ∧ (p.repair text).added = 0) ∨
      ∃ d, parse (p.repair text).text = .ok d ∧ (p.repairDocument d).2 = [] := by
  cases hparse : parse text with
  | error e =>
    rw [repair_of_error hparse]
    exact .inl ⟨rfl, rfl⟩
  | ok d =>
    refine (hreread.repair_cases hparse).imp_right ?_
    rintro ⟨written, hrepair, hagain⟩
    rw [hrepair]
    exact ⟨(p.repairDocument d).1, hagain, by rw [repairDocument_repairDocument]⟩

/-- **A repaired text is left as it is by another repair**, and no slot is added, if what was
written is read back as the mapping that was meant. -/
theorem repair_settles (p : RepairPolicy) (text : String)
    (hreread : ∀ d written, parse text = .ok d → (p.repairDocument d).2 ≠ [] →
      (p.repairDocument d).1.text = .ok written →
        Yaml.read written.toList = .ok (.mapping (p.repairDocument d).1.root)) :
    let once := (p.repair text).text
    (p.repair once).text = once ∧ (p.repair once).added = 0 := by
  intro once
  rcases Rereads.settled_cases hreread with ⟨honce, hadded⟩ | ⟨d, hparse, hlog⟩
  · rw [show once = text from honce]
    exact ⟨honce, hadded⟩
  · exact repair_of_log_eq_nil hparse hlog

/-- A text that lacks the slot of a class. -/
theorem repair_settles_one_slot :
    let p : RepairPolicy := ⟨2, ⟨⟨"id", "string", "Key"⟩, 1⟩, []⟩
    let text := "classes: {A: {slots: id}}\n"
    let once := "classes:\n  A:\n    slots: id\nslots:\n  id:\n    description: Key\n" ++
      "    range: string\n    identifier: true\n    required: true\n"
    (p.repair text).text = once ∧ (p.repair once).text = once ∧ (p.repair once).added = 0 := by
  intro p text once
  have hwrites : ((parse text).bind fun d => (p.repairDocument d).1.text) = .ok once := by
    decide +kernel
  have hreads : (Yaml.read once.toList).toOption =
      ((parse text).map fun d => Yaml.Value.mapping (p.repairDocument d).1.root).toOption := by
    decide +kernel
  have honce : (p.repair text).text = once := by decide +kernel
  have hsettles := p.repair_settles text ?_
  · rw [honce] at hsettles
    exact ⟨honce, hsettles⟩
  · intro d written hparse _ hwritten
    rw [hparse] at hwrites hreads
    obtain rfl : written = once := Except.ok.inj (hwritten.symm.trans hwrites)
    cases hread : Yaml.read once.toList with
    | error e => rw [hread] at hreads; cases hreads
    | ok v =>
      rw [hread] at hreads
      exact congrArg Except.ok (Option.some.inj hreads)

end SchemaTidy.RepairPolicy
