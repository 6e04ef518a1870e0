import SchemaTidy.Proofs.Repair.Settled
import SchemaTidy.Proofs.Yaml.Writable

/-! # Texts that need no repair

Main statement: `repair_of_none_missing`. Such a text stays as it is. The document is written all the
same, so that a repair which adds nothing can still fail and say so. -/

namespace SchemaTidy.RepairPolicy
open Schema Document

variable {p : RepairPolicy} {d : Document} {text : String}

/-- No candidate has as many classes as its threshold says, unless its slot is declared. -/
def NoneMissing (p : RepairPolicy) (d : Document) : Prop :=
  ∀ c ∈ p.candidates, c.name ∉ d.slots.names → (d.referrers c.name).length < max 1 c.threshold

instance (p : RepairPolicy) (d : Document) : Decidable (p.NoneMissing d) :=
  inferInstanceAs (Decidable (∀ c ∈ _, _))

theorem NoneMissing.repairDocument_eq (h : p.NoneMissing d) : p.repairDocument d = (d, []) := by
  have hnone : additions d [] p.candidates = [] := additions_eq_nil fun c hc => by
    rw [demand_eq]
    refine if_neg fun hcalls => ?_
    have hfew := h c hc hcalls.1
    exact absurd hcalls.2 (Nat.not_le.2 hfew)
  rw [repairDocument, hnone]
  rfl

/-- What is written when nothing was added is thrown away. -/
theorem NoneMissing.repair_eq (h : p.NoneMissing d) (hparse : parse text = .ok d) :
    p.repair text =
      match Yaml.write (.mapping d.root) with
      | .ok _ => ⟨text, []⟩
      | .error e => ⟨text, [.skipped (.unwritable e)]⟩ := by
  rw [repair_of_ok hparse, h.repairDocument_eq, Document.text]
  dsimp only
  cases Yaml.write (.mapping d.root) <;> rfl

/-- **A text that lacks no slot of the policy comes back as it is**, with nothing added. The log says
nothing just when the mapping of the document can be written; otherwise it has the error that came
up in writing as its only entry. -/
theorem repair_of_none_missing (hparse : parse text = .ok d) (h : p.NoneMissing d) :
    (p.repair text).text = text ∧ (p.repair text).added = 0 ∧
      ((p.repair text).log = [] ↔ (Yaml.Value.mapping d.root).Writable false) ∧
      ∀ e, Yaml.write (.mapping d.root) = .error e →
        (p.repair text).log = [.skipped (.unwritable e)] := by
  rw [h.repair_eq hparse]
  cases hwrite : Yaml.write (.mapping d.root) with
  | ok written =>
    have hwritable := (Yaml.write_eq_ok_iff.1 hwrite).1
    exact ⟨rfl, rfl, iff_of_true rfl hwritable, nofun⟩
  | error e =>
    have hnot : ¬ (Yaml.Value.mapping d.root).Writable false := fun hwritable => by
      have hwritten := Yaml.write_eq_ok_iff.2 ⟨hwritable, rfl⟩
      rw [hwrite] at hwritten
      cases hwritten
    refine ⟨rfl, rfl, iff_of_false (List.cons_ne_nil _ _) hnot, fun e' he' => ?_⟩
    obtain rfl := Except.error.inj he'
    rfl

/-- One class alone refers to a name of the catalog, and the other reference is declared. -/
theorem repair_of_none_missing_one_name :
    let text := "classes: {A: {slots: [id, name]}}\nslots: {id: {range: string}}\n"
    let p := Policy.standard.repair
    ∃ d, parse text = .ok d ∧ p.NoneMissing d ∧ (p.repair text).text = text ∧
      (p.repair text).added = 0 ∧ (p.repair text).log = [] := by
  intro text p
  have hread : ((parse text).map fun d =>
      (decide (p.NoneMissing d), (Yaml.write (.mapping d.root)).isOk)) = .ok (true, true) := by
    decide +kernel
  obtain ⟨d, hparse, hread⟩ := map_eq_ok.1 hread
  obtain ⟨hnone, hwrites⟩ := Prod.mk.inj hread
  have hnone := of_decide_eq_true hnone
  obtain ⟨htext, hadded, hlog, -⟩ := repair_of_none_missing hparse hnone
  refine ⟨d, hparse, hnone, htext, hadded, hlog.2 ?_⟩
  cases hwrite : Yaml.write (.mapping d.root) with
  | ok written => exact (Yaml.write_eq_ok_iff.1 hwrite).1
  | error e =>
    rw [hwrite] at hwrites
    cases hwrites

/-- The only key of the notes has a tag, so that the document cannot be written. -/
def taggedNote : String :=
  "classes:\n  A:\n    slots: [id]\nslots:\n  id:\n    range: string\nnotes:\n  !old a: b\n"

/-- Nothing is missing here, and the log has an entry all the same. -/
theorem repair_logs_failed_write :
    let p := Policy.standard.repair
    ∃ d, parse taggedNote = .ok d ∧ p.NoneMissing d ∧
      (p.repair taggedNote).log = [.skipped (.unwritable .nodeExpected)] := by
  intro p
  have hread : ((parse taggedNote).map fun d =>
      decide (p.NoneMissing d ∧ Yaml.write (.mapping d.root) = .error .nodeExpected)) =
        .ok true := by
    decide +kernel
  obtain ⟨d, hparse, hread⟩ := map_eq_ok.1 hread
  obtain ⟨hnone, hwrite⟩ := of_decide_eq_true hread
  refine ⟨d, hparse, hnone, ?_⟩
  rw [hnone.repair_eq hparse, hwrite]

end SchemaTidy.RepairPolicy
