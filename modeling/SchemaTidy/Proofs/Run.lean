import SchemaTidy.Engine
import SchemaTidy.Proofs.Dedupe.Unchanged
import SchemaTidy.Proofs.Findings.Places
import SchemaTidy.Proofs.Repair.Unneeded

/-! # Whole runs

A run resolves, reports, validates, repairs what is not valid, and validates again. Main statements:
`process_findings` says what is found in the end, and `isValid_process_iff` when that is nothing;
`process_settles` is about another run on what came out of a run.

A document in which nothing is found calls for no slot, so that the text of a run is that of a
repair even where the run left it out (`process_repairs`). -/

namespace SchemaTidy
open Schema Document

/-- The slots that a run added, in their order. -/
def Processed.added (run : Processed) : List String := run.repairs.filterMap (·.slot)

namespace RepairPolicy

variable {p : RepairPolicy} {v : ValidationPolicy} {d : Document} {text : String}

/-- Where nothing is found, nothing is missing. -/
theorem noneMissing_of_validate_eq_nil (h : v.validate d = []) : p.NoneMissing d := by
  intro c _ hnew
  have hnil : d.referrers c.name = [] := List.eq_nil_iff_forall_not_mem.2 fun className hmem => by
    obtain ⟨cls, hclass, hslot⟩ := Document.mem_referrers.1 hmem
    exact hnew (ValidationPolicy.declared_of_validate_eq_nil h hclass hslot)
  rw [hnil, List.length_nil]
  omega

theorem Outcome.slots_eq_nil {o : Outcome} (h : o.added = 0) : o.log.filterMap (·.slot) = [] := by
  rw [Outcome.added, List.length_eq_zero_iff, List.filter_eq_nil_iff] at h
  refine List.filterMap_eq_nil_iff.2 fun entry hentry => ?_
  rw [← Option.not_isSome_iff_eq_none]
  exact h entry hentry

theorem slots_map_added (log : List Addition) :
    (log.map LogEntry.added).filterMap (·.slot) = log.map (·.slot) := by
  rw [List.filterMap_map, ← List.filterMap_eq_map]
  rfl

/-- A repair adds the first candidates of their names that are called for, or none, and the
document of the repaired text has them. -/
theorem Rereads.exists_adds (hreread : p.Rereads text) (h : parse text = .ok d) :
    ∃ chosen d', parse (p.repair text).text = .ok d' ∧ Adds chosen d d' ∧
      (p.repair text).log.filterMap (·.slot) = chosen.map (·.name) ∧
      chosen.Sublist p.candidates ∧
      ∀ c ∈ chosen, p.candidates.find? (called d c.name) = some c := by
  rcases hreread.repair_cases h with ⟨htext, hadded⟩ | ⟨written, hrepair, hparse⟩
  · rw [htext, Outcome.slots_eq_nil hadded]
    exact ⟨[], d, h, ⟨rfl, rfl, (List.append_nil _).symm⟩, rfl, List.nil_sublist _, nofun⟩
  · obtain ⟨chosen, hchosen, hadds⟩ := p.repairDocument_adds d
    rw [hrepair]
    exact ⟨chosen, _, hparse, hadds, (slots_map_added _).trans hchosen.log, hchosen.sublist,
      hchosen.first⟩

end RepairPolicy

namespace ValidationPolicy

variable {v : ValidationPolicy} {d : Document} {text : String}

theorem validateText_of_ok (h : parse text = .ok d) : v.validateText text = v.validate d := by
  rw [validateText, h]

theorem validateText_eq_nil_iff :
    v.validateText text = [] ↔ ∃ d, parse text = .ok d ∧ v.validate d = [] := by
  rw [validateText]
  cases parse text with
  | error e => exact iff_of_false (List.cons_ne_nil _ _) nofun
  | ok d => exact ⟨fun h => ⟨d, rfl, h⟩, fun ⟨_, heq, h⟩ => Except.ok.inj heq ▸ h⟩

/-- What is found in a document is a missing slot or a missing enum. -/
theorem settled_iff {subject : Subject} {added : List String}
    (h : subject ∈ (v.validate d).map (·.subject)) :
    (subject.missingSlot?.any (· ∉ added) = false ∧ subject.missingEnum?.isSome = false) ↔
      ∃ slot ∈ added, subject.missingSlot? = some slot := by
  obtain ⟨place, hamiss⟩ := exists_amiss h
  cases hamiss with
  | item => simp [Subject.missingSlot?, Subject.missingEnum?]
  | range => simp [Subject.missingSlot?, Subject.missingEnum?]

end ValidationPolicy

namespace Policy
open RepairPolicy ValidationPolicy

variable {p : Policy} {d : Document} {text : String}

/-! ## The parts of a run -/

theorem process_of_valid (h : p.validate (p.dedupe text).text = []) :
    p.process text = ⟨text, (p.dedupe text).text, (p.dedupe text).renames,
      p.report (p.dedupe text).text, [], [], []⟩ := by
  rw [process]
  dsimp only
  rw [h]
  exact if_pos rfl

theorem process_of_invalid (h : p.validate (p.dedupe text).text ≠ []) :
    p.process text = ⟨text, (p.repairText (p.dedupe text).text).text, (p.dedupe text).renames,
      p.report (p.dedupe text).text, p.validate (p.dedupe text).text,
      (p.repairText (p.dedupe text).text).log,
      p.validate (p.repairText (p.dedupe text).text).text⟩ := by
  rw [process]
  dsimp only
  rw [if_neg (mt List.isEmpty_iff.1 h)]

theorem process_report (p : Policy) (text : String) :
    (p.process text).report = p.report (p.dedupe text).text := by
  by_cases h : p.validate (p.dedupe text).text = []
  · rw [process_of_valid h]
  · rw [process_of_invalid h]

theorem process_initial (p : Policy) (text : String) :
    (p.process text).initial = p.validate (p.dedupe text).text := by
  by_cases h : p.validate (p.dedupe text).text = []
  · rw [process_of_valid h, h]
  · rw [process_of_invalid h]

theorem process_final (p : Policy) (text : String) :
    (p.process text).final = p.validate (p.process text).text := by
  by_cases h : p.validate (p.dedupe text).text = []
  · rw [process_of_valid h, h]
  · rw [process_of_invalid h]

/-- **The text of a run is that of a repair** of the text without repeated definitions, and the same
slots are added, whether the run repaired it or found nothing to repair. -/
theorem process_repairs (p : Policy) (text : String) :
    (p.process text).text = (p.repairText (p.dedupe text).text).text ∧
      (p.process text).added =
        (p.repairText (p.dedupe text).text).log.filterMap (·.slot) := by
  rw [Processed.added]
  by_cases hinitial : p.validate (p.dedupe text).text = []
  · obtain ⟨d, hparse, hvalid⟩ := validateText_eq_nil_iff.1 hinitial
    have hlog := congrArg Prod.snd
      (noneMissing_of_validate_eq_nil (p := p.repair) hvalid).repairDocument_eq
    obtain ⟨htext, hadded⟩ := repair_of_log_eq_nil hparse hlog
    rw [process_of_valid hinitial, repairText, htext, Outcome.slots_eq_nil hadded]
    exact ⟨rfl, rfl⟩
  · simp only [process_of_invalid hinitial, and_self]

/-! ## What is found in the end -/

/-- A text that is no document is told so by the report, by both validations and by the repair, and
is left without repeated definitions. -/
theorem process_of_error {e : SchemaError} (h : parse (p.dedupe text).text = .error e) :
    p.process text = ⟨text, (p.dedupe text).text, (p.dedupe text).renames, .error e,
      [⟨.invalidDocument e, none⟩], [.skipped e], [⟨.invalidDocument e, none⟩]⟩ := by
  have hfound : p.validate (p.dedupe text).text = [⟨.invalidDocument e, none⟩] := by
    rw [validate, validateText, h]
  have hrepair : p.repairText (p.dedupe text).text = ⟨(p.dedupe text).text, [.skipped e]⟩ :=
    repair_of_error h
  have hreport : p.report (p.dedupe text).text = .error e := by
    rw [report, Report.ofText, h]
    rfl
  rw [process_of_invalid (by rw [hfound]; exact List.cons_ne_nil _ _), hrepair, hreport, hfound]

/-- **What a run finds and does.** The text without repeated definitions is a document, and the run
adds slots to it: of each name the first candidate that is called for, or none at all. The report is
about the document before, in which some slots are missing; of these the added ones are not missing
any more. What is found in the end are the missing slots that were not added and the missing enums,
both as they were found before, and then the ranges of the added slots that name no enum. -/
theorem process_findings (hparse : parse (p.dedupe text).text = .ok d)
    (hreread : p.repair.Rereads (p.dedupe text).text) :
    let run := p.process text
    let before := Completeness.ofDocument p.validation.enumSuffix d
    let found := run.initial.map (·.subject)
    run.report = .ok before ∧ run.initial = p.validation.validate d ∧
    ∃ chosen d', run.added = chosen.map (·.name) ∧ chosen.Sublist p.repair.candidates ∧
      (∀ c ∈ chosen, p.repair.candidates.find? (called d c.name) = some c) ∧
      parse run.text = .ok d' ∧ Adds chosen d d' ∧
      (∃ after, p.report run.text = .ok after ∧
        after.missingSlots = before.missingSlots.filter (· ∉ run.added)) ∧
      run.final.map (·.subject) =
        found.filter (·.missingSlot?.any (· ∉ run.added)) ++ found.filter (·.missingEnum?.isSome) ++
          chosen.filterMap fun c =>
            (c.slot.range.filter (p.validation.Dangling d ·)).map (.undefinedEnum c.name) := by
  intro run before found
  have hreport {text : String} {d : Document} (h : parse text = .ok d) :
      p.report text = .ok (Completeness.ofDocument p.validation.enumSuffix d) := by
    rw [report, Report.ofText, h]
    rfl
  have hinitial : run.initial = p.validation.validate d :=
    (p.process_initial text).trans (validateText_of_ok hparse)
  obtain ⟨htext, hadded⟩ := p.process_repairs text
  obtain ⟨chosen, d', hparse', hadds, hlog, hsub, hfirst⟩ := hreread.exists_adds hparse
  have hparse' : parse run.text = .ok d' := htext ▸ hparse'
  have hadded : run.added = chosen.map (·.name) := hadded.trans hlog
  have hfinal : run.final = p.validation.validate d' :=
    (p.process_final text).trans (validateText_of_ok hparse')
  refine ⟨(p.process_report text).trans (hreport hparse), hinitial, chosen, d', hadded, hsub,
    hfirst, hparse', hadds, ⟨_, hreport hparse', ?_⟩, ?_⟩
  · rw [hadded]
    exact (hadds.completeness _).1
  · rw [hfinal, hadded, hadds.subjects_validate]
    simp only [found, hinitial]

/-- **When a run ends without findings.** Just when all that it found first were slots that it then
added, if the ranges of the slots that it may add are builtin types. -/
theorem isValid_process_iff (hreread : p.repair.Rereads (p.dedupe text).text)
    (hranges : ∀ c ∈ p.repair.candidates, ∀ range ∈ c.slot.range,
      range ∈ p.validation.builtinTypes) :
    let run := p.process text
    run.isValid = true ↔
      ∀ f ∈ run.initial, ∃ slot ∈ run.added, f.subject.missingSlot? = some slot := by
  intro run
  cases hparse : parse (p.dedupe text).text with
  | error e =>
    have hrun : run = _ := process_of_error hparse
    rw [hrun]
    simp [Processed.isValid, Subject.missingSlot?]
  | ok d =>
    obtain ⟨-, hinitial, chosen, d', -, hsub, -, -, -, -, hfinal⟩ :=
      process_findings hparse hreread
    have hnone : (chosen.filterMap fun c =>
        (c.slot.range.filter (p.validation.Dangling d ·)).map (.undefinedEnum c.name)) =
          ([] : List Subject) := by
      refine List.filterMap_eq_nil_iff.2 fun c hc => ?_
      rw [Option.map_eq_none_iff, Option.filter_eq_none_iff]
      exact fun range hrange hdangling =>
        (of_decide_eq_true hdangling).1 (hranges c (hsub.subset hc) range hrange)
    rw [hnone, List.append_nil] at hfinal
    have hvalid : run.isValid = true ↔ ∀ subject ∈ run.initial.map (·.subject),
        subject.missingSlot?.any (· ∉ run.added) = false ∧ subject.missingEnum?.isSome = false := by
      rw [Processed.isValid, List.isEmpty_iff, ← List.map_eq_nil_iff (f := (·.subject)), hfinal,
        List.append_eq_nil_iff, List.filter_eq_nil_iff, List.filter_eq_nil_iff, ← forall₂_and]
      simp only [Bool.not_eq_true, run]
    rw [hvalid, ← List.forall_mem_map (P := fun subject =>
      ∃ slot ∈ run.added, Subject.missingSlot? subject = some slot)]
    refine forall₂_congr fun subject hsubject => ?_
    rw [show run.initial = _ from hinitial] at hsubject
    exact settled_iff hsubject

/-- The ranges of the standard policy are such types. -/
example : ∀ c ∈ Policy.standard.repair.candidates, ∀ range ∈ c.slot.range,
    range ∈ Policy.standard.validation.builtinTypes := by
  decide

/-! ## Texts that come back -/

/-- **Another run leaves the text of a run as it is**, adds nothing and finds what the first one
found in the end, if there is nothing to resolve in that text. -/
theorem process_settles (hreread : p.repair.Rereads (p.dedupe text).text)
    (hdedupe : (p.dedupe (p.process text).text).text = (p.process text).text) :
    let once := p.process text
    let again := p.process once.text
    again.text = once.text ∧ again.added = [] ∧ again.initial = once.final ∧
      again.final = once.final := by
  dsimp only
  obtain ⟨honce, -⟩ := p.process_repairs text
  obtain ⟨htext, hadded⟩ := p.process_repairs (p.process text).text
  rw [repairText] at honce
  rw [hdedupe, honce, repairText] at htext hadded
  have hsettled : (p.repair.repair (p.repair.repair (p.dedupe text).text).text).text =
      (p.repair.repair (p.dedupe text).text).text ∧
        (p.repair.repair (p.repair.repair (p.dedupe text).text).text).added = 0 := by
    rcases hreread.settled_cases with ⟨hsame, hnone⟩ | ⟨d, hparse, hlog⟩
    · rw [hsame]
      exact ⟨hsame, hnone⟩
    · exact repair_of_log_eq_nil hparse hlog
  rw [process_initial, process_final, process_final, hdedupe, honce]
  exact ⟨htext.trans hsettled.1, hadded.trans (Outcome.slots_eq_nil hsettled.2), rfl,
    congrArg p.validate (htext.trans hsettled.1)⟩

/-- **A text in block style in which nothing is found goes through a run as it is**, if the slots in
it have different names. -/
theorem process_of_lays (hwidth : p.indentWidth = 2) {b : Yaml.Block .mapping}
    (h : Yaml.LaysText (Source.lines text.toList) b)
    (hnames : ∀ f ∈ b.fields, Text.IsName f.key.text)
    (hslots : ∀ f ∈ b.fields, f.key.text = Dedupe.slotsName → f.content.IsSlotSection)
    (hvalid : p.validate text = []) :
    p.process text = ⟨text, text, [], p.report text, [], [], []⟩ := by
  have hdedupe : p.dedupe text = ⟨text, []⟩ := dedupe_eq_self_of_lays hwidth h hnames hslots
  have hvalid' : p.validate (p.dedupe text).text = [] := by rwa [hdedupe]
  rw [process_of_valid hvalid', hdedupe]

end Policy

end SchemaTidy
