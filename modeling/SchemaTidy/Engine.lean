import SchemaTidy.Repair
import SchemaTidy.Dedupe.Resolve
import SchemaTidy.Difference.Unified

/-! The operations on texts under one policy, and the run of all of them: repeated definitions are
resolved, the result is reported on and validated, and it is repaired if it is not valid. -/

namespace SchemaTidy

structure Rename where
  line : Nat
  name : String
  renamed : String
  owner : Option String
deriving DecidableEq, Repr

/-- Lines are counted from one. -/
def Rename.of (r : Dedupe.Rename) : Rename :=
  ⟨r.line + 1, String.ofList r.name, String.ofList r.renamed, r.owner.map String.ofList⟩

structure Deduped where
  text : String
  renames : List Rename
deriving DecidableEq, Repr

/-- All that one run has found and done. `report` and `initial` are about the text without
repeated definitions, `final` is about the text in the end. -/
structure Processed where
  input : String
  text : String
  renames : List Rename
  report : Report
  initial : List Finding
  repairs : List LogEntry
  final : List Finding

def Processed.isValid (p : Processed) : Bool := p.final.isEmpty

def Processed.changed (p : Processed) : Bool := p.text != p.input

def Processed.difference (p : Processed) : String :=
  String.ofList (Difference.unified "original" "processed" p.input.toList p.text.toList)

namespace Policy

def validate (p : Policy) (text : String) : List Finding := p.validation.validateText text

def report (p : Policy) (text : String) : Report := Report.ofText p.validation.enumSuffix text

def repairText (p : Policy) (text : String) : RepairPolicy.Outcome := p.repair.repair text

def dedupe (p : Policy) (text : String) : Deduped :=
  let o := Dedupe.resolve p.indentWidth text.toList
  ⟨String.ofList o.text, o.renames.map .of⟩

def process (p : Policy) (text : String) : Processed :=
  let deduped := p.dedupe text
  let report := p.report deduped.text
  let initial := p.validate deduped.text
  if initial.isEmpty then ⟨text, deduped.text, deduped.renames, report, initial, [], initial⟩
  else
    let repaired := p.repairText deduped.text
    ⟨text, repaired.text, deduped.renames, report, initial, repaired.log, p.validate repaired.text⟩

end Policy

end SchemaTidy
