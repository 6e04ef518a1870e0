import SchemaTidy.Completeness

/-! Repair: slots that are often left out are added from templates, once enough classes refer to
them. Nothing that is there is changed, and a text with nothing to add is left as it is. -/

namespace SchemaTidy
open Schema

/-- A slot that may be added, and how many classes must refer to it at least. -/
structure Candidate where
  name : String
  threshold : Nat
  slot : SlotDef

/-- An added slot with the classes that refer to it. -/
structure Addition where
  slot : String
  classes : List String
deriving DecidableEq, Repr

/-- What a repair did, or why it was given up. -/
inductive LogEntry where
  | added (a : Addition)
  | skipped (e : SchemaError)
deriving Repr

def Addition.description (a : Addition) : String :=
  let noun := if a.classes.length = 1 then "class" else "classes"
  "Added missing slot '" ++ a.slot ++ "' referenced by " ++ toString a.classes.length ++ " " ++
    noun ++ ": " ++ String.intercalate ", " a.classes

def LogEntry.description : LogEntry → String
  | .added a => a.description
  | .skipped e => "Skipped repair: document could not be parsed (" ++ e.message ++ ")"

def LogEntry.slot : LogEntry → Option String
  | .added a => some a.slot
  | .skipped _ => none

def LogEntry.classes : LogEntry → List String
  | .added a => a.classes
  | .skipped _ => []

def CatalogSlot.template (s : CatalogSlot) : SlotDef :=
  { SlotDef.empty with
    description := some s.description, range := some s.range, required := some false }

def IdentifierSlot.template (s : IdentifierSlot) : SlotDef :=
  { SlotDef.empty with
    description := some s.description, range := some s.range
    identifier := some true, required := some true }

namespace RepairPolicy

/-- The identifier slot first, then the catalog in its order. -/
def candidates (p : RepairPolicy) : List Candidate :=
  ⟨p.identifier.name, p.identifier.minReferences, p.identifier.template⟩ ::
    p.catalog.map fun s => ⟨s.name, p.catalogMinReferences, s.template⟩

/-- The classes that call for a candidate; none if the slot is declared, or too few classes, or
no class at all, refer to it. -/
def demand (d : Document) (c : Candidate) : Option (List String) :=
  match d.references.get? c.name with
  | some classes =>
    if classes.length < max c.threshold 1 || d.slots.contains c.name then none else some classes
  | none => none

/-- The additions with their templates. Of the candidates of one name the first that is called
for is taken. -/
def additions (d : Document) : List String → List Candidate → List (Addition × SlotDef)
  | _, [] => []
  | taken, c :: cs =>
    match demand d c with
    | some classes =>
      if taken.contains c.name then additions d taken cs
      else (⟨c.name, classes⟩, c.slot) :: additions d (c.name :: taken) cs
    | none => additions d taken cs

/-- Add the slots that are called for, and tell which. -/
def repairDocument (p : RepairPolicy) (d : Document) : Document × List Addition :=
  let added := additions d [] p.candidates
  (added.foldl (fun d (a, slot) => d.addSlot a.slot slot) d, added.map (·.1))

structure Outcome where
  text : String
  log : List LogEntry
deriving Repr

def Outcome.added (o : Outcome) : Nat := (o.log.filter (·.slot.isSome)).length

/-- Repair a text. The text stays as it is when nothing is added, when it is no document, and
when the document cannot be written. -/
def repair (p : RepairPolicy) (text : String) : Outcome :=
  let repaired := do
    let (d, added) := p.repairDocument (← Document.parse text)
    let written ← d.text
    pure (written, added)
  match repaired with
  | .ok (_, []) => ⟨text, []⟩
  | .ok (written, added) => ⟨written, added.map .added⟩
  | .error e => ⟨text, [.skipped e]⟩

end RepairPolicy

end SchemaTidy
