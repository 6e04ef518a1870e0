import SchemaTidy.Schema.Document
import SchemaTidy.Similarity
import SchemaTidy.Policy

/-! Findings: slots that classes refer to and nobody defines, and ranges that are named like
enums and are none. Findings come in document order, those about slots of classes first. -/

namespace SchemaTidy
open Schema

inductive Subject where
  | undefinedSlot (className slot : String)
  | undefinedEnum (slot range : String)
  | invalidDocument (error : SchemaError)
deriving Repr

/-- What was found, and the declared name that may have been meant. -/
structure Finding where
  subject : Subject
  hint : Option String
deriving Repr

def Subject.message : Subject → String
  | .undefinedSlot className slot =>
    "Class '" ++ className ++ "' references undefined slot '" ++ slot ++
      "'. Add a definition for '" ++ slot ++ "' under slots."
  | .undefinedEnum slot range =>
    "Slot '" ++ slot ++ "' has range '" ++ range ++ "' but this enum is not defined. Add '" ++
      range ++ "' under enums."
  | .invalidDocument error => "Invalid document: " ++ error.message

def Finding.message (f : Finding) : String :=
  match f.hint with
  | some name => f.subject.message ++ " Did you mean '" ++ name ++ "'?"
  | none => f.subject.message

/-- Whether a range is named like an enum. -/
def isEnumReference (suffix range : String) : Bool := suffix.toList.isSuffixOf range.toList

namespace ValidationPolicy

def hint (p : ValidationPolicy) (missing : String) (names : List String) : Option String :=
  if p.suggestSimilar then Similarity.suggest missing names else none

/-- The slots that classes refer to and nobody defines, once for each reference. -/
def slotFindings (p : ValidationPolicy) (d : Document) : List Finding :=
  d.classes.flatMap fun (className, c) =>
    (c.slots.filter (!d.slots.contains ·)).map fun slot =>
      ⟨.undefinedSlot className slot, p.hint slot d.slots.names⟩

/-- Whether a range should name an enum and does not. -/
def lacksEnum (p : ValidationPolicy) (d : Document) (range : String) : Bool :=
  !p.builtinTypes.contains range && !d.classes.contains range &&
    isEnumReference p.enumSuffix range && !d.enums.contains range

def enumFindings (p : ValidationPolicy) (d : Document) : List Finding :=
  d.slots.filterMap fun (name, slot) =>
    (slot.range.filter (p.lacksEnum d)).map fun range =>
      ⟨.undefinedEnum name range, p.hint range d.enums.names⟩

def validate (p : ValidationPolicy) (d : Document) : List Finding :=
  p.slotFindings d ++ p.enumFindings d

/-- The findings in a text; a text that is no document makes one finding. -/
def validateText (p : ValidationPolicy) (text : String) : List Finding :=
  match Document.parse text with
  | .ok d => p.validate d
  | .error e => [⟨.invalidDocument e, none⟩]

end ValidationPolicy

end SchemaTidy
