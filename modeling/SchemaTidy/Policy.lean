/-! The policy of the checks and repairs: what may be changed from outside, with its defaults. -/

namespace SchemaTidy

structure ValidationPolicy where
  builtinTypes : List String
  enumSuffix : String
  suggestSimilar : Bool
deriving DecidableEq, Repr

/-- A slot that is added when enough classes refer to it. -/
structure CatalogSlot where
  name : String
  range : String
  description : String
deriving DecidableEq, Repr

/-- The slot that identifies things; it has a threshold of its own. -/
structure IdentifierSlot extends CatalogSlot where
  minReferences : Nat
deriving DecidableEq, Repr

structure RepairPolicy where
  catalogMinReferences : Nat
  identifier : IdentifierSlot
  catalog : List CatalogSlot
deriving DecidableEq, Repr

structure Policy where
  validation : ValidationPolicy
  repair : RepairPolicy
  indentWidth : Nat
deriving DecidableEq, Repr

namespace Policy

def builtinTypes : List String := [
  "string", "integer", "boolean", "float", "double", "decimal", "time", "date", "datetime",
  "date_or_datetime", "uriorcurie", "curie", "uri", "ncname", "objectidentifier",
  "nodeidentifier", "jsonpointer", "jsonpath", "sparqlpath"]

def identifier : IdentifierSlot := ⟨⟨"id", "string", "Unique identifier"⟩, 1⟩

def catalog : List CatalogSlot := [
  ⟨"name", "string", "Name"⟩,
  ⟨"description", "string", "Description"⟩,
  ⟨"created_at", "datetime", "Creation timestamp"⟩,
  ⟨"updated_at", "datetime", "Last update timestamp"⟩]

def standard : Policy := ⟨⟨builtinTypes, "Enum", true⟩, ⟨2, identifier, catalog⟩, 2⟩

end Policy

end SchemaTidy
