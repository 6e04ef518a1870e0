import SchemaTidy.Dedupe.Layout
import SchemaTidy.Source.Edit
import SchemaTidy.Text.Lowercase

/-! Which definition takes which new name, and which references follow it. The first
definition of a name keeps it. The one at position `k` is named after the class at position `k`
among the classes that list the slot, and is numbered when there is no such class. -/

namespace SchemaTidy.Dedupe
open Source Text

/-- A definition with its new name, and the class it was named after, if any. -/
structure Rename where
  line : Nat
  key : Piece
  renamed : List Char
  owner : Option (List Char)
deriving DecidableEq, Repr

def Rename.name (r : Rename) : List Char := r.key.text

/-- The names of the classes that list a slot. -/
def owners (classes : List ClassBlock) (slot : List Char) : List (List Char) :=
  (classes.filter (·.lists slot)).map (·.name)

/-- The rename of the definition at position `k`, counted from zero, of a repeated name. -/
def renameAt (owners : List (List Char)) (d : Definition) (k : Nat) : Rename :=
  match owners[k]? with
  | some owner => ⟨d.line, d.key, lowercase owner ++ '_' :: d.key.text, some owner⟩
  | none => ⟨d.line, d.key, d.key.text ++ '_' :: Nat.toDigits 10 (k + 1), none⟩

def assign (repeated : List (List Char × List Definition)) (classes : List ClassBlock) :
    List Rename :=
  repeated.flatMap fun (slot, defs) =>
    (defs.zipIdx.drop 1).map fun (d, k) => renameAt (owners classes slot) d k

/-- The variant that a class refers to: the one named after it, else the first without an owner
whose name contains the name of the class, letter case aside. -/
def variantFor (className : List Char) (variants : List Rename) : Option Rename :=
  variants.find? (·.owner == some className) <|>
    variants.find? fun r => r.owner.isNone && occursIn (lowercase className) (lowercase r.renamed)

def Rename.edit (r : Rename) : Edit := ⟨r.line, r.key.span, r.renamed⟩

/-- The edits of the references that follow a rename. -/
def propagate (renames : List Rename) (classes : List ClassBlock) : List Edit :=
  classes.flatMap fun c => c.references.filterMap fun r =>
    (variantFor c.name (renames.filter (·.name == r.item.text))).map fun variant =>
      ⟨r.line, r.item.span, variant.renamed⟩

end SchemaTidy.Dedupe
