import SchemaTidy.Dedupe.Plan

/-! Resolving repeated slot definitions in a text. All edits are made in place, so comments,
layout and the number of lines stay; a text without repeated definitions is not touched. -/

namespace SchemaTidy.Dedupe
open Source

structure Outcome where
  text : List Char
  renames : List Rename
deriving DecidableEq, Repr

def Outcome.changed (o : Outcome) : Bool := !o.renames.isEmpty

/-- Rename repeated definitions. A level is `indentWidth` spaces, and one at least. -/
def resolve (indentWidth : Nat) (text : List Char) : Outcome :=
  let indent := max indentWidth 1
  let ls := lines text
  match duplicates (definitions indent ls) with
  | [] => ⟨text, []⟩
  | repeated =>
    let classes := classBlocks indent ls
    let renames := assign repeated classes
    ⟨Source.text (apply ls (renames.map (·.edit) ++ propagate renames classes)), renames⟩

end SchemaTidy.Dedupe
