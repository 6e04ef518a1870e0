import SchemaTidy.Source.Basic

/-! Slot definitions and class references, found by indentation. Nothing here knows YAML: a
definition is an entry one level under `slots:`, a class block is an entry one level under
`classes:` with the deeper lines after it, and its references are the items of its `slots:`
lists. -/

namespace SchemaTidy.Dedupe
open Source

/-- The name of the slot section, and of the list that a class keeps of its slots. -/
def slotsName : List Char := "slots".toList

def classesName : List Char := "classes".toList

/-- The key of an entry one level under `slots:`, and its line. -/
structure Definition where
  line : Nat
  key : Piece
deriving DecidableEq, Repr

/-- The key of an entry indented by exactly `indent`. -/
def keyAt (indent : Nat) (l : Line) : Option Piece := if l.indent = indent then l.key else none

def definitions (indent : Nat) (ls : List Line) : List Definition :=
  (sectionLines ls slotsName).filterMap fun (l, i) => (keyAt indent l).map (⟨i, ·⟩)

/-- Names defined more than once, in the order of their first definitions. -/
def duplicates (defs : List Definition) : List (List Char × List Definition) :=
  (defs.map (·.key.text)).eraseDups.filterMap fun name =>
    match defs.filter (·.key.text == name) with
    | group@(_ :: _ :: _) => some (name, group)
    | _ => none

/-- A slot name listed by a class. -/
structure Reference where
  line : Nat
  item : Piece
deriving DecidableEq, Repr

structure ClassBlock where
  header : Nat
  name : List Char
  references : List Reference
deriving DecidableEq, Repr

def ClassBlock.lists (c : ClassBlock) (slot : List Char) : Bool :=
  c.references.any (·.item.text == slot)

/-- Whether a line continues the block list of a header indented by `indent`: it is blank, a
comment, or an item no less indented. -/
def continuesList (indent : Nat) (l : Line) : Bool :=
  match l.kind with
  | .blank | .comment => true
  | .item _ => indent ≤ l.indent
  | _ => false

/-- The items of the block list that the first of these lines may open. -/
def listedItems (indent : Nat) (ls : List (Line × Nat)) : List Reference :=
  (ls.takeWhile fun (l, _) => continuesList indent l).filterMap fun (l, i) => l.value.map (⟨i, ·⟩)

/-- The references in the body of a class block: those of each `slots` list indented by
`indent`, be it on one line or in the lines below. -/
def referencesIn (indent : Nat) : List (Line × Nat) → List Reference
  | [] => []
  | (l, i) :: rest =>
    let here :=
      if l.indent = indent ∧ l.hasKey slotsName then
        match l.flowItems with
        | some items => items.map (⟨i, ·⟩)
        | none => listedItems indent rest
      else []
    here ++ referencesIn indent rest

/-- The class blocks among the lines of a section. The lines after a header that are indented
deeper, or carry no structure, are its body; no header stands in another's body. -/
def blocksIn (indent : Nat) : List (Line × Nat) → List ClassBlock
  | [] => []
  | (l, i) :: rest =>
    match keyAt indent l with
    | some key =>
      let body := rest.takeWhile fun (l, _) => !l.closes indent
      ⟨i, key.text, referencesIn (2 * indent) body⟩ :: blocksIn indent rest
    | none => blocksIn indent rest

def classBlocks (indent : Nat) (ls : List Line) : List ClassBlock :=
  blocksIn indent (sectionLines ls classesName)

end SchemaTidy.Dedupe
