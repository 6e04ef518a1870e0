import SchemaTidy.Yaml.Event

/-! The events of one document, with its aliases tied to what they stand for. -/

namespace SchemaTidy.Yaml

/-- An alias knows the number of its anchor. Anchors are numbered by how many different names
were in use when they came up. -/
inductive ItemKind where
  | alias (anchor : Nat)
  | scalar (tag : Option (List Char)) (style : ScalarStyle) (text : List Char)
  | sequenceStart (tag : Option (List Char))
  | sequenceEnd
  | mappingStart (tag : Option (List Char))
  | mappingEnd
deriving DecidableEq, Repr

structure Item where
  kind : ItemKind
  mark : Mark
deriving DecidableEq, Repr

/-- Why a document ends before its time. -/
inductive Break where
  | fault (f : Fault)
  | unknownAnchor (mark : Mark)
deriving DecidableEq, Repr

/-- `targets` says at which item the latest anchor of a number stands. -/
structure Document where
  items : List Item
  targets : List (Nat × Nat)
  broken : Option Break
deriving Repr

namespace Document

/-- The names of the anchors met so far with their numbers, the places of the anchors, and how
many items were read. -/
structure Anchors where
  names : List (List Char × Nat)
  targets : List (Nat × Nat)
  count : Nat

def Anchors.number? (a : Anchors) (name : List Char) : Option Nat :=
  (a.names.find? (·.1 == name)).map (·.2)

/-- A name that is used again gives its number up for a new one. -/
def Anchors.add (a : Anchors) : Option (List Char) → Anchors
  | none => a
  | some name =>
    let number := a.names.length
    { a with
      names := (name, number) :: a.names.filter (·.1 != name)
      targets := (number, a.count) :: a.targets }

def Anchors.next (a : Anchors) : Anchors := { a with count := a.count + 1 }

def cons (item : Item) : Document × List Event → Document × List Event
  | (d, rest) => ({ d with items := item :: d.items }, rest)

/-- The first document among some events, and the events after it. -/
def take (fault : Option Fault) : Anchors → List Event → Document × List Event
  | a, [] => (⟨[], a.targets, fault.map .fault⟩, [])
  | a, e :: rest =>
    match e.kind with
    | .documentStart => take fault a rest
    | .documentEnd => (⟨[], a.targets, none⟩, rest)
    | .streamEnd => (⟨[], a.targets, none⟩, e :: rest)
    | .alias name =>
      match a.number? name with
      | some number => cons ⟨.alias number, e.mark⟩ (take fault a.next rest)
      | none => (⟨[], a.targets, some (.unknownAnchor e.mark)⟩, [])
    | .scalar anchor tag style text =>
      cons ⟨.scalar tag style text, e.mark⟩ (take fault (a.add anchor).next rest)
    | .sequenceStart anchor tag =>
      cons ⟨.sequenceStart tag, e.mark⟩ (take fault (a.add anchor).next rest)
    | .sequenceEnd => cons ⟨.sequenceEnd, e.mark⟩ (take fault a.next rest)
    | .mappingStart anchor tag =>
      cons ⟨.mappingStart tag, e.mark⟩ (take fault (a.add anchor).next rest)
    | .mappingEnd => cons ⟨.mappingEnd, e.mark⟩ (take fault a.next rest)

/-- The first document of a text, and whether anything but the end of the text follows it. -/
def first (text : List Char) : Document × Bool :=
  let (events, fault) := events text
  let (document, rest) := take fault ⟨[], [], 0⟩ events
  (document, !(rest.head?.any fun e => e.kind == .streamEnd))

/-- The items from the place on that an anchor number stands for. -/
def target (d : Document) (anchor : Nat) : List Item :=
  match d.targets.find? (·.1 == anchor) with
  | some (_, place) => d.items.drop place
  | none => []

end Document

end SchemaTidy.Yaml
