import SchemaTidy.Yaml.Document
import SchemaTidy.Yaml.Resolve
import SchemaTidy.Text.Quoted

/-! Reading a text as one YAML value. Aliases are replaced by what they stand for; of the
entries of a mapping with one key the last counts, at the place of the first. Values may be
nested 128 deep, and aliases may be followed a hundred times for each item of the document. -/

namespace SchemaTidy.Yaml
open Decimal

/-- Where a value stands in a document. Keys that are no scalars have no name. -/
inductive Path where
  | root
  | item (parent : Path) (index : Nat)
  | field (parent : Path) (key : List Char)
  | unnamed (parent : Path)
deriving DecidableEq, Repr

namespace Path

private def before : Path → List Char → List Char
  | .root, _ => []
  | _, text => text ++ ['.']

def text : Path → List Char
  | .root => ['.']
  | .item parent index => parent.text ++ '[' :: Nat.toDigits 10 index ++ [']']
  | .field parent key => before parent parent.text ++ key
  | .unnamed parent => before parent parent.text ++ ['?']

end Path

/-- The types that a tag can force upon a scalar. -/
inductive ForcedType where
  | bool
  | whole
  | real
  | null
deriving DecidableEq, Repr

def ForcedType.describe : ForcedType → String
  | .bool => "a boolean"
  | .whole => "an integer"
  | .real => "a float"
  | .null => "null"

inductive ScalarFault where
  | oversized (n : Int)
  | mismatch (text : List Char) (expected : ForcedType)
deriving DecidableEq, Repr

def ScalarFault.message : ScalarFault → String
  | .oversized n =>
    let width := if n < 0 then "i128" else "u128"
    "invalid type: integer \x60" ++ String.ofList (intText n) ++ "\x60 as " ++ width ++
      ", expected any YAML value"
  | .mismatch text expected =>
    "invalid value: string " ++ String.ofList (Text.quoted text) ++ ", expected " ++
      expected.describe

inductive ReadError where
  | misread (fault : Fault)
  | noValue
  | severalDocuments
  | tooDeep (mark : Mark)
  | tooManyAliases
  | unknownAnchor (mark : Mark)
  | badScalar (path : Path) (fault : ScalarFault) (mark : Mark)
deriving DecidableEq, Repr

def ReadError.message : ReadError → String
  | .misread fault => fault.message
  | .noValue => "EOF while parsing a value"
  | .severalDocuments =>
    "deserializing from YAML containing more than one document is not supported"
  | .tooDeep mark => "recursion limit exceeded" ++ mark.place
  | .tooManyAliases => "repetition limit exceeded"
  | .unknownAnchor mark => "unknown anchor" ++ mark.place
  | .badScalar path fault mark =>
    (if path = .root then "" else String.ofList path.text ++ ": ") ++ fault.message ++ mark.place

def Break.error : Break → ReadError
  | .fault f => .misread f
  | .unknownAnchor mark => .unknownAnchor mark

/-! ## Scalars -/

def ForcedType.ofTag? (tag : List Char) : Option ForcedType :=
  [("bool", ForcedType.bool), ("int", .whole), ("float", .real), ("null", .null)].findSome?
    fun (name, type) => if tag = ("tag:yaml.org,2002:" ++ name).toList then some type else none

/-- The value that a forced type makes of a text. -/
def ForcedType.read (type : ForcedType) (text : List Char) : Except ScalarFault Value :=
  let made : Option Resolved :=
    match type with
    | .bool => (boolOf? text).map fun b => .value (.bool b)
    | .whole => (wholeNumber? text).map .ofWhole
    | .real => (real? text).map fun x => .value (.number (.real x))
    | .null => if isNullText text then some (.value .null) else none
  match made with
  | some (.value v) => .ok v
  | some (.oversized n) => .error (.oversized n)
  | none => .error (.mismatch text type)

/-- The value of a scalar. A local tag leaves a plain scalar its meaning, any other tag that
forces no type makes it a string. -/
def scalarValue (tag : Option (List Char)) (style : ScalarStyle) (text : List Char) :
    Except ScalarFault Value :=
  let string : Value := .string (String.ofList text)
  let plain : Except ScalarFault Value :=
    if style = .plain then
      match resolvePlain text with
      | .value v => .ok v
      | .oversized n => .error (.oversized n)
    else .ok string
  match tag with
  | none => plain
  | some tag =>
    match ForcedType.ofTag? tag with
    | some type => type.read text
    | none => if tag.head? = some '!' then plain else .ok string

/-- A tag without the exclamation mark before its name. The tag `!` has no other name. -/
def tagName : List Char → List Char
  | '!' :: c :: name => c :: name
  | name => name

/-- The name of a local tag. A second exclamation mark does not belong to it either. -/
def localTag? : Option (List Char) → Option (List Char)
  | some ('!' :: name) => some (tagName (tagName ('!' :: name)))
  | _ => none

/-! ## Values -/

/-- A value, how many aliases were followed so far, and the items after the value. -/
structure Composed (α : Type) where
  value : α
  jumps : Nat
  rest : List Item

abbrev Composer := Path → Nat → List Item → Except ReadError (Composed Value)

def Document.endError (d : Document) : ReadError :=
  match d.broken with
  | some b => b.error
  | none => .noValue

def composeItems (d : Document) (child : Composer) (path : Path) :
    Nat → Nat → Nat → List Item → Except ReadError (Composed (List Value))
  | 0, _, _, _ => .error d.endError
  | fuel + 1, index, jumps, items =>
    match items with
    | [] => .error d.endError
    | item :: rest =>
      if item.kind = .sequenceEnd then .ok ⟨[], jumps, rest⟩
      else do
        let first ← child (.item path index) jumps items
        let more ← composeItems d child path fuel (index + 1) first.jumps first.rest
        .ok { more with value := first.value :: more.value }

/-- The path of the value whose key starts with an item. -/
def Path.under (path : Path) (key : Item) : Path :=
  match key.kind with
  | .scalar _ _ text => .field path text
  | _ => .unnamed path

def composeEntries (d : Document) (child : Composer) (path : Path) :
    Nat → Entries → Nat → List Item → Except ReadError (Composed Entries)
  | 0, _, _, _ => .error d.endError
  | fuel + 1, entries, jumps, items =>
    match items with
    | [] => .error d.endError
    | item :: rest =>
      if item.kind = .mappingEnd then .ok ⟨entries, jumps, rest⟩
      else do
        let key ← child path jumps items
        let value ← child (path.under item) key.jumps key.rest
        composeEntries d child path fuel (entries.insert key.value value.value) value.jumps
          value.rest

/-- Put a value under its local tag, if it has one. -/
def withTag (tag : Option (List Char)) (read : Except ReadError (Composed Value)) :
    Except ReadError (Composed Value) :=
  match localTag? tag with
  | none => read
  | some name => do
    let c ← read
    .ok { c with value := .tagged (String.ofList name) c.value }

/-- The value that starts with an item other than an alias. `child` reads the values inside of
it; there is none at the greatest depth. -/
def composeNode (d : Document) (child : Option Composer) (path : Path) (jumps : Nat) (item : Item)
    (rest : List Item) : Except ReadError (Composed Value) :=
  match item.kind, child with
  | .scalar tag style text, _ =>
    withTag tag <|
      match scalarValue tag style text with
      | .ok value => .ok ⟨value, jumps, rest⟩
      | .error fault => .error (.badScalar path fault item.mark)
  | .sequenceStart tag, some child =>
    withTag tag do
      let c ← composeItems d child path (rest.length + 1) 0 jumps rest
      .ok ⟨.sequence c.value, c.jumps, c.rest⟩
  | .mappingStart tag, some child =>
    withTag tag do
      let c ← composeEntries d child path (rest.length + 1) [] jumps rest
      .ok ⟨.mapping c.value, c.jumps, c.rest⟩
  | .sequenceStart _, none | .mappingStart _, none => .error (.tooDeep item.mark)
  | _, _ => .error d.endError

/-- How many aliases may be followed for each item of a document. -/
def jumpsPerItem : Nat := 100

/-- The value that starts here. An alias is read where its anchor stands, and reading goes on
behind the alias. -/
def composeHere (d : Document) (child : Option Composer) : Composer := fun path jumps items =>
  match items with
  | [] => .error d.endError
  | ⟨.alias anchor, _⟩ :: rest =>
    if d.items.length * jumpsPerItem < jumps + 1 then .error .tooManyAliases
    else
      match d.target anchor with
      | [] => .error d.endError
      | item :: inner => do
        let c ← composeNode d child path (jumps + 1) item inner
        .ok { c with rest }
  | item :: rest => composeNode d child path jumps item rest

/-- Read a value that holds others at most `depth` levels down. -/
def compose (d : Document) : Nat → Composer
  | 0 => composeHere d none
  | depth + 1 => composeHere d (some (compose d depth))

def maxDepth : Nat := 128

/-- The value of a text. A fault after the value of the document counts, and comes before the
complaint about more than one document. -/
def read (text : List Char) : Except ReadError Value := do
  let (d, more) := Document.first text
  let value ←
    if d.items.isEmpty && d.broken.isNone then pure .null
    else do
      pure (← compose d maxDepth .root 0 d.items).value
  match d.broken with
  | some b => .error b.error
  | none => if more then .error .severalDocuments else .ok value

end SchemaTidy.Yaml
