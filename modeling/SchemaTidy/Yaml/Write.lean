import SchemaTidy.Yaml.ScalarText

/-! Writing a value as a text in block style: two spaces a level, sequences indented like the
key before them, one line for an entry with a scalar. A key that is not a short text on one
line stands after a question mark. -/

namespace SchemaTidy.Yaml
open Text (width)

/-! ## What can be written -/

inductive WriteError where
  | nodeExpected
  | documentExpected
  | nestedTag
deriving DecidableEq, Repr

def WriteError.message : WriteError → String
  | .nodeExpected => "expected SCALAR, SEQUENCE-START, MAPPING-START, or ALIAS"
  | .documentExpected => "expected DOCUMENT-START or STREAM-END"
  | .nestedTag => "serializing nested enums in YAML is not supported yet"

/-- The nesting of a value, scalars aside from each other. -/
inductive Outline where
  | leaf
  | openSequence
  | openMapping
  | close
  | nestedTag
deriving DecidableEq, Repr

/-- Whether a value, as the only key of a mapping without a tag, is taken for the tag of that
mapping, which then is not opened. -/
def swallowsStart : Value → Bool
  | .tagged .. => true
  | .mapping [_] => true
  | _ => false

mutual

def outline (tagged : Bool) : Value → List Outline
  | .sequence items => .openSequence :: outlineItems items ++ [.close]
  | .mapping entries =>
    let starts :=
      match entries with
      | [(key, _)] => tagged || !swallowsStart key
      | _ => true
    (if starts then [.openMapping] else []) ++ outlineEntries entries ++ [.close]
  | .tagged _ value => if tagged then [.nestedTag] else outline true value
  | _ => [.leaf]

def outlineItems : List Value → List Outline
  | [] => []
  | v :: vs => outline false v ++ outlineItems vs

def outlineEntries : Entries → List Outline
  | [] => []
  | (k, v) :: rest => outline false k ++ outline false v ++ outlineEntries rest

end

/-- A collection that is open; a mapping expects a key or the value of one. -/
inductive Frame where
  | sequence
  | mapping (keyNext : Bool)
deriving DecidableEq, Repr

/-- The open collections after one more node among them. -/
def Frame.passNode : List Frame → List Frame
  | .mapping keyNext :: outer => .mapping (!keyNext) :: outer
  | frames => frames

/-- Whether every collection ends where it may. Outside of all collections only a new document
can follow. -/
def checkNesting : List Frame → List Outline → Except WriteError Unit
  | _, [] => .ok ()
  | frames, .leaf :: more => checkNesting (Frame.passNode frames) more
  | frames, .openSequence :: more => checkNesting (.sequence :: Frame.passNode frames) more
  | frames, .openMapping :: more => checkNesting (.mapping true :: Frame.passNode frames) more
  | .sequence :: outer, .close :: more => checkNesting outer more
  | .mapping true :: outer, .close :: more => checkNesting outer more
  | .mapping false :: _, .close :: _ => .error .nodeExpected
  | [], .close :: _ => .error .documentExpected
  | _, .nestedTag :: _ => .error .nestedTag

/-! ## Keys -/

/-- The longest text, in bytes, that is written as a key on its own line. -/
def maxKeyWidth : Nat := 128

/-- The text of a scalar that is no string. -/
def literalScalar? : Value → Option (List Char)
  | .null => some "null".toList
  | .bool b => some (toString b).toList
  | .number n => some n.text
  | _ => none

/-- The text of a key that fits on one line with its tag, and its width without escapes. -/
private def bareKey? : Value → Option (List Char × Nat)
  | .string s =>
    let cs := s.toList
    if hasBreak cs then none else some ((formOf true cs).text 0 cs, width cs)
  | .sequence [] => some (['[', ']'], 0)
  | .mapping [] => some (['\x7b', '\x7d'], 0)
  | v => (literalScalar? v).map fun cs => (cs, width cs)

/-- The text of a simple key. -/
def keyText? : Value → Option (List Char)
  | .tagged tag v =>
    (bareKey? v).bind fun (cs, w) =>
      if w + tagWidth tag.toList ≤ maxKeyWidth then some (tagText tag.toList ++ ' ' :: cs) else none
  | v => (bareKey? v).bind fun (cs, w) => if w ≤ maxKeyWidth then some cs else none

/-! ## Nodes -/

/-- Where a node is written: as the whole document, after a dash, after a question mark, or
after the colon of a simple or of another key. -/
inductive Place where
  | root
  | item
  | longKey
  | value
  | longValue
deriving DecidableEq, Repr

/-- Whether the entries of a collection start on the line of its indicator. -/
def Place.sharesLine (p : Place) (tag : Option String) : Bool := tag.isNone && p != .value

def Place.inMapping : Place → Bool
  | .root | .item => false
  | _ => true

def Place.deeper (p : Place) (indent : Nat) : Nat := if p = .root then 0 else indent + 2

private def Place.space (p : Place) : List Char := if p = .root then [] else [' ']

/-- The tag of a node. -/
def Place.tag (p : Place) : Option String → List Char
  | some tag => p.space ++ tagText tag.toList
  | none => []

/-- What comes before a node on the same line. -/
def Place.lead (p : Place) (tag : Option String) : List Char :=
  p.tag tag ++ if tag.isSome then [' '] else p.space

/-- What comes before the first entry of a collection indented by `indent`. -/
def Place.opening (p : Place) (tag : Option String) (indent : Nat) : List Char :=
  if p.sharesLine tag then p.space else p.tag tag ++ '\n' :: spaces indent

mutual

/-- The text of a node up to the end of its last line; `indent` is that of the collection around
it. -/
def nodeText (p : Place) (indent : Nat) (tag : Option String) : Value → List Char
  | .string s =>
    let cs := s.toList
    let form := formOf false cs
    p.lead tag ++ form.text (indent + 2) cs ++ form.endLine cs
  | .sequence [] => p.lead tag ++ ['[', ']', '\n']
  | .sequence items =>
    let inner := if p.inMapping && !p.sharesLine tag then indent else p.deeper indent
    p.opening tag inner ++ (itemsText inner items).drop inner
  | .mapping [] => p.lead tag ++ ['\x7b', '\x7d', '\n']
  | .mapping entries =>
    let inner := p.deeper indent
    p.opening tag inner ++ (entriesText inner entries).drop inner
  | .tagged tag value => nodeText p indent (some tag) value
  | .null => p.lead tag ++ "null\n".toList
  | .bool b => p.lead tag ++ (toString b).toList ++ ['\n']
  | .number n => p.lead tag ++ n.text ++ ['\n']

def itemsText (indent : Nat) : List Value → List Char
  | [] => []
  | v :: vs => spaces indent ++ '-' :: nodeText .item indent none v ++ itemsText indent vs

def entriesText (indent : Nat) : Entries → List Char
  | [] => []
  | (k, v) :: rest =>
    let entry :=
      match keyText? k with
      | some key => key ++ ':' :: nodeText .value indent none v
      | none =>
        '?' :: nodeText .longKey indent none k ++ spaces indent ++
          ':' :: nodeText .longValue indent none v
    spaces indent ++ entry ++ entriesText indent rest

end

/-- The text of a document that holds one value. -/
def write (v : Value) : Except WriteError (List Char) := do
  checkNesting [] (outline false v)
  .ok (nodeText .root 0 none v)

end SchemaTidy.Yaml
