import SchemaTidy.Text.Blank
import SchemaTidy.Text.Width
import SchemaTidy.Text.Search

/-! One physical line, read as far as the layout of a schema needs: `key: value` entries,
`- value` items and one-line lists `[a, b]`. All parts found in a line are pieces of it, a text
together with the byte position where it starts. -/

namespace SchemaTidy.Source
open Text

/-- A byte range in one line, terminator excluded. -/
structure Span where
  start : Nat
  stop : Nat
deriving DecidableEq, Repr

/-- A part of a line and the byte position where it starts. -/
structure Piece where
  start : Nat
  text : List Char
deriving DecidableEq, Repr

def Piece.span (p : Piece) : Span := ⟨p.start, p.start + width p.text⟩

inductive Terminator where
  | none
  | lf
  | crlf
deriving DecidableEq, Repr

def Terminator.text : Terminator → List Char
  | .none => []
  | .lf => ['\n']
  | .crlf => ['\r', '\n']

inductive Kind where
  | blank
  | comment
  | entry (key : Piece) (value : Option Piece)
  | item (value : Option Piece)
  | other
deriving DecidableEq, Repr

structure Line where
  content : List Char
  terminator : Terminator
deriving DecidableEq, Repr

/-! ## Scalars -/

/-- The text between an opening quote and the next quote of the same sort. -/
def quotedBody : List Char → Option (List Char)
  | [] => none
  | c :: cs =>
    if (c = '"' ∨ c = '\'') ∧ c ∈ cs then some (cs.takeWhile (· != c)) else none

/-- The text before a trailing comment. A comment opened after a space is looked for in the
whole text before one opened after a tab. -/
def beforeComment (cs : List Char) : List Char :=
  match splitBefore [' ', '#'] cs <|> splitBefore ['\t', '#'] cs with
  | some (before, _) => before
  | none => cs

/-- The scalar in a text that starts at byte `start`, without blanks around it, quotes or a
trailing comment. An opening quote that is never closed belongs to the scalar. -/
def scalar? (start : Nat) (raw : List Char) : Option Piece :=
  let text := trimStart raw
  let start := start + width (raw.takeWhile isBlank)
  if text.head? = some '#' then none
  else
    match quotedBody text with
    | some body => some ⟨start + 1, body⟩
    | none =>
      match trimEnd (beforeComment text) with
      | [] => none
      | value => some ⟨start, value⟩

/-! ## Keys -/

/-- A colon ends a key when the line ends after it, or a space or tab follows. -/
def separates : List Char → Bool
  | [] => true
  | c :: _ => c == ' ' || c == '\t'

/-- The texts before and after the first colon that ends a key, if no comment starts before it.
`gap` says whether a space or tab was passed last. -/
def splitColon (gap : Bool) : List Char → Option (List Char × List Char)
  | [] => none
  | c :: cs =>
    if c = '#' && gap then none
    else if c = ':' && separates cs then some ([], cs)
    else (splitColon (c == ' ' || c == '\t') cs).map fun (key, after) => (c :: key, after)

/-- A key, the position after its colon, and the text from there on. -/
structure KeyCut where
  key : Piece
  valueStart : Nat
  after : List Char

def quotedKey? (start : Nat) (quote : Char) (cs : List Char) : Option KeyCut :=
  let body := cs.takeWhile (· != quote)
  match cs.drop body.length with
  | _ :: ':' :: after =>
    if separates after then some ⟨⟨start + 1, body⟩, start + width body + 3, after⟩ else none
  | _ => none

def plainKey? (start : Nat) (cs : List Char) : Option KeyCut := do
  let (before, after) ← splitColon false cs
  match trimEnd before with
  | [] => none
  | key => some ⟨⟨start, key⟩, start + width before + 1, after⟩

/-- The key that starts a text; a quoted key must be followed by its colon at once. -/
def key? (start : Nat) : List Char → Option KeyCut
  | [] => none
  | c :: cs => if c = '"' ∨ c = '\'' then quotedKey? start c cs else plainKey? start (c :: cs)

/-! ## Lines -/

namespace Line

/-- The number of leading spaces; tabs do not indent. -/
def indent (l : Line) : Nat := (l.content.takeWhile (· == ' ')).length

def kind (l : Line) : Kind :=
  match l.content.dropWhile (· == ' ') with
  | '#' :: _ => .comment
  | ['-'] => .item none
  | '-' :: ' ' :: rest => .item (scalar? (l.indent + 1) (' ' :: rest))
  | rest =>
    if rest.all isBlank then .blank
    else
      match key? l.indent rest with
      | some cut => .entry cut.key (scalar? cut.valueStart cut.after)
      | none => .other

/-- Blank lines and comments carry no structure. -/
def isSignificant (l : Line) : Bool :=
  match l.kind with
  | .blank | .comment => false
  | _ => true

def key (l : Line) : Option Piece :=
  match l.kind with
  | .entry key _ => some key
  | _ => none

/-- The value of an entry or of an item. -/
def value (l : Line) : Option Piece :=
  match l.kind with
  | .entry _ value | .item value => value
  | _ => none

/-- Whether the line is an entry with this key. -/
def hasKey (l : Line) (name : List Char) : Bool :=
  match l.key with
  | some key => key.text == name
  | none => false

end Line

/-! ## One-line lists -/

/-- What stands between `[` and `]`, when neither bracket nor brace stands in it. -/
def listBody : List Char → Option (List Char)
  | '[' :: rest =>
    if rest.getLast? = some ']' ∧ rest.dropLast.all (fun c => !"[]\x7b\x7d".toList.contains c) then
      some rest.dropLast
    else none
  | _ => none

/-- The scalars of the comma-separated parts; a part that holds none is left out. -/
def partScalars (start : Nat) : List (List Char) → List Piece
  | [] => []
  | part :: parts => (scalar? start part).toList ++ partScalars (start + width part + 1) parts

/-- The items of a value such as `[id, name]`; none if the value is no flat list. -/
def Line.flowItems (l : Line) : Option (List Piece) := do
  let value ← l.value
  let body ← listBody value.text
  some (partScalars (value.start + 1) (splitOn ',' body))

end SchemaTidy.Source
