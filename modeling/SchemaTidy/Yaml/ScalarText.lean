import SchemaTidy.Yaml.Resolve
import SchemaTidy.Yaml.Cursor
import SchemaTidy.Text.Width

/-! How a string is written. A string with a line feed is a literal block, one that would be read
as something else is quoted, and all others are plain; where the wish cannot be met, a form with
more quoting is taken. -/

namespace SchemaTidy.Yaml
open Text (width)

inductive Form where
  | plain
  | singleQuoted
  | doubleQuoted
  | literal
deriving DecidableEq, Repr

/-- The characters that may stand in a text unescaped. -/
def isPrintable (c : Char) : Bool :=
  let n := c.toNat
  n == 0x0A || (0x20 ≤ n && n ≤ 0x7E) || (0xA0 ≤ n && n ≤ 0xFFFD && n != 0xFEFF) || 0x10000 ≤ n

def hasBreak (cs : List Char) : Bool := cs.any isBreak

/-- Whether a pair of neighbouring characters passes a test. -/
def anyPair (test : Char → Char → Bool) : List Char → Bool
  | a :: b :: cs => test a b || anyPair test (b :: cs)
  | _ => false

/-- A plain scalar may not start with these. -/
def isReserved (c : Char) : Bool := "#,[]\x7b\x7d&*!|>'\"%@\x60".toList.contains c

/-- Whether the text could be taken for something other than a plain scalar: a document
indicator, an indicator at its start, a mapping key or a comment. -/
def looksStructured (cs : List Char) : Bool :=
  ['-', '-', '-'].isPrefixOf cs || ['.', '.', '.'].isPrefixOf cs ||
    (match cs with
    | c :: more => isReserved c || ((c == '?' || c == ':' || c == '-') && endsWord more)
    | [] => false) ||
    (cs.drop 1).getLast? == some ':' ||
    anyPair (fun a b => a == ':' && (isGap b || isBreak b)) (cs.drop 1) ||
    anyPair (fun a b => (isGap a || isBreak a) && b == '#') cs

private def hasUnprintable (cs : List Char) : Bool := cs.any (!isPrintable ·)

private def spaceBeforeBreak (cs : List Char) : Bool := anyPair (fun a b => a == ' ' && isBreak b) cs

private def spaceAfterBreak (cs : List Char) : Bool := anyPair (fun a b => isBreak a && b == ' ') cs

def allowsPlain (cs : List Char) : Bool :=
  !hasUnprintable cs && !hasBreak cs && cs.head? != some ' ' && cs.getLast? != some ' ' &&
    !looksStructured cs

def allowsSingleQuoted (cs : List Char) : Bool :=
  !hasUnprintable cs && !spaceBeforeBreak cs && !spaceAfterBreak cs

def allowsLiteral (cs : List Char) : Bool :=
  !cs.isEmpty && !hasUnprintable cs && !spaceBeforeBreak cs && cs.getLast? != some ' '

/-- The form of a string; a key on one line cannot be a block. -/
def formOf (asKey : Bool) (cs : List Char) : Form :=
  let quoted := if allowsSingleQuoted cs then Form.singleQuoted else .doubleQuoted
  if cs.contains '\n' then (if allowsLiteral cs && !asKey then .literal else .doubleQuoted)
  else if looksTyped cs || !allowsPlain cs then quoted
  else .plain

def spaces (n : Nat) : List Char := List.replicate n ' '

/-! ## Quoted forms -/

/-- A quote is written twice, and the text after a line break is indented. -/
def singleQuotedBody (indent : Nat) (afterBreak : Bool) : List Char → List Char
  | [] => if afterBreak then spaces indent else []
  | c :: cs =>
    if isBreak c then c :: singleQuotedBody indent true cs
    else
      (if afterBreak then spaces indent else []) ++
        (if c = '\'' then ['\'', '\''] else [c]) ++ singleQuotedBody indent false cs

def upperHex (digits n : Nat) : List Char :=
  let hex := (Nat.toDigits 16 n).map Char.toUpper
  List.replicate (digits - hex.length) '0' ++ hex

def doubleQuotedChar (c : Char) : List Char :=
  match c with
  | '\x00' => ['\\', '0']
  | '\x07' => ['\\', 'a']
  | '\x08' => ['\\', 'b']
  | '\t' => ['\\', 't']
  | '\n' => ['\\', 'n']
  | '\x0b' => ['\\', 'v']
  | '\x0c' => ['\\', 'f']
  | '\r' => ['\\', 'r']
  | '\x1b' => ['\\', 'e']
  | '"' => ['\\', '"']
  | '\\' => ['\\', '\\']
  | '\u0085' => ['\\', 'N']
  | '\u2028' => ['\\', 'L']
  | '\u2029' => ['\\', 'P']
  | _ =>
    let n := c.toNat
    if isPrintable c then [c]
    else if n ≤ 0xFF then '\\' :: 'x' :: upperHex 2 n
    else if n ≤ 0xFFFF then '\\' :: 'u' :: upperHex 4 n
    else '\\' :: 'U' :: upperHex 8 n

/-! ## Literal blocks -/

/-- An indentation digit when the text does not start with its own first character, and a sign
for what happens to the breaks at its end. -/
def literalHints (cs : List Char) : List Char :=
  let indentation := if cs.head?.any fun c => c == ' ' || isBreak c then ['2'] else []
  let chomping :=
    match cs.reverse with
    | [] => ['-']
    | [c] => if isBreak c then ['+'] else ['-']
    | c :: d :: _ => if !isBreak c then ['-'] else if isBreak d then ['+'] else []
  indentation ++ chomping

def literalBody (indent : Nat) (afterBreak : Bool) : List Char → List Char
  | [] => []
  | c :: cs =>
    if isBreak c then c :: literalBody indent true cs
    else (if afterBreak then spaces indent else []) ++ c :: literalBody indent false cs

/-- The text of a string in some form; the lines after its first are indented by `indent`. -/
def Form.text (form : Form) (indent : Nat) (cs : List Char) : List Char :=
  match form with
  | .plain => cs
  | .singleQuoted => '\'' :: singleQuotedBody indent false cs ++ ['\'']
  | .doubleQuoted => '"' :: cs.flatMap doubleQuotedChar ++ ['"']
  | .literal => '|' :: literalHints cs ++ '\n' :: literalBody indent true cs

/-- End the line of a node. A literal block that ends in a break has ended it already. -/
def Form.endLine (form : Form) (cs : List Char) : List Char :=
  if form = .literal ∧ cs.getLast?.any isBreak then [] else ['\n']

/-! ## Tags -/

private def isTagChar (c : Char) : Bool :=
  isWordChar c || ";/?:@&=+$,.~*'()[]".toList.contains c

private def tagChar (c : Char) : List Char :=
  if isTagChar c then [c]
  else (String.singleton c).toUTF8.toList.flatMap fun b => '%' :: upperHex 2 b.toNat

/-- A tag in front of its value. -/
def tagText (name : List Char) : List Char :=
  match name with
  | ['!'] => "!<".toList ++ tagChar '!' ++ ['>']
  | '!' :: more => '!' :: more.flatMap tagChar
  | _ => '!' :: name.flatMap tagChar

/-- How many bytes a tag takes before its characters are escaped. -/
def tagWidth (name : List Char) : Nat :=
  width name + if name.head? = some '!' then 0 else 1

end SchemaTidy.Yaml
