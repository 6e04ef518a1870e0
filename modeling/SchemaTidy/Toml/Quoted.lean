import SchemaTidy.Toml.Reader
import SchemaTidy.Decimal.Numeral

/-! Strings of TOML. A basic string stands between double quotes and has escapes, a literal one
stands between single quotes and has none; either may span lines between three quotes. -/

namespace SchemaTidy.Toml
open Decimal (ofBase?)

/-- What one line of a basic string may hold besides escapes. -/
def isBasic (c : Char) : Bool := isPlain c && c != '"' && c != '\\'

def character? (digits : List Char) : Option Char := do
  let n ← ofBase? 16 digits
  if n.isValidChar then some (Char.ofNat n) else none

/-- The character that an escape of one letter stands for. -/
def escaped? : Char → Option Char
  | 'b' => some '\x08'
  | 't' => some '\t'
  | 'n' => some '\n'
  | 'f' => some '\x0c'
  | 'r' => some '\r'
  | '"' => some '"'
  | '\\' => some '\\'
  | _ => none

private def push (c : Char) : List Char × List Char → List Char × List Char
  | (read, rest) => (c :: read, rest)

/-- The rest of a basic string on one line, and the text after it. -/
def basic : List Char → Option (List Char × List Char)
  | '"' :: rest => some ([], rest)
  | '\\' :: 'u' :: a :: b :: c :: d :: rest => do
    return push (← character? [a, b, c, d]) (← basic rest)
  | '\\' :: 'U' :: a :: b :: c :: d :: e :: f :: g :: h :: rest => do
    return push (← character? [a, b, c, d, e, f, g, h]) (← basic rest)
  | '\\' :: c :: rest => do return push (← escaped? c) (← basic rest)
  | c :: rest => if isBasic c then push c <$> basic rest else none
  | [] => none

def isLiteral (c : Char) : Bool := isPlain c && c != '\''

/-- Between three quotes, up to two quotes are text, and so are up to two quotes before the
three that close the string. -/
def closing? (quote : Char) (cs : List Char) : Option (List Char × List Char) :=
  let quotes := cs.takeWhile (· == quote)
  if quotes.length < 3 then none
  else
    let kept := min (quotes.length - 3) 2
    some (List.replicate kept quote, cs.drop (kept + 3))

/-- Whether a line ends here, blanks aside. -/
def endsLine (cs : List Char) : Bool :=
  match cs.dropWhile isGap with
  | '\n' :: _ => true
  | '\r' :: '\n' :: _ => true
  | _ => false

/-- The rest of a basic string between three quotes. A backslash at the end of a line joins the
text before it to the next text that is not blank; `joining` tells that this text is sought. -/
def longBasic (joining : Bool) : List Char → Option (List Char × List Char)
  | [] => none
  | '\r' :: '\n' :: rest =>
    if joining then longBasic true rest else push '\n' <$> longBasic false rest
  | '\\' :: 'u' :: a :: b :: c :: d :: rest => do
    return push (← character? [a, b, c, d]) (← longBasic false rest)
  | '\\' :: 'U' :: a :: b :: c :: d :: e :: f :: g :: h :: rest => do
    return push (← character? [a, b, c, d, e, f, g, h]) (← longBasic false rest)
  | '\\' :: c :: rest =>
    if endsLine (c :: rest) then longBasic true (c :: rest)
    else do return push (← escaped? c) (← longBasic false rest)
  | c :: rest =>
    if joining && (isGap c || c == '\n') then longBasic true rest
    else
      match closing? '"' (c :: rest) with
      | some closed => some closed
      | none =>
        if isBasic c || c == '"' || c == '\n' then push c <$> longBasic false rest else none

/-- The rest of a literal string between three quotes. -/
def longLiteral : List Char → Option (List Char × List Char)
  | [] => none
  | '\r' :: '\n' :: rest => push '\n' <$> longLiteral rest
  | c :: rest =>
    match closing? '\'' (c :: rest) with
    | some closed => some closed
    | none => if isPlain c || c == '\n' then push c <$> longLiteral rest else none

/-- A line break right after the opening quotes is not part of the text. -/
def dropNewline : List Char → List Char
  | '\n' :: rest => rest
  | '\r' :: '\n' :: rest => rest
  | cs => cs

def readLiteral (cs : List Char) : Option (List Char × List Char) :=
  match cs.dropWhile isLiteral with
  | '\'' :: rest => some (cs.takeWhile isLiteral, rest)
  | _ => none

/-- A string on one line, as keys may be. -/
def readShort : Reader String := fun
  | '"' :: cs => (basic cs).map fun (read, rest) => (String.ofList read, rest)
  | '\'' :: cs => (readLiteral cs).map fun (read, rest) => (String.ofList read, rest)
  | _ => none

def readString : Reader String := fun
  | '"' :: '"' :: '"' :: cs =>
    (longBasic false (dropNewline cs)).map fun (read, rest) => (String.ofList read, rest)
  | '\'' :: '\'' :: '\'' :: cs =>
    (longLiteral (dropNewline cs)).map fun (read, rest) => (String.ofList read, rest)
  | cs => readShort cs

/-! ## Writing -/

/-- Whether a quote stands three times in a row. -/
def hasTriple (quote : Char) : List Char → Bool
  | a :: b :: c :: cs => (a == quote && b == quote && c == quote) || hasTriple quote (b :: c :: cs)
  | _ => false

/-- A literal string is chosen where it saves escapes and can hold the text. -/
def prefersLiteral (cs : List Char) : Bool :=
  cs.any (fun c => c == '"' || c == '\\') && cs.all (fun c => isPlain c || c == '\n') &&
    !hasTriple '\'' cs && cs.getLast? != some '\''

def hexEscape (c : Char) : List Char :=
  let digits := (Nat.toDigits 16 c.toNat).map Char.toUpper
  '\\' :: 'u' :: List.replicate (4 - digits.length) '0' ++ digits

/-- One character of a basic string; a line feed stands for itself where lines are kept. -/
def basicChar (keepLines : Bool) (c : Char) : List Char :=
  match c with
  | '\x08' => ['\\', 'b']
  | '\t' => ['\\', 't']
  | '\n' => if keepLines then ['\n'] else ['\\', 'n']
  | '\x0c' => ['\\', 'f']
  | '\r' => ['\\', 'r']
  | '"' => ['\\', '"']
  | '\\' => ['\\', '\\']
  | _ => if isPlain c then [c] else hexEscape c

def basicText (cs : List Char) : List Char := '"' :: cs.flatMap (basicChar false) ++ ['"']

/-- A string with line feeds spans lines, one with single quotes in it needs three of them. -/
def stringText (cs : List Char) : List Char :=
  if prefersLiteral cs then
    if cs.contains '\n' then "'''\n".toList ++ cs ++ "'''".toList
    else if cs.contains '\'' then "'''".toList ++ cs ++ "'''".toList
    else '\'' :: cs ++ ['\'']
  else if cs.contains '\n' then
    "\"\"\"\n".toList ++ cs.flatMap (basicChar true) ++ "\"\"\"".toList
  else basicText cs

end SchemaTidy.Toml
