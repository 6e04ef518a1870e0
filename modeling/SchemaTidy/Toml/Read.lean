import SchemaTidy.Toml.Outline
import SchemaTidy.Toml.Number
import SchemaTidy.Toml.Quoted

/-! Reading TOML documents. -/

namespace SchemaTidy.Toml
open Reader

/-- Arrays and tables in braces may stand in each other, and keys be dotted, only so deep. -/
def depthLimit : Nat := 80

def readSimpleKey : Reader String := String.ofList <$> takeSome isBareKey <|> readShort

/-- A key of one or more parts with points between them. -/
def readKey : Reader (List String) := do
  let path ← separated (char '.') (gap *> readSimpleKey <* gap)
  if path.length < depthLimit then pure path else failure

def readNumber : Reader Value :=
  .dateTime <$> readDateTime <|> .real <$> readReal <|> .integer <$> readInteger

/-- Items in brackets, over any number of lines; a comma may follow the last one. -/
def readItems (item : Reader Value) : Reader (List Value) := do
  char '['
  let items ← many (blankLines *> item <* blankLines <* (char ',' <|> do
    if (← peek?) = some ']' then pure () else failure))
  blankLines
  char ']'
  pure items

/-- Entries in braces, on one line. -/
def readBraces (item : Reader Value) : Reader Table := do
  char '\x7b'
  let entry := do
    let path ← readKey
    char '='
    gap
    let value ← item
    gap
    pure (path, value)
  let entries := (← Reader.optional (separated (char ',') entry)).getD []
  gap
  char '\x7d'
  match Children.ofEntries entries with
  | some children => pure (Node.valuesOf children)
  | none => failure

/-- A value with no more than `depth` levels of brackets and braces. -/
def readValue : (depth : Nat) → Reader Value
  | 0 => failure
  | depth + 1 => do
    match ← peek? with
    | some '"' | some '\'' => .string <$> readString
    | some '[' => .array <$> readItems (readValue depth)
    | some '\x7b' => .table <$> readBraces (readValue depth)
    | some 't' => do literal "true".toList; pure (.bool true)
    | some 'f' => do literal "false".toList; pure (.bool false)
    | _ => readNumber

def readStatement : Reader Statement :=
  (.element <$> (literal ['[', '['] *> readKey <* literal [']', ']'])) <|>
  (.header <$> (char '[' *> readKey <* char ']')) <|> do
    let path ← readKey
    char '='
    gap
    return .entry path (← readValue depthLimit)

/-- A document: statements, each on a line of its own, among blank lines and comments. -/
def readStatements : Reader (List Statement) := do
  blankLines
  many (readStatement <* endOfLine <* blankLines)

/-- A mark of the byte order in front of the text does not count. -/
def read (text : String) : Option Table := do
  let cs := match text.toList with
    | '\uFEFF' :: rest => rest
    | cs => cs
  return (← Outline.ofStatements (← whole readStatements cs)).table

end SchemaTidy.Toml
