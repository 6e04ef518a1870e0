/-! Reading from the front of a text: a reader takes what it reads off the text, or fails and
takes nothing. -/

namespace SchemaTidy.Toml

abbrev Reader := StateT (List Char) Option

namespace Reader

variable {α : Type}

/-- The next character, which stays in the text. -/
def peek? : Reader (Option Char) := do return (← get).head?

/-- The character `c` and nothing else. -/
def char (c : Char) : Reader Unit := fun
  | d :: cs => if d = c then some ((), cs) else none
  | [] => none

theorem char_cons (c : Char) (cs : List Char) : char c (c :: cs) = some ((), cs) := by
  simp [char]

def oneOf (cs : List Char) : Reader Char := fun
  | d :: rest => if d ∈ cs then some (d, rest) else none
  | [] => none

def literal (part : List Char) : Reader Unit := part.forM char

/-- All characters up to the first one that fails the test. -/
def takeWhile (test : Char → Bool) : Reader (List Char) :=
  fun cs => some (cs.takeWhile test, cs.dropWhile test)

/-- At least one character that passes the test. -/
def takeSome (test : Char → Bool) : Reader (List Char) := do
  let taken ← takeWhile test
  if taken.isEmpty then failure else pure taken

def optional (reader : Reader α) : Reader (Option α) := some <$> reader <|> pure none

/-- As many as there are, but no more than `limit`. -/
def upTo (reader : Reader α) : (limit : Nat) → Reader (List α)
  | 0 => pure []
  | limit + 1 => (do return (← reader) :: (← upTo reader limit)) <|> pure []

/-- As many as there are. A reader that takes at least one character is met at most once for
each character of the text. -/
def many (reader : Reader α) : Reader (List α) := do upTo reader (← get).length

/-- One or more, with a separator between them. -/
def separated (separator : Reader Unit) (reader : Reader α) : Reader (List α) := do
  return (← reader) :: (← many (separator *> reader))

def endOfText : Reader Unit := fun
  | [] => some ((), [])
  | _ :: _ => none

/-- Read a text to its end. -/
def whole (reader : Reader α) (cs : List Char) : Option α := (reader <* endOfText).run' cs

end Reader

/-- A space or a tab. -/
def isGap (c : Char) : Bool := c == ' ' || c == '\t'

/-- The characters that may stand in comments and in literal strings. -/
def isPlain (c : Char) : Bool := c == '\t' || (0x20 ≤ c.toNat && c.toNat != 0x7F)

/-- The characters of a key without quotes. -/
def isBareKey (c : Char) : Bool := c.isAlphanum || c == '_' || c == '-'

open Reader

def gap : Reader Unit := discard (takeWhile isGap)

/-- A line feed, with or without a carriage return before it. -/
def newline : Reader Unit := char '\n' <|> literal ['\r', '\n']

def comment : Reader Unit := char '#' *> discard (takeWhile isPlain)

/-- The rest of a line that holds nothing more than a comment. -/
def endOfLine : Reader Unit := do
  gap
  discard (Reader.optional comment)
  newline <|> endOfText

/-- Blanks, line breaks and comments. -/
def blankLines : Reader Unit :=
  discard (many (discard (takeSome isGap) <|> newline <|> comment))

end SchemaTidy.Toml
