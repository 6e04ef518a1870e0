import SchemaTidy.Yaml.Fault

/-! A place in a text that is being read: what is left of the text, and the position of its
first character. Each way to move on leaves a shorter text. -/

namespace SchemaTidy.Yaml

/-- Line feed, carriage return, next line, and the line and paragraph separators. -/
def isBreak (c : Char) : Bool :=
  c == '\n' || c == '\r' || c == '\u0085' || c == '\u2028' || c == '\u2029'

/-- A space or a tab. -/
def isGap (c : Char) : Bool := c == ' ' || c == '\t'

/-- A line may start with this mark, which is no part of any token there. -/
def byteOrderMark : Char := '\uFEFF'

/-- The characters of anchor names and directive names. -/
def isWordChar (c : Char) : Bool := c.isAlphanum || c == '_' || c == '-'

/-- Every break is read as a line feed but the line and paragraph separators. -/
def plainBreak (c : Char) : Char := if c == '\u2028' || c == '\u2029' then c else '\n'

/-- Whether a text ends here, or goes on with a space, a tab or a line break. -/
def endsWord : List Char → Bool
  | [] => true
  | c :: _ => isGap c || isBreak c

/-- Whether a line ends here. -/
def endsLine : List Char → Bool
  | [] => true
  | c :: _ => isBreak c

structure Cursor where
  mark : Mark
  rest : List Char
deriving Repr

namespace Cursor

/-- Pass `count` characters of one line. -/
def advance (c : Cursor) (count : Nat) : Cursor :=
  ⟨{ c.mark with index := c.mark.index + count, column := c.mark.column + count }, c.rest.drop count⟩

/-- The characters up to the first one that fails the test, all of one line. -/
def span (test : Char → Bool) (c : Cursor) : List Char × Cursor :=
  let taken := c.rest.takeWhile test
  (taken, c.advance taken.length)

def skipWhile (test : Char → Bool) (c : Cursor) : Cursor := (c.span test).2

def nextLine (c : Cursor) (count : Nat) : Cursor :=
  ⟨⟨c.mark.index + count, c.mark.line + 1, 0⟩, c.rest.drop count⟩

/-- Pass a line break, if there is one, and give its text. -/
def takeBreak (c : Cursor) : List Char × Cursor :=
  match c.rest with
  | '\r' :: '\n' :: _ => (['\n'], c.nextLine 2)
  | b :: _ => if isBreak b then ([plainBreak b], c.nextLine 1) else ([], c)
  | [] => ([], c)

def skipBreak (c : Cursor) : Cursor := c.takeBreak.2

/-- Pass spaces and tabs, and a comment after them. -/
def skipComment (c : Cursor) : Cursor :=
  let c := c.skipWhile isGap
  if c.rest.head? = some '#' then c.skipWhile (!isBreak ·) else c

/-- Pass a byte order mark at the start of a line. It counts as a column. -/
def skipMark (c : Cursor) : Cursor :=
  if c.mark.column = 0 ∧ c.rest.head? = some byteOrderMark then c.advance 1 else c

def startsWith (c : Cursor) (text : List Char) : Bool := text.isPrefixOf c.rest

/-- Three dashes or dots at the start of a line, with nothing joined to them. -/
def atDocumentIndicator (c : Cursor) : Bool :=
  c.mark.column == 0 && (c.startsWith ['-', '-', '-'] || c.startsWith ['.', '.', '.']) &&
    endsWord (c.rest.drop 3)

end Cursor

end SchemaTidy.Yaml
