import SchemaTidy.Yaml.Scalar.Quoted

/-! Block scalars: the lines below a `|` or a `>` that are indented deep enough. A folded scalar
joins lines that start with no blank by a space. -/

namespace SchemaTidy.Yaml.Scalar

/-- Which of the line breaks at the end of a block scalar are kept. -/
inductive Chomping where
  | strip
  | clip
  | keep
deriving DecidableEq, Repr

def chomping? : List Char → Option Chomping
  | '+' :: _ => some .keep
  | '-' :: _ => some .strip
  | _ => none

def takeChomping (c : Cursor) : Option Chomping × Cursor :=
  match chomping? c.rest with
  | some chomping => (some chomping, c.advance 1)
  | none => (none, c)

def takeIncrement (start : Mark) (c : Cursor) : Except Fault (Nat × Cursor) :=
  match c.rest with
  | ch :: _ =>
    if ch = '0' then .error (.during .blockScalar start .zeroIndentation c.mark)
    else if ch.isDigit then .ok (Decimal.digitValue ch, c.advance 1)
    else .ok (0, c)
  | [] => .ok (0, c)

/-- The chomping and indentation indicators, in either order. An increment of zero says that
there is none. -/
def indicators (start : Mark) (c : Cursor) : Except Fault (Chomping × Nat × Cursor) := do
  match takeChomping c with
  | (some chomping, c) =>
    let (increment, c) ← takeIncrement start c
    .ok (chomping, increment, c)
  | (none, c) =>
    let (increment, c) ← takeIncrement start c
    let (chomping, c) := if increment = 0 then (none, c) else takeChomping c
    .ok (chomping.getD .clip, increment, c)

/-- Empty lines: their breaks, the position after the last of them, the cursor at the next line
that holds something, and the deepest column reached. -/
structure Breaks where
  text : List Char
  stop : Mark
  cursor : Cursor
  deepest : Nat

/-- Pass indentation and empty lines. An indentation of zero is not known yet. -/
def breaksFrom (indent : Nat) (start : Mark) : Nat → Breaks → Except Fault Breaks
  | 0, b => .ok b
  | fuel + 1, b =>
    let spaces := (b.cursor.rest.takeWhile (· == ' ')).length
    let count := if indent = 0 then spaces else min spaces (indent - b.cursor.mark.column)
    let c := b.cursor.advance count
    let deepest := max b.deepest c.mark.column
    if (indent = 0 ∨ c.mark.column < indent) ∧ c.rest.head? = some '\t' then
      .error (.during .blockScalar start .tabInIndentation c.mark)
    else if c.rest.head?.any isBreak then
      let (text, c) := c.takeBreak
      breaksFrom indent start fuel ⟨b.text ++ text, c.mark, c, deepest⟩
    else .ok { b with cursor := c, deepest }

def breaks (indent : Nat) (start : Mark) (c : Cursor) : Except Fault Breaks :=
  breaksFrom indent start (c.rest.length + 1) ⟨[], c.mark, c, 0⟩

/-- What was read of a block scalar, last character first; the break that ended the last line,
and whether that line started with a blank. -/
structure BlockText where
  read : List Char
  lastBreak : List Char
  blankLine : Bool

/-- The text between the last line and the next. -/
def BlockText.joint (b : BlockText) (folded blankNext : Bool) (empty : List Char) : List Char :=
  if folded && b.lastBreak == ['\n'] && !b.blankLine && !blankNext then
    if empty.isEmpty then [' '] else empty
  else b.lastBreak ++ empty

/-- Read the lines that are indented by `indent`. -/
def blockLines (folded : Bool) (indent : Nat) (start : Mark) :
    Nat → BlockText → Breaks → Except Fault (BlockText × Breaks)
  | 0, b, empty => .ok (b, empty)
  | fuel + 1, b, empty => do
    let c := empty.cursor
    if c.mark.column ≠ indent ∨ c.rest.isEmpty then .ok (b, empty)
    else
      let blank := c.rest.head?.any isGap
      let (line, c) := c.span (!isBreak ·)
      let (ending, c) := c.takeBreak
      let read := line.reverse ++ (b.joint folded blank empty.text).reverse ++ b.read
      blockLines folded indent start fuel ⟨read, ending, blank⟩ (← breaks indent start c)

def Chomping.tail (chomping : Chomping) (lastBreak empty : List Char) : List Char :=
  match chomping with
  | .strip => []
  | .clip => lastBreak
  | .keep => lastBreak ++ empty

/-- The block scalar whose indicator the cursor is at, inside a collection indented by
`parentIndent`. -/
def block (folded : Bool) (parentIndent : Int) (c : Cursor) : Except Fault Scanned := do
  let start := c.mark
  let (chomping, increment, c) ← indicators start (c.advance 1)
  let c := c.skipComment
  if !endsLine c.rest then .error (.during .blockScalar start .noLineEnd c.mark)
  else
    let c := c.skipBreak
    let known := if increment = 0 then 0 else (max parentIndent 0).toNat + increment
    let leading ← breaks known start c
    let indent :=
      if known = 0 then max (max leading.deepest (parentIndent + 1).toNat) 1 else known
    let (b, empty) ← blockLines folded indent start (c.rest.length + 1) ⟨[], [], false⟩ leading
    .ok ⟨b.read.reverse ++ chomping.tail b.lastBreak empty.text, empty.stop, empty.cursor, false⟩

end SchemaTidy.Yaml.Scalar
