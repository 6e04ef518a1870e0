import SchemaTidy.Yaml.Cursor

/-! The gap between two words of a scalar that may run over several lines. Without a line break
it is kept; one line break is read as a space, and of more all but the first are kept. -/

namespace SchemaTidy.Yaml

/-- `first` is the first line break of the gap. A gap after an escaped line break is broken and
has none. -/
structure Gap where
  broken : Bool
  blanks : List Char
  first : List Char
  more : List Char
deriving Repr

namespace Gap

def empty : Gap := ⟨false, [], [], []⟩

def afterEscapedBreak : Gap := ⟨true, [], [], []⟩

def addBlank (g : Gap) (c : Char) : Gap :=
  if g.broken then g else { g with blanks := g.blanks ++ [c] }

def addBreak (g : Gap) (b : List Char) : Gap :=
  if g.broken then { g with more := g.more ++ b } else ⟨true, [], b, []⟩

/-- What the gap adds to the scalar. -/
def text (g : Gap) : List Char :=
  if !g.broken then g.blanks
  else if g.first = ['\n'] then (if g.more.isEmpty then [' '] else g.more)
  else g.first ++ g.more

/-- Read on through spaces, tabs and line breaks. A tab that comes after a break and before
column `indent` is left for the caller to refuse. -/
def scan (indent : Int) : Nat → Gap → Cursor → Gap × Cursor
  | 0, g, c => (g, c)
  | fuel + 1, g, c =>
    match c.rest with
    | [] => (g, c)
    | ch :: _ =>
      if isGap ch then
        if g.broken && ch == '\t' && (c.mark.column : Int) < indent then (g, c)
        else scan indent fuel (g.addBlank ch) (c.advance 1)
      else if isBreak ch then
        let (b, c) := c.takeBreak
        scan indent fuel (g.addBreak b) c
      else (g, c)

def read (indent : Int) (g : Gap) (c : Cursor) : Gap × Cursor := scan indent c.rest.length g c

end Gap

end SchemaTidy.Yaml
