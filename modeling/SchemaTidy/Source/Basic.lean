import SchemaTidy.Source.Line

/-! A text as its lines. Each line keeps its own terminator, so that putting the lines together
again gives the text back; blocks of lines are found by indentation alone. -/

namespace SchemaTidy.Source

/-- The lines of a text. Only a line feed ends a line; a carriage return before it belongs to
the terminator. -/
def lines : List Char → List Line
  | [] => []
  | '\n' :: rest => ⟨[], .lf⟩ :: lines rest
  | '\r' :: '\n' :: rest => ⟨[], .crlf⟩ :: lines rest
  | c :: rest =>
    match lines rest with
    | [] => [⟨[c], .none⟩]
    | l :: ls => { l with content := c :: l.content } :: ls

/-- The text of the lines, terminators included. -/
def text (ls : List Line) : List Char := ls.flatMap fun l => l.content ++ l.terminator.text

theorem text_lines (cs : List Char) : text (lines cs) = cs := by
  fun_induction lines cs with
  | case1 => rfl
  | case2 rest ih => simpa [text, Terminator.text] using ih
  | case3 rest ih => simpa [text, Terminator.text] using ih
  | case4 c rest _ _ hnil ih => rw [hnil] at ih; simpa [text, Terminator.text] using ih
  | case5 c rest _ _ l ls hcons ih => rw [hcons] at ih; simpa [text] using ih

/-- Whether a line ends a block whose header is indented by `indent`. -/
def Line.closes (indent : Nat) (l : Line) : Bool := l.isSignificant && l.indent ≤ indent

/-- The index of the first line after `header` that is significant and indented by at most
`parentIndent`, or the number of lines. -/
def blockEnd (ls : List Line) (header parentIndent : Nat) : Nat :=
  match (ls.drop (header + 1)).findIdx? (·.closes parentIndent) with
  | some k => header + 1 + k
  | none => ls.length

/-- First and last-but-one index of the lines under the first entry with this key at indent 0. -/
def topSection (ls : List Line) (name : List Char) : Option (Nat × Nat) :=
  (ls.findIdx? fun l => l.indent == 0 && l.hasKey name).map fun header =>
    (header + 1, blockEnd ls header 0)

/-- The lines of a top-level section with their indices; no lines if there is no section. -/
def sectionLines (ls : List Line) (name : List Char) : List (Line × Nat) :=
  match topSection ls name with
  | some (start, stop) => (ls.zipIdx.drop start).take (stop - start)
  | none => []

end SchemaTidy.Source
