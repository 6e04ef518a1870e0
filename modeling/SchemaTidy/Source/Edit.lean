import SchemaTidy.Source.Basic

/-! Replacing spans of lines. An edit touches the content of one line; the line's kind is then
read again from the new content, and its terminator stays. -/

namespace SchemaTidy.Source
open Text

structure Edit where
  line : Nat
  span : Span
  replacement : List Char
deriving DecidableEq, Repr

/-- The line with a span of its content replaced; none if the span does not fit the content. -/
def Line.splice? (l : Line) (span : Span) (replacement : List Char) : Option Line := do
  let (front, after) ← cutAt l.content span.stop
  let (before, _) ← cutAt front span.start
  some { l with content := before ++ replacement ++ after }

/-- Apply one edit. It is skipped when it would break the line, or fits no line. -/
def applyOne (ls : List Line) (e : Edit) : List Line :=
  if e.replacement.any (fun c => c == '\n' || c == '\r') then ls
  else ls.modify e.line fun l => (l.splice? e.span e.replacement).getD l

/-- Edits go by line, and from the right end of a line to the left, so that spans further left
stay valid. -/
def Edit.before (a b : Edit) : Bool :=
  a.line < b.line || (a.line == b.line && b.span.start ≤ a.span.start)

def apply (ls : List Line) (edits : List Edit) : List Line :=
  (edits.mergeSort Edit.before).foldl applyOne ls

end SchemaTidy.Source
