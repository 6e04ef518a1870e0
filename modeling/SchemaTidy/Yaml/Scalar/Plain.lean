import SchemaTidy.Yaml.Scalar.Gap

/-! Plain scalars: words without quotes, joined over lines that are indented deep enough. -/

namespace SchemaTidy.Yaml.Scalar

/-- A scalar's text, the position after its last character, and the cursor behind it. `broken`
says that a line break was passed after the last word. -/
structure Scanned where
  text : List Char
  stop : Mark
  cursor : Cursor
  broken : Bool

/-- Inside brackets a plain scalar ends at these characters. -/
def isFlowIndicator (c : Char) : Bool := ",[]\x7b\x7d".toList.contains c

/-- Inside brackets no plain scalar may hold a colon right before one of these. -/
def endsAtColon (inFlow : Bool) : List Char → Bool
  | ':' :: c :: _ => inFlow && (c == '?' || isFlowIndicator c)
  | _ => false

/-- The characters up to a gap, a colon before a gap, or, inside brackets, an indicator. -/
def plainWord (inFlow : Bool) : List Char → List Char
  | [] => []
  | c :: cs =>
    if isGap c || isBreak c then []
    else if (c == ':' && endsWord cs) || endsAtColon inFlow (c :: cs) then []
    else if inFlow && isFlowIndicator c then []
    else c :: plainWord inFlow cs

/-- Read on after a gap. `indent` is the least column of a line that goes on with the scalar. -/
def plainFrom (inFlow : Bool) (indent : Int) (start : Mark) :
    Nat → Gap → Scanned → Except Fault Scanned
  | 0, _, s => .ok s
  | fuel + 1, gap, s =>
    if s.cursor.atDocumentIndicator || s.cursor.rest.head? == some '#' then .ok s
    else
      let word := plainWord inFlow s.cursor.rest
      let s :=
        if word.isEmpty then s
        else
          let cursor := s.cursor.advance word.length
          ⟨s.text ++ gap.text ++ word, cursor.mark, cursor, false⟩
      if endsAtColon inFlow s.cursor.rest then
        .error (.during .plainScalar start .colonBeforeIndicator s.cursor.mark)
      else if !(endsWord s.cursor.rest) || s.cursor.rest.isEmpty then .ok s
      else
        let (gap, cursor) := Gap.empty.read indent s.cursor
        if gap.broken && cursor.rest.head? == some '\t' then
          .error (.during .plainScalar start .tabBeforePlainText cursor.mark)
        else
          let s := { s with cursor, broken := gap.broken }
          if !inFlow && (cursor.mark.column : Int) < indent then .ok s
          else plainFrom inFlow indent start fuel gap s

def plain (inFlow : Bool) (indent : Int) (c : Cursor) : Except Fault Scanned :=
  plainFrom inFlow indent c.mark (c.rest.length + 1) .empty ⟨[], c.mark, c, false⟩

end SchemaTidy.Yaml.Scalar
