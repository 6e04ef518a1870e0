import SchemaTidy.Yaml.Scalar.Plain
import SchemaTidy.Decimal.Numeral

/-! Quoted scalars. Between single quotes a quote is written twice; between double quotes a
backslash starts an escape. Lines are joined as in plain scalars. -/

namespace SchemaTidy.Yaml.Scalar

/-- The character of an escape that is one letter long. -/
def namedEscape? : Char → Option Char
  | '0' => some '\x00'
  | 'a' => some '\x07'
  | 'b' => some '\x08'
  | 't' | '\t' => some '\t'
  | 'n' => some '\n'
  | 'v' => some '\x0b'
  | 'f' => some '\x0c'
  | 'r' => some '\r'
  | 'e' => some '\x1b'
  | ' ' => some ' '
  | '"' => some '"'
  | '/' => some '/'
  | '\\' => some '\\'
  | 'N' => some '\u0085'
  | '_' => some '\u00a0'
  | 'L' => some '\u2028'
  | 'P' => some '\u2029'
  | _ => none

/-- How many hexadecimal digits follow the letter of an escape. -/
def escapeLength? : Char → Option Nat
  | 'x' => some 2
  | 'u' => some 4
  | 'U' => some 8
  | _ => none

/-- The character of the escape whose backslash the cursor is at. -/
def escape (start : Mark) (c : Cursor) : Except Fault (Char × Cursor) :=
  match c.rest.drop 1 with
  | [] => .error (.during .quotedEscape start .unknownEscape c.mark)
  | letter :: rest =>
    match namedEscape? letter, escapeLength? letter with
    | some ch, _ => .ok (ch, c.advance 2)
    | none, none => .error (.during .quotedEscape start .unknownEscape c.mark)
    | none, some count =>
      let digits := rest.take count
      match Decimal.ofBase? 16 digits with
      | some code =>
        if digits.length < count then
          .error (.during .quotedEscape start .noHexDigits (c.advance 2).mark)
        else if (0xD800 ≤ code ∧ code ≤ 0xDFFF) ∨ 0x10FFFF < code then
          .error (.during .quotedEscape start .invalidCodePoint (c.advance 2).mark)
        else .ok (Char.ofNat code, c.advance (2 + count))
      | none => .error (.during .quotedEscape start .noHexDigits (c.advance 2).mark)

/-- Read on up to the closing quote; `read` is what was read before, last character first. -/
def quotedFrom (quote : Char) (start : Mark) :
    Nat → List Char → Cursor → Except Fault (List Char × Cursor)
  | 0, _, c => .error (.during .quotedScalar start .endInQuotes c.mark)
  | fuel + 1, read, c =>
    if c.atDocumentIndicator then
      .error (.during .quotedScalar start .documentIndicatorInQuotes c.mark)
    else
      match c.rest with
      | [] => .error (.during .quotedScalar start .endInQuotes c.mark)
      | ch :: rest =>
        if ch = quote then
          if quote = '\'' ∧ rest.head? = some quote then
            quotedFrom quote start fuel (quote :: read) (c.advance 2)
          else .ok (read.reverse, c.advance 1)
        else if quote = '"' ∧ ch = '\\' then
          if rest.head?.any isBreak then
            let (gap, c) := Gap.afterEscapedBreak.read 0 (c.advance 1).skipBreak
            quotedFrom quote start fuel (gap.text.reverse ++ read) c
          else do
            let (ch, c) ← escape start c
            quotedFrom quote start fuel (ch :: read) c
        else if isGap ch || isBreak ch then
          let (gap, c) := Gap.empty.read 0 c
          quotedFrom quote start fuel (gap.text.reverse ++ read) c
        else quotedFrom quote start fuel (ch :: read) (c.advance 1)

/-- The scalar whose opening quote the cursor is at. -/
def quoted (quote : Char) (c : Cursor) : Except Fault Scanned := do
  let (text, cursor) ← quotedFrom quote c.mark (c.rest.length + 1) [] (c.advance 1)
  .ok ⟨text, cursor.mark, cursor, false⟩

end SchemaTidy.Yaml.Scalar
