import SchemaTidy.Yaml.Token.Basic
import SchemaTidy.Decimal.Numeral

/-! Tags, directives and anchor names: the tokens made of words and URIs. -/

namespace SchemaTidy.Yaml.Token
open Decimal (digitIn?)

/-! ## URIs -/

/-- How many octets the UTF-8 form of a character has, by its first octet; zero if it cannot be
the first. -/
def octetCount (octet : Nat) : Nat :=
  if octet < 0x80 then 1
  else if octet / 0x20 = 0x6 then 2
  else if octet / 0x10 = 0xE then 3
  else if octet / 0x08 = 0x1E then 4
  else 0

/-- The character that octets encode; none if they are no shortest form, or encode none. -/
def ofOctets : List Nat → Option Char
  | [] => none
  | first :: more =>
    let lead :=
      match more.length with
      | 0 => first
      | 1 => first % 0x20
      | 2 => first % 0x10
      | _ => first % 0x08
    let code := more.foldl (fun n octet => n * 0x40 + octet % 0x40) lead
    let least := [0, 0x80, 0x800, 0x10000].getD more.length 0
    if least ≤ code ∧ code.isValidChar then some (Char.ofNat code) else none

private def octet? (c : Cursor) : Option Nat :=
  match c.rest with
  | '%' :: high :: low :: _ => do some (16 * (← digitIn? 16 high) + (← digitIn? 16 low))
  | _ => none

private def moreOctets (activity : Activity) (start : Mark) :
    Nat → Cursor → Except Fault (List Nat × Cursor)
  | 0, c => .ok ([], c)
  | count + 1, c =>
    match octet? c with
    | none => .error (.during activity start .noEscapedOctet c.mark)
    | some octet =>
      if octet / 0x40 ≠ 2 then .error (.during activity start .badTrailingOctet c.mark)
      else do
        let (octets, c) ← moreOctets activity start count (c.advance 3)
        .ok (octet :: octets, c)

/-- The character that percent-escapes spell. -/
def uriEscape (activity : Activity) (start : Mark) (c : Cursor) :
    Except Fault (Option Char × Cursor) :=
  match octet? c with
  | none => .error (.during activity start .noEscapedOctet c.mark)
  | some first =>
    match octetCount first with
    | 0 => .error (.during activity start .badLeadingOctet c.mark)
    | count + 1 => do
      let (more, c) ← moreOctets activity start count (c.advance 3)
      .ok (ofOctets (first :: more), c)

/-- The characters of URIs; commas and square brackets only where no list can be meant. -/
def isUriChar (withBrackets : Bool) (c : Char) : Bool :=
  isWordChar c || ";/?:@&=+$.!~*'()".toList.contains c || (withBrackets && ",[]".toList.contains c)

private def uriFrom (withBrackets : Bool) (activity : Activity) (start : Mark) :
    Nat → Option (List Char) → Cursor → Except Fault (Option (List Char) × Cursor)
  | 0, text, c => .ok (text, c)
  | fuel + 1, text, c =>
    match c.rest with
    | '%' :: _ => do
      let (ch, c) ← uriEscape activity start c
      let text := text.bind fun text => ch.map fun ch => text ++ [ch]
      uriFrom withBrackets activity start fuel text c
    | ch :: _ =>
      if isUriChar withBrackets ch then
        uriFrom withBrackets activity start fuel (text.map (· ++ [ch])) (c.advance 1)
      else .ok (text, c)
    | [] => .ok (text, c)

/-- A URI that goes on from `head`. It may be empty only if something was read before it. -/
def uri (withBrackets : Bool) (activity : Activity) (start : Mark) (headRead : Bool)
    (head : List Char) (c : Cursor) : Except Fault (Option (List Char) × Cursor) := do
  let (text, after) ← uriFrom withBrackets activity start (c.rest.length + 1) (some head) c
  if !headRead && after.rest.length == c.rest.length then
    .error (.during activity start .noTagUri c.mark)
  else .ok (text, after)

/-! ## Tags -/

/-- An exclamation mark, word characters, and a second exclamation mark if there is one. -/
private def handleText (c : Cursor) : List Char × Cursor :=
  let (word, c) := (c.advance 1).span isWordChar
  match c.rest with
  | '!' :: _ => ('!' :: word ++ ['!'], c.advance 1)
  | _ => ('!' :: word, c)

private def isNamedHandle (handle : List Char) : Bool :=
  handle.length ≥ 2 && handle.getLast? == some '!'

private def verbatimTag (c : Cursor) : Except Fault (TokenKind × Cursor) := do
  let (text, after) ← uri true .tagUri c.mark false [] (c.advance 2)
  if after.rest.head? = some '>' then .ok (.tag [] text, after.advance 1)
  else .error (.during .tag c.mark .noTagClose after.mark)

/-- A tag with a named handle, or with the handle `!`. The tag `!` alone has no handle. -/
private def shorthandTag (c : Cursor) : Except Fault (TokenKind × Cursor) := do
  let (handle, after) := handleText c
  if isNamedHandle handle then
    let (suffix, after) ← uri false .tagUri c.mark false [] after
    .ok (.tag handle suffix, after)
  else
    let (suffix, after) ← uri false .tagUri c.mark true (handle.drop 1) after
    .ok (if suffix = some [] then .tag [] (some ['!']) else .tag ['!'] suffix, after)

/-- The tag whose exclamation mark the cursor is at. -/
def scanTag (inFlow : Bool) (c : Cursor) : Except Fault (Token × Cursor) := do
  let (kind, after) ← if c.startsWith ['!', '<'] then verbatimTag c else shorthandTag c
  if (inFlow && after.rest.head? == some ',') || endsWord after.rest then
    .ok (⟨kind, c.mark, after.mark⟩, after)
  else .error (.during .tag c.mark .noWhitespaceOrBreak after.mark)

/-! ## Anchors -/

/-- A name ends at a gap or at one of these. -/
private def endsName (cs : List Char) : Bool :=
  endsWord cs || cs.head?.any fun c => "?:,]\x7d%@\x60".toList.contains c

/-- The anchor or alias whose sign the cursor is at. -/
def scanAnchor (isAlias : Bool) (c : Cursor) : Except Fault (Token × Cursor) :=
  let (name, after) := (c.advance 1).span isWordChar
  if name.isEmpty || !endsName after.rest then
    .error (.during (if isAlias then .alias else .anchor) c.mark .noAnchorName after.mark)
  else .ok (⟨if isAlias then .alias name else .anchor name, c.mark, after.mark⟩, after)

/-! ## Directives -/

private def versionNumber (start : Mark) (c : Cursor) : Except Fault (Nat × Cursor) :=
  let digits := c.rest.takeWhile Char.isDigit
  if 9 < digits.length then
    .error (.during .versionDirective start .longVersionNumber (c.advance 9).mark)
  else if digits.isEmpty then .error (.during .versionDirective start .noVersionNumber c.mark)
  else .ok (Decimal.ofDigits digits, c.advance digits.length)

private def versionValue (start : Mark) (c : Cursor) : Except Fault (TokenKind × Cursor) := do
  let (major, c) ← versionNumber start (c.skipWhile isGap)
  if c.rest.head? ≠ some '.' then .error (.during .versionDirective start .noVersionDot c.mark)
  else
    let (minor, c) ← versionNumber start (c.advance 1)
    .ok (.version major minor, c)

private def directiveHandle (start : Mark) (c : Cursor) : Except Fault (List Char × Cursor) :=
  if c.rest.head? ≠ some '!' then .error (.during .directive start .noTagBang c.mark)
  else
    let (handle, after) := handleText c
    if isNamedHandle handle || handle == ['!'] then .ok (handle, after)
    else .error (.during .directiveHandle start .noTagBang after.mark)

private def tagValue (start : Mark) (c : Cursor) : Except Fault (TokenKind × Cursor) := do
  let (handle, c) ← directiveHandle start (c.skipWhile isGap)
  if !c.rest.head?.any isGap then .error (.during .tagDirective start .noWhitespace c.mark)
  else
    let (expansion, c) ← uri true .tagDirectiveUri start false [] (c.skipWhile isGap)
    if endsWord c.rest then .ok (.tagHandle handle expansion, c)
    else .error (.during .tagDirective start .noWhitespaceOrBreak c.mark)

private def directiveValue (start : Mark) (name : List Char) (c : Cursor) :
    Except Fault (TokenKind × Cursor) :=
  if name = "YAML".toList then versionValue start c
  else if name = "TAG".toList then tagValue start c
  else .error (.during .directive start .unknownDirective c.mark)

/-- The directive whose percent sign the cursor is at, with the rest of its line. -/
def scanDirective (c : Cursor) : Except Fault (Token × Cursor) := do
  let start := c.mark
  let (name, c) := (c.advance 1).span isWordChar
  if name.isEmpty then .error (.during .directive start .noDirectiveName c.mark)
  else if !endsWord c.rest then .error (.during .directive start .nonAlphabeticalName c.mark)
  else
    let (kind, c) ← directiveValue start name c
    let stop := c.mark
    let c := c.skipComment
    if endsLine c.rest then .ok (⟨kind, start, stop⟩, c.skipBreak)
    else .error (.during .directive start .noLineEnd c.mark)

end SchemaTidy.Yaml.Token
