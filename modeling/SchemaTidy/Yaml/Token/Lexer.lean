import SchemaTidy.Yaml.Token.Tag
import SchemaTidy.Yaml.Scalar.Block

/-! From a text to its tokens. A key needs no sign in front of it: what may be one is remembered
until a colon comes, and the tokens that open it are then put in before it. A token is handed
on only when no key can start at it any more. -/

namespace SchemaTidy.Yaml

/-- A place where a key may have started: the number of the token there and its position. A
required one begins a line of a block mapping. -/
structure KeyStart where
  required : Bool
  number : Nat
  mark : Mark
deriving Repr

/-- `keys` has an entry for the block context and one for each open bracket, innermost first. -/
structure Lexer where
  cursor : Cursor
  handedOn : Nat
  queue : List Token
  indent : Int
  indents : List Int
  keys : List (Option KeyStart)
  keyAllowed : Bool

namespace Lexer

def start (c : Cursor) : Lexer :=
  ⟨c, 0, [⟨.streamStart, c.mark, c.mark⟩], -1, [], [none], true⟩

def inFlow (lx : Lexer) : Bool := lx.keys.length > 1

def column (lx : Lexer) : Int := lx.cursor.mark.column

def fault (lx : Lexer) (problem : Problem) : Except Fault α :=
  .error (.misread problem lx.cursor.mark none)

def push (lx : Lexer) (t : Token) : Lexer := { lx with queue := lx.queue ++ [t] }

/-- Put a token in before the token of this number. -/
def insert (lx : Lexer) (number : Nat) (t : Token) : Lexer :=
  let (before, after) := lx.queue.splitAt (number - lx.handedOn)
  { lx with queue := before ++ t :: after }

/-! ## Indentation -/

/-- Open a block collection at a column deeper than the open ones. Its token goes before the
token of the given number, or to the end. -/
def roll (lx : Lexer) (column : Int) (number : Option Nat) (kind : TokenKind) (mark : Mark) :
    Lexer :=
  if lx.inFlow || column ≤ lx.indent then lx
  else
    let opened := { lx with indents := lx.indent :: lx.indents, indent := column }
    let token : Token := ⟨kind, mark, mark⟩
    match number with
    | some number => opened.insert number token
    | none => opened.push token

def closeBlocks (lx : Lexer) (column : Int) : List Int → Lexer
  | [] => { lx with indents := [] }
  | outer :: more =>
    if column < lx.indent then
      let mark := lx.cursor.mark
      closeBlocks { lx.push ⟨.blockEnd, mark, mark⟩ with indent := outer } column more
    else { lx with indents := outer :: more }

/-- Close the block collections that are indented deeper than a column. -/
def unroll (lx : Lexer) (column : Int) : Lexer :=
  if lx.inFlow then lx else lx.closeBlocks column lx.indents

/-! ## Keys without a sign -/

def noColon (lx : Lexer) (key : KeyStart) : Fault :=
  .during .simpleKey key.mark .noSimpleKeyColon lx.cursor.mark

/-- A key ends on its own line, within 1024 characters. -/
def isStale (lx : Lexer) (key : KeyStart) : Bool :=
  key.mark.line < lx.cursor.mark.line || key.mark.index + 1024 < lx.cursor.mark.index

/-- Give up the key starts that no colon can reach any more. -/
def dropStale (lx : Lexer) : Except Fault Lexer :=
  let stale := lx.keys.filterMap fun key => key.filter lx.isStale
  match stale.find? (·.required) with
  | some key => .error (lx.noColon key)
  | none => .ok { lx with keys := lx.keys.map fun key => key.filter (!lx.isStale ·) }

/-- Give up the key start of the innermost context. -/
def dropKey (lx : Lexer) : Except Fault Lexer :=
  match lx.keys with
  | some key :: outer =>
    if key.required then .error (lx.noColon key) else .ok { lx with keys := none :: outer }
  | _ => .ok lx

/-- Remember that a key may start here. -/
def saveKey (lx : Lexer) : Except Fault Lexer :=
  if !lx.keyAllowed then .ok lx
  else do
    let required := !lx.inFlow && lx.indent == lx.column
    let key : KeyStart := ⟨required, lx.handedOn + lx.queue.length, lx.cursor.mark⟩
    let lx ← lx.dropKey
    .ok { lx with keys := some key :: lx.keys.drop 1 }

/-! ## One token -/

/-- Push a token of `count` characters that starts at the cursor. -/
def pushSign (lx : Lexer) (kind : TokenKind) (count : Nat) : Lexer :=
  let after := lx.cursor.advance count
  { lx.push ⟨kind, lx.cursor.mark, after.mark⟩ with cursor := after }

def pushToken (lx : Lexer) (read : Except Fault (Token × Cursor)) : Except Fault Lexer := do
  let (token, cursor) ← read
  .ok { lx.push token with cursor }

def pushScalar (lx : Lexer) (style : ScalarStyle) (read : Except Fault Scalar.Scanned) :
    Except Fault Lexer := do
  let s ← read
  .ok { lx.push ⟨.scalar style s.text, lx.cursor.mark, s.stop⟩ with
    cursor := s.cursor, keyAllowed := lx.keyAllowed || s.broken }

def allowKey (allowed : Bool) (lx : Lexer) : Lexer := { lx with keyAllowed := allowed }

def streamEnd (lx : Lexer) : Except Fault Lexer := do
  let m := lx.cursor.mark
  let m := if m.column = 0 then m else ⟨m.index, m.line + 1, 0⟩
  let lx ← ({ lx with cursor := ⟨m, lx.cursor.rest⟩ }.unroll (-1)).dropKey
  .ok ((lx.allowKey false).pushSign .streamEnd 0)

def directive (lx : Lexer) : Except Fault Lexer := do
  let lx ← (lx.unroll (-1)).dropKey
  (lx.allowKey false).pushToken (Token.scanDirective lx.cursor)

def documentIndicator (lx : Lexer) (kind : TokenKind) : Except Fault Lexer := do
  let lx ← (lx.unroll (-1)).dropKey
  .ok ((lx.allowKey false).pushSign kind 3)

def flowStart (lx : Lexer) (kind : TokenKind) : Except Fault Lexer := do
  let lx ← lx.saveKey
  .ok (({ lx with keys := none :: lx.keys }.allowKey true).pushSign kind 1)

def flowEnd (lx : Lexer) (kind : TokenKind) : Except Fault Lexer := do
  let lx ← lx.dropKey
  let keys := if lx.inFlow then lx.keys.drop 1 else lx.keys
  .ok (({ lx with keys }.allowKey false).pushSign kind 1)

def flowEntry (lx : Lexer) : Except Fault Lexer := do
  let lx ← lx.dropKey
  .ok ((lx.allowKey true).pushSign .flowEntry 1)

def blockEntry (lx : Lexer) : Except Fault Lexer := do
  if !lx.inFlow && !lx.keyAllowed then lx.fault .misplacedSequenceEntry
  else
    let lx ← (lx.roll lx.column none .blockSequenceStart lx.cursor.mark).dropKey
    .ok ((lx.allowKey true).pushSign .blockEntry 1)

def key (lx : Lexer) : Except Fault Lexer := do
  if !lx.inFlow && !lx.keyAllowed then lx.fault .misplacedKey
  else
    let lx ← (lx.roll lx.column none .blockMappingStart lx.cursor.mark).dropKey
    .ok ((lx.allowKey (!lx.inFlow)).pushSign .key 1)

def value (lx : Lexer) : Except Fault Lexer :=
  match lx.keys with
  | some key :: outer =>
    let lx := lx.insert key.number ⟨.key, key.mark, key.mark⟩
    let lx := lx.roll key.mark.column (some key.number) .blockMappingStart key.mark
    .ok (({ lx with keys := none :: outer }.allowKey false).pushSign .value 1)
  | _ =>
    if !lx.inFlow && !lx.keyAllowed then lx.fault .misplacedValue
    else
      let lx := lx.roll lx.column none .blockMappingStart lx.cursor.mark
      .ok ((lx.allowKey (!lx.inFlow)).pushSign .value 1)

def anchor (lx : Lexer) (isAlias : Bool) : Except Fault Lexer := do
  let lx ← lx.saveKey
  (lx.allowKey false).pushToken (Token.scanAnchor isAlias lx.cursor)

def tag (lx : Lexer) : Except Fault Lexer := do
  let lx ← lx.saveKey
  (lx.allowKey false).pushToken (Token.scanTag lx.inFlow lx.cursor)

def blockScalar (lx : Lexer) (style : ScalarStyle) : Except Fault Lexer := do
  let lx ← lx.dropKey
  (lx.allowKey true).pushScalar style (Scalar.block (style == .folded) lx.indent lx.cursor)

def quotedScalar (lx : Lexer) (quote : Char) (style : ScalarStyle) : Except Fault Lexer := do
  let lx ← lx.saveKey
  (lx.allowKey false).pushScalar style (Scalar.quoted quote lx.cursor)

def plainScalar (lx : Lexer) : Except Fault Lexer := do
  let lx ← lx.saveKey
  (lx.allowKey false).pushScalar .plain (Scalar.plain lx.inFlow (lx.indent + 1) lx.cursor)

/-- The characters that have a meaning of their own at the start of a token. -/
def isIndicator (c : Char) : Bool := "-?:,[]\x7b\x7d#&*!|>'\"%@\x60".toList.contains c

/-- Whether a plain scalar may start with this character, given what follows it. -/
def startsPlain (inFlow : Bool) (c : Char) (more : List Char) : Bool :=
  if c == '-' then !more.head?.any isGap
  else if c == '?' || c == ':' then !inFlow && !endsWord more
  else !isGap c && !isBreak c && !isIndicator c

/-- Read the token that starts with the character `c`. -/
def token (lx : Lexer) (c : Char) (more : List Char) : Except Fault Lexer :=
  let apart := endsWord more
  match c with
  | '[' => lx.flowStart .flowSequenceStart
  | '\x7b' => lx.flowStart .flowMappingStart
  | ']' => lx.flowEnd .flowSequenceEnd
  | '\x7d' => lx.flowEnd .flowMappingEnd
  | ',' => lx.flowEntry
  | '*' => lx.anchor true
  | '&' => lx.anchor false
  | '!' => lx.tag
  | '\'' => lx.quotedScalar c .singleQuoted
  | '"' => lx.quotedScalar c .doubleQuoted
  | _ =>
    if c == '-' && apart then lx.blockEntry
    else if c == '?' && (lx.inFlow || apart) then lx.key
    else if c == ':' && (lx.inFlow || apart) then lx.value
    else if c == '|' && !lx.inFlow then lx.blockScalar .literal
    else if c == '>' && !lx.inFlow then lx.blockScalar .folded
    else if startsPlain lx.inFlow c more then lx.plainScalar
    else .error (.during .nextToken lx.cursor.mark .cannotStartToken lx.cursor.mark)

/-! ## The whole text -/

/-- Pass blanks, comments and line breaks, and byte order marks at the start of lines. A tab is
passed only where no key may start. -/
def skipBlanks : Nat → Lexer → Lexer
  | 0, lx => lx
  | fuel + 1, lx =>
    let tabs := lx.inFlow || !lx.keyAllowed
    let c := lx.cursor.skipMark.skipWhile fun ch => ch == ' ' || (tabs && ch == '\t')
    let c := if c.rest.head? = some '#' then c.skipWhile (!isBreak ·) else c
    if c.rest.head?.any isBreak then
      skipBlanks fuel { lx with cursor := c.skipBreak, keyAllowed := lx.keyAllowed || !lx.inFlow }
    else { lx with cursor := c }

/-- Read one more token, with the block ends that come before it. -/
def next (lx : Lexer) : Except Fault Lexer := do
  let lx ← (skipBlanks (lx.cursor.rest.length + 1) lx).dropStale
  let lx := lx.unroll lx.column
  match lx.cursor.rest with
  | [] => lx.streamEnd
  | c :: more =>
    if c == '%' && lx.cursor.mark.column == 0 then lx.directive
    else if lx.cursor.atDocumentIndicator then
      lx.documentIndicator (if c == '-' then .documentStart else .documentEnd)
    else lx.token c more

/-- Whether the first token of the queue may still turn out to be a key. -/
def mayOpenKey (lx : Lexer) : Bool :=
  lx.keys.any fun key => key.any (·.number == lx.handedOn)

/-- All tokens up to the end of the text or the first fault. -/
def run : Nat → Lexer → List Token × Option Fault
  | 0, _ => ([], none)
  | fuel + 1, lx =>
    let step (e : Except Fault Lexer) : List Token × Option Fault :=
      match e with
      | .ok lx => run fuel lx
      | .error f => ([], some f)
    match lx.queue with
    | [] => step lx.next
    | t :: queue =>
      match lx.dropStale with
      | .error f => ([], some f)
      | .ok lx =>
        if lx.mayOpenKey then step lx.next
        else if t.kind = .streamEnd then ([t], none)
        else
          let (tokens, f) := run fuel { lx with queue, handedOn := lx.handedOn + 1 }
          (t :: tokens, f)

end Lexer

/-! ## Decoding -/

/-- Control characters are forbidden, but for tab, line feed, carriage return and next line. -/
def isAllowed (c : Char) : Bool :=
  let n := c.toNat
  n == 0x09 || n == 0x0A || n == 0x0D || (0x20 ≤ n && n ≤ 0x7E) || n == 0x85 ||
    (0xA0 ≤ n && n ≤ 0xFFFD) || 0x10000 ≤ n

/-- The byte offset of the first forbidden character. -/
def forbiddenAt : Nat → List Char → Option Nat
  | _, [] => none
  | offset, c :: cs => if isAllowed c then forbiddenAt (offset + c.utf8Size) cs else some offset

/-- The tokens of a text, and the fault that ended them, if any. A byte order mark in front of the
text does not count as a character. -/
def tokens (text : List Char) : List Token × Option Fault :=
  match forbiddenAt 0 text with
  | some offset => ([], some (.controlCharacter offset))
  | none =>
    let text := if text.head? = some byteOrderMark then text.drop 1 else text
    Lexer.run (8 * (text.length + 4)) (Lexer.start ⟨.zero, text⟩)

end SchemaTidy.Yaml
