import SchemaTidy.Yaml.Token.Lexer

/-! From tokens to events: scalars, aliases, and the starts and ends of collections and
documents. What may come next is a state, and what comes after the collection that is open is
kept on a stack of states. -/

namespace SchemaTidy.Yaml

inductive EventKind where
  | streamEnd
  | documentStart
  | documentEnd
  | alias (name : List Char)
  | scalar (anchor tag : Option (List Char)) (style : ScalarStyle) (text : List Char)
  | sequenceStart (anchor tag : Option (List Char))
  | sequenceEnd
  | mappingStart (anchor tag : Option (List Char))
  | mappingEnd
deriving DecidableEq, Repr

structure Event where
  kind : EventKind
  mark : Mark
deriving DecidableEq, Repr

/-- What is expected next. `first` says that the collection has just been opened. -/
inductive Expect where
  | document (implicit : Bool)
  | documentContent
  | documentEnd
  | blockNode
  | blockSequenceEntry (first : Bool)
  | indentlessEntry
  | blockMappingKey (first : Bool)
  | blockMappingValue
  | flowSequenceEntry (first : Bool)
  | pairKey
  | pairValue
  | pairEnd
  | flowMappingKey (first : Bool)
  | flowMappingValue
  | flowMappingNoValue
deriving DecidableEq, Repr

/-- `opened` holds the positions where the open collections begin, innermost first. -/
structure EventReader where
  tokens : List Token
  fault : Option Fault
  expect : Expect
  after : List Expect
  opened : List Mark
  handles : List (List Char × Option (List Char))

namespace EventReader

abbrev Step := Except Fault (Event × EventReader)

def endOfTokens (r : EventReader) : Fault :=
  r.fault.getD (.misread .noDocumentStart .zero none)

/-- The next token, which stays where it is. -/
def peek (r : EventReader) : Except Fault Token :=
  match r.tokens with
  | t :: _ => .ok t
  | [] => .error r.endOfTokens

def drop (r : EventReader) : EventReader := { r with tokens := r.tokens.drop 1 }

/-- The state for what comes after the present node. -/
def pop (r : EventReader) : EventReader :=
  match r.after with
  | e :: es => { r with expect := e, after := es }
  | [] => { r with expect := .document false }

def await (r : EventReader) (e : Expect) : EventReader := { r with after := e :: r.after }

def openAt (r : EventReader) (m : Mark) : EventReader := { r with opened := m :: r.opened }

def close (r : EventReader) : EventReader := { r.pop with opened := r.opened.drop 1 }

def openedAt (r : EventReader) : Mark := r.opened.headD .zero

/-- A value that is left out reads as an empty plain scalar. -/
def missing (r : EventReader) (expect : Expect) (m : Mark) : Step :=
  .ok (⟨.scalar none none .plain [], m⟩, { r with expect })

def collectionFault (r : EventReader) (activity : Activity) (problem : Problem) (t : Token) :
    Step :=
  .error (.during activity r.openedAt problem t.start)

/-! ## Nodes -/

/-- Anchor and tag of a node. `any` says that there is one of them, be the tag readable or not. -/
structure Properties where
  start : Mark
  anchor : Option (List Char)
  tag : Option (List Char)
  any : Bool

def resolveTag (r : EventReader) (start : Mark) (t : Token) (handle : List Char)
    (suffix : Option (List Char)) : Except Fault (Option (List Char)) :=
  if handle.isEmpty then .ok suffix
  else
    match r.handles.find? (·.1 == handle) with
    | none => .error (.during .node start .undefinedTagHandle t.start)
    | some (_, expansion) =>
      match expansion, suffix with
      | some expansion, some suffix => .ok (some (expansion ++ suffix))
      | some ('!' :: _), none | none, _ => .ok none
      | some expansion, none => .ok (some expansion)

/-- An anchor and a tag in either order; each at most once. -/
def properties (r : EventReader) : Except Fault (Properties × EventReader) := do
  let first ← r.peek
  let start := first.start
  match first.kind with
  | .anchor name =>
    let r := r.drop
    let second ← r.peek
    match second.kind with
    | .tag handle suffix =>
      let r := r.drop
      let _ ← r.peek
      let tag ← r.resolveTag start second handle suffix
      .ok (⟨start, some name, tag, true⟩, r)
    | _ => .ok (⟨start, some name, none, true⟩, r)
  | .tag handle suffix =>
    let r := r.drop
    let second ← r.peek
    let (anchor, r) :=
      match second.kind with
      | .anchor name => (some name, r.drop)
      | _ => (none, r)
    let _ ← r.peek
    let tag ← r.resolveTag start first handle suffix
    .ok (⟨start, anchor, tag, true⟩, r)
  | _ => .ok (⟨start, none, none, false⟩, r)

def scalarEvent (p : Properties) (style : ScalarStyle) (text : List Char) : Event :=
  ⟨.scalar p.anchor p.tag style text, p.start⟩

/-- A node of the block context, or of the flow context. Where `indentless` holds, a dash may
start a sequence that is indented like the key before it. -/
def node (r : EventReader) (inBlock indentless : Bool) : Step := do
  let first ← r.peek
  match first.kind with
  | .alias name => .ok (⟨.alias name, first.start⟩, r.drop.pop)
  | _ =>
    let (p, r) ← r.properties
    let t ← r.peek
    match t.kind with
    | .scalar style text => .ok (scalarEvent p style text, r.drop.pop)
    | .flowSequenceStart =>
      .ok (⟨.sequenceStart p.anchor p.tag, p.start⟩, { r with expect := .flowSequenceEntry true })
    | .flowMappingStart =>
      .ok (⟨.mappingStart p.anchor p.tag, p.start⟩, { r with expect := .flowMappingKey true })
    | kind =>
      if indentless && kind == .blockEntry then
        .ok (⟨.sequenceStart p.anchor p.tag, p.start⟩, { r with expect := .indentlessEntry })
      else if inBlock && kind == .blockSequenceStart then
        .ok (⟨.sequenceStart p.anchor p.tag, p.start⟩,
          { r with expect := .blockSequenceEntry true })
      else if inBlock && kind == .blockMappingStart then
        .ok (⟨.mappingStart p.anchor p.tag, p.start⟩, { r with expect := .blockMappingKey true })
      else if p.any then .ok (scalarEvent p .plain [], r.pop)
      else
        let activity := if inBlock then .blockNode else .flowNode
        .error (.during activity p.start .noNodeContent t.start)

/-! ## Documents -/

def defaultHandles : List (List Char × Option (List Char)) :=
  [(['!'], some ['!']), (['!', '!'], some "tag:yaml.org,2002:".toList)]

/-- The directives before a document; handles that they do not define have their default. -/
def directives (versioned : Bool) (handles : List (List Char × Option (List Char))) :
    List Token → EventReader → Except Fault EventReader
  | [], r => .error r.endOfTokens
  | t :: ts, r =>
    match t.kind with
    | .version major minor =>
      if versioned then .error (.misread .duplicateVersion t.start none)
      else if major ≠ 1 ∨ (minor ≠ 1 ∧ minor ≠ 2) then
        .error (.misread .incompatibleVersion t.start none)
      else directives true handles ts r
    | .tagHandle handle expansion =>
      if handles.any (·.1 == handle) then .error (.misread .duplicateTagHandle t.start none)
      else directives versioned (handles ++ [(handle, expansion)]) ts r
    | _ => .ok { r with tokens := t :: ts, handles := handles ++ defaultHandles }

def startsBare : TokenKind → Bool
  | .version .. | .tagHandle .. | .documentStart | .streamEnd => false
  | _ => true

def document (r : EventReader) (implicit : Bool) : Step := do
  let r :=
    if implicit then r else { r with tokens := r.tokens.dropWhile (·.kind == .documentEnd) }
  let t ← r.peek
  if implicit && startsBare t.kind then
    .ok (⟨.documentStart, t.start⟩,
      { r with expect := .blockNode, after := .documentEnd :: r.after, handles := defaultHandles })
  else if t.kind = .streamEnd then .ok (⟨.streamEnd, t.start⟩, r.drop)
  else
    let r ← directives false [] r.tokens r
    let marker ← r.peek
    if marker.kind = .documentStart then
      .ok (⟨.documentStart, t.start⟩, { r.drop.await .documentEnd with expect := .documentContent })
    else .error (.misread .noDocumentStart marker.start none)

def documentContent (r : EventReader) : Step := do
  let t ← r.peek
  match t.kind with
  | .version .. | .tagHandle .. | .documentStart | .documentEnd | .streamEnd =>
    let r := r.pop
    r.missing r.expect t.start
  | _ => r.node true false

def documentEnd (r : EventReader) : Step := do
  let t ← r.peek
  let r := if t.kind = .documentEnd then r.drop else r
  .ok (⟨.documentEnd, t.start⟩, { r with expect := .document false, handles := [] })

/-! ## Block collections -/

def blockSequenceEntry (r : EventReader) (first : Bool) : Step := do
  let r ← if first then do pure (r.drop.openAt (← r.peek).start) else pure r
  let t ← r.peek
  match t.kind with
  | .blockEntry =>
    let r := r.drop
    let next ← r.peek
    match next.kind with
    | .blockEntry | .blockEnd => r.missing (.blockSequenceEntry false) t.stop
    | _ => (r.await (.blockSequenceEntry false)).node true false
  | .blockEnd => .ok (⟨.sequenceEnd, t.start⟩, r.close.drop)
  | _ => r.collectionFault .blockSequence .noSequenceDash t

def indentlessEntry (r : EventReader) : Step := do
  let t ← r.peek
  match t.kind with
  | .blockEntry =>
    let r := r.drop
    let next ← r.peek
    match next.kind with
    | .blockEntry | .key | .value | .blockEnd => r.missing .indentlessEntry t.stop
    | _ => (r.await .indentlessEntry).node true false
  | _ => .ok (⟨.sequenceEnd, t.start⟩, r.pop)

def blockMappingKey (r : EventReader) (first : Bool) : Step := do
  let r ← if first then do pure (r.drop.openAt (← r.peek).start) else pure r
  let t ← r.peek
  match t.kind with
  | .key =>
    let r := r.drop
    let next ← r.peek
    match next.kind with
    | .key | .value | .blockEnd => r.missing .blockMappingValue t.stop
    | _ => (r.await .blockMappingValue).node true true
  | .blockEnd => .ok (⟨.mappingEnd, t.start⟩, r.close.drop)
  | _ => r.collectionFault .blockMapping .noMappingKey t

def blockMappingValue (r : EventReader) : Step := do
  let t ← r.peek
  match t.kind with
  | .value =>
    let r := r.drop
    let next ← r.peek
    match next.kind with
    | .key | .value | .blockEnd => r.missing (.blockMappingKey false) t.stop
    | _ => (r.await (.blockMappingKey false)).node true true
  | _ => r.missing (.blockMappingKey false) t.start

/-! ## Flow collections -/

/-- Pass the comma before all entries but the first. -/
def flowComma (r : EventReader) (first : Bool) (activity : Activity) (problem : Problem) :
    Except Fault EventReader := do
  let t ← r.peek
  if first then .ok r
  else if t.kind = .flowEntry then .ok r.drop
  else .error (.during activity r.openedAt problem t.start)

def flowSequenceEntry (r : EventReader) (first : Bool) : Step := do
  let r ← if first then do pure (r.drop.openAt (← r.peek).start) else pure r
  let t ← r.peek
  if t.kind = .flowSequenceEnd then .ok (⟨.sequenceEnd, t.start⟩, r.close.drop)
  else
    let r ← r.flowComma first .flowSequence .noSequenceComma
    let t ← r.peek
    match t.kind with
    | .key => .ok (⟨.mappingStart none none, t.start⟩, { r.drop with expect := .pairKey })
    | .flowSequenceEnd => .ok (⟨.sequenceEnd, t.start⟩, r.close.drop)
    | _ => (r.await (.flowSequenceEntry false)).node false false

/-- The key of a one-pair mapping in a flow sequence. Where the key is left out, the token after
it is lost. -/
def pairKey (r : EventReader) : Step := do
  let t ← r.peek
  match t.kind with
  | .value | .flowEntry | .flowSequenceEnd => r.drop.missing .pairValue t.stop
  | _ => (r.await .pairValue).node false false

def pairValue (r : EventReader) : Step := do
  let t ← r.peek
  match t.kind with
  | .value =>
    let r := r.drop
    let next ← r.peek
    match next.kind with
    | .flowEntry | .flowSequenceEnd => r.missing .pairEnd next.start
    | _ => (r.await .pairEnd).node false false
  | _ => r.missing .pairEnd t.start

def pairEnd (r : EventReader) : Step := do
  let t ← r.peek
  .ok (⟨.mappingEnd, t.start⟩, { r with expect := .flowSequenceEntry false })

def flowMappingKey (r : EventReader) (first : Bool) : Step := do
  let r ← if first then do pure (r.drop.openAt (← r.peek).start) else pure r
  let t ← r.peek
  if t.kind = .flowMappingEnd then .ok (⟨.mappingEnd, t.start⟩, r.close.drop)
  else
    let r ← r.flowComma first .flowMapping .noMappingComma
    let t ← r.peek
    match t.kind with
    | .key =>
      let r := r.drop
      let next ← r.peek
      match next.kind with
      | .value | .flowEntry | .flowMappingEnd => r.missing .flowMappingValue next.start
      | _ => (r.await .flowMappingValue).node false false
    | .flowMappingEnd => .ok (⟨.mappingEnd, t.start⟩, r.close.drop)
    | _ => (r.await .flowMappingNoValue).node false false

def flowMappingValue (r : EventReader) : Step := do
  let t ← r.peek
  match t.kind with
  | .value =>
    let r := r.drop
    let next ← r.peek
    match next.kind with
    | .flowEntry | .flowMappingEnd => r.missing (.flowMappingKey false) next.start
    | _ => (r.await (.flowMappingKey false)).node false false
  | _ => r.missing (.flowMappingKey false) t.start

def flowMappingNoValue (r : EventReader) : Step := do
  let t ← r.peek
  r.missing (.flowMappingKey false) t.start

/-! ## The whole stream -/

def step (r : EventReader) : Step :=
  match r.expect with
  | .document implicit => r.document implicit
  | .documentContent => r.documentContent
  | .documentEnd => r.documentEnd
  | .blockNode => r.node true false
  | .blockSequenceEntry first => r.blockSequenceEntry first
  | .indentlessEntry => r.indentlessEntry
  | .blockMappingKey first => r.blockMappingKey first
  | .blockMappingValue => r.blockMappingValue
  | .flowSequenceEntry first => r.flowSequenceEntry first
  | .pairKey => r.pairKey
  | .pairValue => r.pairValue
  | .pairEnd => r.pairEnd
  | .flowMappingKey first => r.flowMappingKey first
  | .flowMappingValue => r.flowMappingValue
  | .flowMappingNoValue => r.flowMappingNoValue

def run : Nat → EventReader → List Event × Option Fault
  | 0, _ => ([], none)
  | fuel + 1, r =>
    match r.step with
    | .error f => ([], some f)
    | .ok (e, r) =>
      if e.kind = .streamEnd then ([e], none)
      else
        let (events, f) := run fuel r
        (e :: events, f)

/-- A token takes part in at most four events. -/
def events (tokens : List Token) (fault : Option Fault) : List Event × Option Fault :=
  run (4 * tokens.length + 8)
    ⟨tokens.dropWhile (·.kind == .streamStart), fault, .document true, [], [], []⟩

end EventReader

/-- The events of a text, and the fault that ended them, if any. -/
def events (text : List Char) : List Event × Option Fault :=
  let (tokens, fault) := tokens text
  EventReader.events tokens fault

end SchemaTidy.Yaml
