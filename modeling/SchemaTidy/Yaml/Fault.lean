/-! What is wrong with a text that is no YAML: the problem and where it was met, and what was
being read at the time and where that began. -/

namespace SchemaTidy.Yaml

/-- A position in a text; lines and columns count from zero, and columns count characters. -/
structure Mark where
  index : Nat
  line : Nat
  column : Nat
deriving DecidableEq, Repr

def Mark.zero : Mark := ⟨0, 0, 0⟩

/-- The place in words; the very beginning of a text is not named. -/
def Mark.place (m : Mark) : String :=
  if m.line = 0 ∧ m.column = 0 then ""
  else s!" at line {m.line + 1} column {m.column + 1}"

inductive Problem where
  | noSimpleKeyColon
  | cannotStartToken
  | misplacedSequenceEntry
  | misplacedKey
  | misplacedValue
  | unknownDirective
  | noDirectiveName
  | nonAlphabeticalName
  | noLineEnd
  | noVersionDot
  | noVersionNumber
  | longVersionNumber
  | noWhitespace
  | noWhitespaceOrBreak
  | noTagBang
  | noTagUri
  | noEscapedOctet
  | badLeadingOctet
  | badTrailingOctet
  | noTagClose
  | noAnchorName
  | zeroIndentation
  | tabInIndentation
  | tabBeforePlainText
  | colonBeforeIndicator
  | documentIndicatorInQuotes
  | endInQuotes
  | unknownEscape
  | noHexDigits
  | invalidCodePoint
  | noDocumentStart
  | duplicateVersion
  | incompatibleVersion
  | duplicateTagHandle
  | undefinedTagHandle
  | noNodeContent
  | noSequenceDash
  | noMappingKey
  | noSequenceComma
  | noMappingComma
deriving DecidableEq, Repr

def Problem.text : Problem → String
  | .noSimpleKeyColon => "could not find expected ':'"
  | .cannotStartToken => "found character that cannot start any token"
  | .misplacedSequenceEntry => "block sequence entries are not allowed in this context"
  | .misplacedKey => "mapping keys are not allowed in this context"
  | .misplacedValue => "mapping values are not allowed in this context"
  | .unknownDirective => "found unknown directive name"
  | .noDirectiveName => "could not find expected directive name"
  | .nonAlphabeticalName => "found unexpected non-alphabetical character"
  | .noLineEnd => "did not find expected comment or line break"
  | .noVersionDot => "did not find expected digit or '.' character"
  | .noVersionNumber => "did not find expected version number"
  | .longVersionNumber => "found extremely long version number"
  | .noWhitespace => "did not find expected whitespace"
  | .noWhitespaceOrBreak => "did not find expected whitespace or line break"
  | .noTagBang => "did not find expected '!'"
  | .noTagUri => "did not find expected tag URI"
  | .noEscapedOctet => "did not find URI escaped octet"
  | .badLeadingOctet => "found an incorrect leading UTF-8 octet"
  | .badTrailingOctet => "found an incorrect trailing UTF-8 octet"
  | .noTagClose => "did not find the expected '>'"
  | .noAnchorName => "did not find expected alphabetic or numeric character"
  | .zeroIndentation => "found an indentation indicator equal to 0"
  | .tabInIndentation => "found a tab character where an indentation space is expected"
  | .tabBeforePlainText => "found a tab character that violates indentation"
  | .colonBeforeIndicator => "found unexpected ':'"
  | .documentIndicatorInQuotes => "found unexpected document indicator"
  | .endInQuotes => "found unexpected end of stream"
  | .unknownEscape => "found unknown escape character"
  | .noHexDigits => "did not find expected hexadecimal number"
  | .invalidCodePoint => "found invalid Unicode character escape code"
  | .noDocumentStart => "did not find expected <document start>"
  | .duplicateVersion => "found duplicate %YAML directive"
  | .incompatibleVersion => "found incompatible YAML document"
  | .duplicateTagHandle => "found duplicate %TAG directive"
  | .undefinedTagHandle => "found undefined tag handle"
  | .noNodeContent => "did not find expected node content"
  | .noSequenceDash => "did not find expected '-' indicator"
  | .noMappingKey => "did not find expected key"
  | .noSequenceComma => "did not find expected ',' or ']'"
  | .noMappingComma => "did not find expected ',' or '\x7d'"

/-- What was being read. -/
inductive Activity where
  | simpleKey
  | nextToken
  | directive
  | directiveHandle
  | versionDirective
  | tagDirective
  | tagDirectiveUri
  | tag
  | tagUri
  | anchor
  | alias
  | blockScalar
  | quotedScalar
  | quotedEscape
  | plainScalar
  | node
  | blockNode
  | flowNode
  | blockSequence
  | blockMapping
  | flowSequence
  | flowMapping
deriving DecidableEq, Repr

def Activity.text : Activity → String
  | .simpleKey => "while scanning a simple key"
  | .nextToken => "while scanning for the next token"
  | .directive => "while scanning a directive"
  | .directiveHandle => "while parsing a directive"
  | .versionDirective => "while scanning a %YAML directive"
  | .tagDirective => "while scanning a %TAG directive"
  | .tagDirectiveUri => "while parsing a %TAG directive"
  | .tag => "while scanning a tag"
  | .tagUri => "while parsing a tag"
  | .anchor => "while scanning an anchor"
  | .alias => "while scanning an alias"
  | .blockScalar => "while scanning a block scalar"
  | .quotedScalar => "while scanning a quoted scalar"
  | .quotedEscape => "while parsing a quoted scalar"
  | .plainScalar => "while scanning a plain scalar"
  | .node => "while parsing a node"
  | .blockNode => "while parsing a block node"
  | .flowNode => "while parsing a flow node"
  | .blockSequence => "while parsing a block collection"
  | .blockMapping => "while parsing a block mapping"
  | .flowSequence => "while parsing a flow sequence"
  | .flowMapping => "while parsing a flow mapping"

/-- A forbidden character is met while the text is decoded, at a byte offset; all other faults
have a position, and may have begun elsewhere. -/
inductive Fault where
  | controlCharacter (offset : Nat)
  | misread (problem : Problem) (position : Mark) (context : Option (Activity × Mark))
deriving DecidableEq, Repr

def Fault.during (activity : Activity) (start : Mark) (problem : Problem) (position : Mark) : Fault :=
  .misread problem position (some (activity, start))

/-- The place of the context is left out when it is the place of the problem. -/
def Fault.message : Fault → String
  | .controlCharacter offset =>
    "control characters are not allowed" ++ (if offset = 0 then "" else s!" at position {offset}")
  | .misread problem position context =>
    let after :=
      match context with
      | none => ""
      | some (activity, start) =>
        ", " ++ activity.text ++
          (if start.line = position.line ∧ start.column = position.column then "" else start.place)
    problem.text ++ position.place ++ after

end SchemaTidy.Yaml
