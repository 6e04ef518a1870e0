import SchemaTidy.Yaml.Cursor

/-! Tokens of YAML: indicators, indentation made visible as block starts and ends, names and
scalars. -/

namespace SchemaTidy.Yaml

inductive ScalarStyle where
  | plain
  | singleQuoted
  | doubleQuoted
  | literal
  | folded
deriving DecidableEq, Repr

/-- The suffix of a tag is none when its escapes spell no characters. -/
inductive TokenKind where
  | streamStart
  | streamEnd
  | version (major minor : Nat)
  | tagHandle (handle : List Char) (expansion : Option (List Char))
  | documentStart
  | documentEnd
  | blockSequenceStart
  | blockMappingStart
  | blockEnd
  | flowSequenceStart
  | flowSequenceEnd
  | flowMappingStart
  | flowMappingEnd
  | blockEntry
  | flowEntry
  | key
  | value
  | alias (name : List Char)
  | anchor (name : List Char)
  | tag (handle : List Char) (suffix : Option (List Char))
  | scalar (style : ScalarStyle) (text : List Char)
deriving DecidableEq, Repr

structure Token where
  kind : TokenKind
  start : Mark
  stop : Mark
deriving DecidableEq, Repr

end SchemaTidy.Yaml
