import SchemaTidy.Text.HiddenTable

/-! Quoting a text for a message: between double quotes, with escapes for quotes, backslashes
and all characters that do not show. -/

namespace SchemaTidy.Text

def isHidden (c : Char) : Bool :=
  hiddenRanges.any fun (first, last) => first ≤ c.toNat && c.toNat ≤ last

private def codeEscape (c : Char) : List Char :=
  "\\u\x7b".toList ++ Nat.toDigits 16 c.toNat ++ ['\x7d']

def quotedChar (c : Char) : List Char :=
  match c with
  | '\x00' => ['\\', '0']
  | '\t' => ['\\', 't']
  | '\n' => ['\\', 'n']
  | '\r' => ['\\', 'r']
  | '"' => ['\\', '"']
  | '\\' => ['\\', '\\']
  | _ => if isHidden c then codeEscape c else [c]

def quoted (cs : List Char) : List Char := '"' :: cs.flatMap quotedChar ++ ['"']

end SchemaTidy.Text
