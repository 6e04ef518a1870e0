/-! Similar names. A name that is missing is compared with the declared ones: its characters
must occur in a declared name in their order, and the score of the best such alignment says how
near the declared name is. Matches at the start of words and matches in a row score higher. -/

namespace SchemaTidy.Similarity

inductive CharClass where
  | hardSeparator
  | softSeparator
  | digit
  | upper
  | lower
deriving DecidableEq, Repr

/-- Characters beyond ASCII, and all else that is nothing of the other classes, are lower. -/
def CharClass.of (c : Char) : CharClass :=
  if " /\\|()[]\x7b\x7d".toList.contains c then .hardSeparator
  else if c.isDigit then .digit
  else if 'A' ≤ c ∧ c ≤ 'Z' then .upper
  else if 'a' ≤ c ∧ c ≤ 'z' then .lower
  else if '!' ≤ c ∧ c ≤ '~' then .softSeparator
  else .lower

/-- What a match of a character is worth for its place behind the character before it. -/
def bonusAfter (before current : CharClass) : Int :=
  match before, current with
  | .hardSeparator, _ => 8
  | .softSeparator, _ => 7
  | .lower, .upper | .digit, .upper => 6
  | _, _ => 0

/-- The bonus of each character of a name; that of the first counts twice. -/
def bonuses (name : List Char) : List Int :=
  match name.map CharClass.of with
  | [] => []
  | c :: cs => 2 * 8 :: (List.zipWith bonusAfter (c :: cs) cs)

/-- How characters are compared: exactly, or without regard to ASCII letter case. -/
structure CaseMode where
  exact : Bool

/-- Letter case counts when the name that is looked for has an upper-case ASCII letter. -/
def CaseMode.of (wanted : List Char) : CaseMode := ⟨wanted.any Char.isUpper⟩

def CaseMode.agrees (mode : CaseMode) (a b : Char) : Bool :=
  if mode.exact then a == b else a.toLower == b.toLower

/-- The places of the wanted characters in a name, each as early as it can be; none if they do not
all occur in their order. -/
def earliestFrom (mode : CaseMode) (place : Nat) : List Char → List Char → Option (List Nat)
  | [], _ => some []
  | _ :: _, [] => none
  | w :: ws, c :: cs =>
    if mode.agrees w c then (earliestFrom mode (place + 1) ws cs).map (place :: ·)
    else earliestFrom mode (place + 1) (w :: ws) cs

def earliest? (wanted name : List Char) : Option (List Nat) :=
  earliestFrom (.of wanted) 0 wanted name

/-! ## Alignment -/

/-- The best scores of alignments that match, or that pass over, a character, and the bonus that
a match after it inherits. -/
structure Cell where
  matched : Int
  passed : Int
  bonus : Int
deriving Inhabited

def unreachable : Int := -32768

/-- Two rows of cells, used in turn for the wanted characters. The cells of a board are used
again for the next name, and a bonus that was left in one may count there. -/
structure Board where
  columns : Nat
  cells : Array Cell

namespace Board

def fresh : Cell := ⟨unreachable, unreachable, 0⟩

def get (b : Board) (row column : Nat) : Cell := b.cells.getD (row % 2 * b.columns + column) fresh

def set (b : Board) (row column : Nat) (cell : Cell) : Board :=
  { b with cells := b.cells.setIfInBounds (row % 2 * b.columns + column) cell }

/-- The board for a name of `length` characters, whose first match is at `place` at the earliest. -/
def forName (cells : Array Cell) (length place : Nat) : Board :=
  let columns := length + 1
  let kept := cells.extract 0 (2 * columns)
  let b : Board := ⟨columns, kept ++ Array.replicate (2 * columns - kept.size) fresh⟩
  let b := b.set 1 place fresh
  (List.range columns).foldl (fun b column => b.set 0 column ⟨unreachable, -1, 0⟩) b

/-- Fill in the cell behind the name's character `c`, whose own bonus is given. -/
def fill (mode : CaseMode) (wanted : Char) (row : Nat) (b : Board) (column : Nat) (c : Char)
    (bonus : Int) : Board :=
  let left := b.get row (column - 1)
  let diagonal := b.get (row + 1) (column - 1)
  let passed := max (left.matched - 4) (left.passed - 1)
  if mode.agrees wanted c then
    let inherited := max (max left.bonus bonus) 4
    let gain := if wanted = c then 16 else 14
    let matched := max (diagonal.matched + inherited) (diagonal.passed + bonus) + gain
    let b := b.set row (column - 1) { left with bonus := inherited }
    b.set row column { b.get row column with matched, passed }
  else b.set row column ⟨unreachable, passed, 0⟩

/-- Fill in the row of a wanted character, from the earliest place of its match on. -/
def fillRow (mode : CaseMode) (letters : List ((Char × Int) × Nat)) (b : Board)
    (row : Nat) (wanted : Char) (place : Nat) : Board :=
  (letters.drop place).foldl
    (fun b ((c, bonus), column) => fill mode wanted row b (column + 1) c bonus) b

end Board

/-- The score of a name, and the cells for the next one. Nothing wanted scores zero. -/
def score (wanted name : List Char) (cells : Array Cell) : Option Int × Array Cell :=
  match wanted, earliest? wanted name with
  | [], _ => (some 0, cells)
  | _, some (place :: places) =>
    let mode := CaseMode.of wanted
    let letters := (name.zip (bonuses name)).zipIdx
    let rows := (wanted.zip (place :: places)).zipIdx
    let board := rows.foldl
      (fun b ((w, place), row) => b.fillRow mode letters (row + 1) w place)
      (Board.forName cells name.length place)
    let last := (place :: places).getLastD place
    let scores := (List.range' last (board.columns - last)).map fun column =>
      (board.get wanted.length column).matched
    (some (scores.foldl max unreachable), board.cells)
  | _, _ => (none, cells)

/-! ## Suggestions -/

/-- A name is eligible when it is at most two bytes longer or shorter than the missing one. -/
def eligible (missing name : String) : Bool :=
  missing.utf8ByteSize ≤ name.utf8ByteSize + 2 && name.utf8ByteSize ≤ missing.utf8ByteSize + 2

/-- The scores of the eligible names that match at all, in their order. -/
def scores (missing : String) : Array Cell → List String → List (String × Int)
  | _, [] => []
  | cells, name :: names =>
    if eligible missing name then
      match score missing.toList name.toList cells with
      | (some s, cells) => (name, s) :: scores missing cells names
      | (none, cells) => scores missing cells names
    else scores missing cells names

/-- The first of the names with the highest score. -/
def best? : List (String × Int) → Option (String × Int)
  | [] => none
  | (name, s) :: rest =>
    match best? rest with
    | some (other, t) => if s < t then some (other, t) else some (name, s)
    | none => some (name, s)

/-- The declared name that is most like a missing one. -/
def suggest (missing : String) (names : List String) : Option String :=
  (best? (scores missing #[] names)).map (·.1)

end SchemaTidy.Similarity
