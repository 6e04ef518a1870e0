import SchemaTidy.Difference.Compact

/-! The unified form of a difference between two texts: hunks of changed lines with three lines
of context around them. -/

namespace SchemaTidy.Difference

/-- The lines of a text with their terminators: a line feed, a carriage return, or both. -/
def textLines : List Char → List (List Char)
  | [] => []
  | '\r' :: '\n' :: rest => ['\r', '\n'] :: textLines rest
  | c :: rest =>
    if c = '\n' ∨ c = '\r' then [c] :: textLines rest
    else
      match textLines rest with
      | line :: more => (c :: line) :: more
      | [] => [[c]]

def contextSize : Nat := 3

/-- Keep no more equal lines than the context before the first and after the last change. -/
private def trimFirst : List Op → List Op
  | op :: rest =>
    if op.kind = .equal then op.shrinkRight (op.oldSize - contextSize) :: rest else op :: rest
  | [] => []

private def trimLast (ops : List Op) : List Op :=
  match ops.reverse with
  | op :: rest =>
    if op.kind = .equal then (op.shrinkLeft (op.oldSize - contextSize) :: rest).reverse else ops
  | [] => []

/-- Split the steps where more lines are equal than two contexts hold. -/
private def splitHunks : List Op → List Op → List (List Op)
  | group, [] => [group]
  | group, op :: rest =>
    if op.kind = .equal ∧ 2 * contextSize < op.oldSize then
      let cut := op.oldSize - contextSize
      (group ++ [op.shrinkLeft cut]) :: splitHunks [op.shrinkRight cut] rest
    else splitHunks (group ++ [op]) rest

private def changesNothing : List Op → Bool
  | [] => true
  | [op] => op.kind == .equal
  | _ => false

/-- The hunks of a difference. Only the last group can be without a change. -/
def hunks (ops : List Op) : List (List Op) :=
  match (splitHunks [] (trimLast (trimFirst ops))).reverse with
  | last :: more => (if changesNothing last then more else last :: more).reverse
  | [] => []

/-- A range in a hunk's header. An empty range begins at the line before it. -/
private def rangeText (start stop : Nat) : List Char :=
  let size := stop - start
  if size = 1 then Nat.toDigits 10 (start + 1)
  else Nat.toDigits 10 (if size = 0 then start else start + 1) ++ ',' :: Nat.toDigits 10 size

private def headerText (first last : Op) : List Char :=
  "@@ -".toList ++ rangeText first.oldStart last.oldRange.stop ++ " +".toList ++
    rangeText first.newStart last.newRange.stop ++ " @@\n".toList

/-- A line of a hunk; a line that does not end is told so. -/
private def lineText (sign : Char) (line : List Char) : List Char :=
  let ended := line.getLast?.any fun c => c == '\n' || c == '\r'
  sign :: line ++ if ended then [] else "\n\\ No newline at end of file\n".toList

private def rangeLines (sign : Char) (lines : Array (List Char)) (r : Range) : List Char :=
  (lines.extract r.start r.stop).toList.flatMap (lineText sign)

private def opText (old new : Array (List Char)) (op : Op) : List Char :=
  match op.kind with
  | .equal => rangeLines ' ' old op.oldRange
  | _ => rangeLines '-' old op.oldRange ++ rangeLines '+' new op.newRange

private def hunkText (old new : Array (List Char)) (hunk : List Op) : List Char :=
  match hunk.head?, hunk.getLast? with
  | some first, some last => headerText first last ++ hunk.flatMap (opText old new)
  | _, _ => []

/-- The difference of two texts under the names of both; nothing for equal texts. -/
def unified (oldName newName : String) (oldText newText : List Char) : List Char :=
  let old := (textLines oldText).toArray
  let new := (textLines newText).toArray
  match hunks (changes old new) with
  | [] => []
  | hunks =>
    ("--- " ++ oldName ++ "\n+++ " ++ newName ++ "\n").toList ++ hunks.flatMap (hunkText old new)

end SchemaTidy.Difference
