/-! Differences of two sequences by divide and conquer. What they have in common at both ends is
set aside; then the shortest edit script is sought from both ends at once, and where the two
searches meet the sequences are split. -/

namespace SchemaTidy.Difference

variable {α : Type} [BEq α]

/-- The items from `start` up to `stop`. -/
structure Range where
  start : Nat
  stop : Nat
deriving DecidableEq, Repr

def Range.size (r : Range) : Nat := r.stop - r.start

/-- How many items from `i` and from `j` on are equal, one by one, up to a limit. -/
def equalFrom (old new : Array α) (i j : Nat) : (limit : Nat) → Nat
  | 0 => 0
  | limit + 1 =>
    match old[i]?, new[j]? with
    | some x, some y => if x == y then equalFrom old new (i + 1) (j + 1) limit + 1 else 0
    | _, _ => 0

/-- How many items before `i` and before `j` are equal, one by one, up to a limit. -/
def equalBefore (old new : Array α) (i j : Nat) : (limit : Nat) → Nat
  | 0 => 0
  | limit + 1 =>
    match old[i - 1]?, new[j - 1]? with
    | some x, some y => if x == y then equalBefore old new (i - 1) (j - 1) limit + 1 else 0
    | _, _ => 0

/-- How many items two ranges have in common at their starts. -/
def commonStart (old new : Array α) (a b : Range) : Nat :=
  equalFrom old new a.start b.start (min a.size b.size)

/-- How many items two ranges have in common at their ends. -/
def commonEnd (old new : Array α) (a b : Range) : Nat :=
  equalBefore old new a.stop b.stop (min a.size b.size)

/-! ## Searching from both ends -/

/-- For each diagonal of the edit graph how far the search has come on it. Diagonals count
from `-offset` on. -/
structure Reach where
  offset : Nat
  cells : Array Nat

namespace Reach

def get (r : Reach) (diagonal : Int) : Nat := r.cells.getD (diagonal + r.offset).toNat 0

def set (r : Reach) (diagonal : Int) (x : Nat) : Reach :=
  { r with cells := r.cells.setIfInBounds (diagonal + r.offset).toNat x }

def start (bound : Nat) : Reach := (⟨bound + 1, Array.replicate (2 * bound + 4) 0⟩ : Reach).set 1 0

/-- Where a path of one edit more comes to on a diagonal, before it follows equal items. Of two
paths the one that has come further is taken; on the upper edge a path can only insert. -/
def step (r : Reach) (edits : Nat) (diagonal : Int) : Nat :=
  if diagonal = -edits ∨ (diagonal ≠ edits ∧ r.get (diagonal - 1) < r.get (diagonal + 1)) then
    r.get (diagonal + 1)
  else r.get (diagonal - 1) + 1

end Reach

/-- The diagonals that can be reached by a number of edits, highest first. -/
def diagonals (edits : Nat) : List Int :=
  (List.range (edits + 1)).map fun (k : Nat) => (edits : Int) - 2 * (k : Int)

/-- Two searches, from the start and from the end; the sizes of the ranges; and how far their
last diagonals are apart. -/
structure Searches where
  forward : Reach
  backward : Reach

/-- A search ends when it has met the other one, and then says where to split. -/
abbrev Meeting (σ : Type) := Except (Nat × Nat) σ

private def isOdd (delta : Int) : Bool := delta % 2 != 0

def forwardStep (old new : Array α) (a b : Range) (edits : Nat) (s : Searches) (k : Int) :
    Meeting Searches :=
  let delta : Int := a.size - b.size
  let x := s.forward.step edits k
  let y := ((x : Int) - k).toNat
  let run := commonStart old new ⟨a.start + x, a.stop⟩ ⟨b.start + y, b.stop⟩
  let reached := if x < a.size ∧ y < b.size then x + run else x
  let s := { s with forward := s.forward.set k reached }
  if isOdd delta && (k - delta).natAbs < edits && a.size ≤ reached + s.backward.get (delta - k) then
    .error (a.start + x, b.start + y)
  else .ok s

def backwardStep (old new : Array α) (a b : Range) (edits : Nat) (s : Searches) (k : Int) :
    Meeting Searches :=
  let delta : Int := a.size - b.size
  let x := s.backward.step edits k
  let y := ((x : Int) - k).toNat
  let run := commonEnd old new ⟨a.start, a.stop - x⟩ ⟨b.start, b.stop - y⟩
  let run := if x < a.size ∧ y < b.size then run else 0
  let s := { s with backward := s.backward.set k (x + run) }
  if !isOdd delta && (k - delta).natAbs ≤ edits &&
      a.size ≤ x + run + s.forward.get (delta - k) then
    .error (a.stop - (x + run), b.stop - (y + run))
  else .ok s

private def search (old new : Array α) (a b : Range) : Nat → Nat → Searches → Option (Nat × Nat)
  | 0, _, _ => none
  | fuel + 1, edits, s =>
    let round : Meeting Searches := do
      let s ← (diagonals edits).foldlM (forwardStep old new a b edits) s
      (diagonals edits).foldlM (backwardStep old new a b edits) s
    match round with
    | .error split => some split
    | .ok s => search old new a b fuel (edits + 1) s

/-- Where to split two ranges that have nothing in common at their ends. -/
def middle (old new : Array α) (a b : Range) : Option (Nat × Nat) :=
  let bound := (a.size + b.size + 1) / 2 + 1
  search old new a b bound 0 ⟨.start bound, .start bound⟩

/-! ## Edit scripts -/

inductive OpKind where
  | equal
  | delete
  | insert
  | replace
deriving DecidableEq, Repr

/-- A step of an edit script: which items it takes from the old sequence and which it puts
there. -/
structure Op where
  kind : OpKind
  oldStart : Nat
  oldSize : Nat
  newStart : Nat
  newSize : Nat
deriving DecidableEq, Repr

def Op.equal (old new size : Nat) : Op := ⟨.equal, old, size, new, size⟩

def Op.delete (a : Range) (new : Nat) : Op := ⟨.delete, a.start, a.size, new, 0⟩

def Op.insert (old : Nat) (b : Range) : Op := ⟨.insert, old, 0, b.start, b.size⟩

/-- The edit script of two ranges. -/
def script (old new : Array α) : Nat → Range → Range → List Op
  | 0, a, b => [.delete a b.start, .insert a.start b]
  | fuel + 1, a, b =>
    let head := commonStart old new a b
    let opening := if head = 0 then [] else [Op.equal a.start b.start head]
    let a : Range := ⟨a.start + head, a.stop⟩
    let b : Range := ⟨b.start + head, b.stop⟩
    let tail := commonEnd old new a b
    let a : Range := ⟨a.start, a.stop - tail⟩
    let b : Range := ⟨b.start, b.stop - tail⟩
    let closing := if tail = 0 then [] else [Op.equal a.stop b.stop tail]
    let inner :=
      if a.size = 0 ∧ b.size = 0 then []
      else if b.size = 0 then [.delete a b.start]
      else if a.size = 0 then [.insert a.start b]
      else
        match middle old new a b with
        | some (x, y) =>
          script old new fuel ⟨a.start, x⟩ ⟨b.start, y⟩ ++ script old new fuel ⟨x, a.stop⟩ ⟨y, b.stop⟩
        | none => [.delete a b.start, .insert a.start b]
    opening ++ inner ++ closing

end SchemaTidy.Difference
