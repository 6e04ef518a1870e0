import SchemaTidy.Difference.Snake

/-! Making an edit script compact. Each deletion, and then each insertion, is moved up and then
down as far as the items allow, and joined with its like on the way. -/

namespace SchemaTidy.Difference

variable {α : Type} [BEq α]

namespace Op

def oldRange (op : Op) : Range := ⟨op.oldStart, op.oldStart + op.oldSize⟩

def newRange (op : Op) : Range := ⟨op.newStart, op.newStart + op.newSize⟩

def isEmpty (op : Op) : Bool := op.oldSize == 0 && op.newSize == 0

/-- Change the size of a step; an insertion has no old items, and a deletion no new ones. -/
private def resize (op : Op) (f : Nat → Nat) : Op :=
  { op with
    oldSize := if op.kind = .insert then op.oldSize else f op.oldSize
    newSize := if op.kind = .delete then op.newSize else f op.newSize }

def growRight (op : Op) (n : Nat) : Op := op.resize (· + n)

def shrinkLeft (op : Op) (n : Nat) : Op := op.resize (· - n)

def shiftLeft (op : Op) (n : Nat) : Op :=
  { op with oldStart := op.oldStart - n, newStart := op.newStart - n }

def shiftRight (op : Op) (n : Nat) : Op :=
  { op with oldStart := op.oldStart + n, newStart := op.newStart + n }

def growLeft (op : Op) (n : Nat) : Op := (op.shiftLeft n).growRight n

def shrinkRight (op : Op) (n : Nat) : Op := (op.shiftRight n).shrinkLeft n

/-- One step out of two of a kind. -/
def join (first second : Op) : Op :=
  first.growRight (if second.kind = .delete then second.oldSize else second.newSize)

end Op

/-- A step that is being moved, with the steps before it, nearest first, and those after it. -/
structure Focus where
  before : List Op
  op : Op
  after : List Op

/-- Put what a step has slid over in front of the equal items after it. -/
private def addAfter (extra : Op) : List Op → List Op
  | next :: rest =>
    if next.kind = .equal then next.growLeft extra.oldSize :: rest else extra :: next :: rest
  | [] => [extra]

/-- Put what a step has slid over behind the equal items before it. -/
private def addBefore (extra : Op) : List Op → List Op
  | previous :: rest =>
    if previous.kind = .equal then previous.growRight extra.oldSize :: rest
    else extra :: previous :: rest
  | [] => [extra]

private def keepFilled (op : Op) (ops : List Op) : List Op := if op.isEmpty then ops else op :: ops

/-- Move a step up. An insertion slides over equal items that end like it. -/
def moveUp (old new : Array α) : Nat → Focus → Focus
  | 0, f => f
  | fuel + 1, f =>
    match f.before with
    | [] => f
    | previous :: before =>
      if previous.kind = .equal then
        let slid := commonEnd old new previous.oldRange f.op.newRange
        if slid ≠ 0 then
          let extra := Op.equal (previous.oldRange.stop - slid) (f.op.newRange.stop - slid) slid
          moveUp old new fuel
            ⟨keepFilled (previous.shrinkLeft slid) before, f.op.shiftLeft slid,
              addAfter extra f.after⟩
        else if previous.isEmpty then moveUp old new fuel { f with before }
        else f
      else if previous.kind = f.op.kind then
        moveUp old new fuel { f with before, op := previous.join f.op }
      else moveUp old new fuel { f with before, after := previous :: f.after }

/-- Move a step down. An insertion slides over equal items that start like it. -/
def moveDown (old new : Array α) : Nat → Focus → Focus
  | 0, f => f
  | fuel + 1, f =>
    match f.after with
    | [] => f
    | next :: after =>
      if next.kind = .equal then
        let slid := commonStart old new next.oldRange f.op.newRange
        if slid ≠ 0 then
          let extra := Op.equal next.oldStart f.op.newStart slid
          moveDown old new fuel
            ⟨addBefore extra f.before, f.op.shiftRight slid,
              keepFilled (next.shrinkRight slid) after⟩
        else if next.isEmpty then moveDown old new fuel { f with after }
        else f
      else if next.kind = f.op.kind then
        moveDown old new fuel { f with op := f.op.join next, after }
      else moveDown old new fuel { f with before := next :: f.before, after }

/-- Move all steps of one kind, from the first to the last. -/
private def moveAll (old new : Array α) (kind : OpKind) (reach : Nat) :
    Nat → List Op → List Op → List Op
  | 0, before, after => before.reverse ++ after
  | fuel + 1, before, after =>
    match after with
    | [] => before.reverse
    | op :: after =>
      if op.kind = kind then
        let f := moveDown old new reach (moveUp old new reach ⟨before, op, after⟩)
        moveAll old new kind reach fuel (f.op :: f.before) f.after
      else moveAll old new kind reach fuel (op :: before) after

/-- No step can be moved further than there are steps and items. -/
def compact (old new : Array α) (ops : List Op) : List Op :=
  let reach := old.size + new.size + ops.length + 2
  let rounds := reach * reach
  let ops := moveAll old new .delete reach rounds [] ops
  moveAll old new .insert reach rounds [] ops

/-! ## Changes -/

/-- Steps between equal items, seen as one: its deletions and its insertions. -/
structure Pending where
  deleted : Option Op
  inserted : Option Op

def Pending.none : Pending := ⟨.none, .none⟩

def Pending.ops (p : Pending) : List Op :=
  match p.deleted, p.inserted with
  | some d, some i => [⟨.replace, d.oldStart, d.oldSize, i.newStart, i.newSize⟩]
  | some d, .none => [d]
  | .none, some i => [i]
  | .none, .none => []

private def joinTo (first : Option Op) (second : Op) : Op :=
  match first with
  | some op => op.join second
  | none => second

/-- Deletions and insertions that stand side by side become one replacement, and equal items that
stand side by side one step. -/
def mergeFrom : Pending → Option Op → List Op → List Op
  | p, equal, [] => equal.toList ++ p.ops
  | p, equal, op :: rest =>
    match op.kind with
    | .delete => equal.toList ++ mergeFrom { p with deleted := joinTo p.deleted op } none rest
    | .insert => equal.toList ++ mergeFrom { p with inserted := joinTo p.inserted op } none rest
    | _ => p.ops ++ mergeFrom .none (some (joinTo equal op)) rest

def merge (ops : List Op) : List Op := mergeFrom .none none ops

/-- The changes from one sequence to another. -/
def changes (old new : Array α) : List Op :=
  let ops := script old new (old.size + new.size + 2) ⟨0, old.size⟩ ⟨0, new.size⟩
  merge (compact old new ops)

end SchemaTidy.Difference
