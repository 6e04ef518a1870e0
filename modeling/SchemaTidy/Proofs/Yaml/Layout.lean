import SchemaTidy.Proofs.Source.Editing
import SchemaTidy.Proofs.Yaml.BlockScalars

/-! # Block style

A text in block style is laid out line by line: the entries of a mapping and the items of a list
start at one column, and what is inside of them two columns deeper. A value stands on the line of
its key, or is a block scalar below it. `Lays` relates the lines of a block to what it holds, and
`Lays.tokenizes` says which tokens they are read as. -/

namespace SchemaTidy.Yaml
open Source (Line Terminator)
open Lexer
open Scalar (Header blockStyle blockText)

/-! ## Blocks -/

inductive Shape where
  | mapping
  | sequence
deriving DecidableEq

/-- A value that holds no block: it stands on one line, or is the text of a block scalar. -/
inductive Leaf where
  | inline (v : Inline)
  | text (folded : Bool) (body : List Char)

def Leaf.kinds : Leaf → List TokenKind
  | .inline v => v.kinds
  | .text folded body => [.scalar (blockStyle folded) body]

/-- What a block holds. A value that is left out is none. The items of a list that is the value of
a key may be flush with the key. -/
inductive Block : Shape → Type where
  | nil {s : Shape} : Block s
  | entry (key : Words) (value : Option Leaf) (rest : Block .mapping) : Block .mapping
  | nested (key : Words) {s : Shape} (inner : Block s) (rest : Block .mapping) : Block .mapping
  | flush (key : Words) (inner : Block .sequence) (rest : Block .mapping) : Block .mapping
  | item (value : Option Leaf) (rest : Block .sequence) : Block .sequence
  | nestedItem {s : Shape} (inner : Block s) (rest : Block .sequence) : Block .sequence

def Shape.start : Shape → TokenKind
  | .mapping => .blockMappingStart
  | .sequence => .blockSequenceStart

def Words.keyKinds (key : Words) : List TokenKind := [.key, key.kind, .value]

def valueKinds (value : Option Leaf) : List TokenKind := (value.map (·.kinds)).getD []

/-- The tokens of a block, without those for its start and its end. -/
def Block.kinds : {s : Shape} → Block s → List TokenKind
  | _, .nil => []
  | _, .entry key value rest => key.keyKinds ++ (valueKinds value ++ rest.kinds)
  | _, .nested key (s := s) inner rest =>
    key.keyKinds ++ (s.start :: (inner.kinds ++ .blockEnd :: rest.kinds))
  | _, .flush key inner rest => key.keyKinds ++ (inner.kinds ++ rest.kinds)
  | _, .item value rest => .blockEntry :: (valueKinds value ++ rest.kinds)
  | _, .nestedItem (s := s) inner rest =>
    .blockEntry :: s.start :: (inner.kinds ++ .blockEnd :: rest.kinds)

/-! ## Lines -/

/-- What stands behind a colon or a dash in a block at column `n`, and in the lines below it: a
value with spaces before it, or none. Only the lines of a block scalar are below, and other lines
come after them. -/
inductive Holds (n : Nat) : List Char → List Line → List Line → Option Leaf → Prop where
  | none {tail : List Char} {after : List Line} (htail : LineEnd tail) : Holds n tail [] after none
  | inline (k : Nat) {v : Inline} {tail : List Char} {after : List Line} (hv : v.Fits)
    (htail : LineEnd tail) :
    Holds n (List.replicate (k + 1) ' ' ++ (v.text ++ tail)) [] after (some (.inline v))
  | text (k : Nat) {h : Header} {tail : List Char} {below after : List Line}
    (hheads : h.Heads n below after) (htail : LineEnd tail) :
    Holds n (List.replicate (k + 1) ' ' ++ (h.text ++ tail)) below after
      (some (.text h.folded (blockText h.folded h.chomping (n + 2) below)))

/-- The lines of a block at a column, and the lines after them. Lines that are blank, or only a
comment, may stand anywhere; below a block scalar, blank lines are among its own. A block inside of
an item may start behind the dash. -/
inductive Lays : {s : Shape} → Nat → List Line → List Line → Block s → Prop where
  | nil {s : Shape} {n : Nat} {after : List Line} : Lays n [] after (.nil (s := s))
  | filler {s : Shape} {n : Nat} {l : Line} {ls after : List Line} {b : Block s}
    (hl : isBlankText l.content = true) (h : Lays n ls after b) : Lays n (l :: ls) after b
  | entry {n : Nat} {l : Line} {below ls after : List Line} {key : Words} {cs : List Char}
    {value : Option Leaf} {rest : Block .mapping} (hkey : key.IsKey)
    (hl : Indented l n (key.text ++ ':' :: cs)) (hcs : Holds n cs below (ls ++ after) value)
    (h : Lays n ls after rest) : Lays n (l :: (below ++ ls)) after (.entry key value rest)
  | nested {s : Shape} {n : Nat} {l : Line} {inside ls after : List Line} {key : Words}
    {tail : List Char} {inner : Block s} {rest : Block .mapping} (hkey : key.IsKey)
    (hl : Indented l n (key.text ++ ':' :: tail)) (htail : LineEnd tail)
    (hinside : Lays (n + 2) inside (ls ++ after) inner) (hinner : inner ≠ .nil)
    (h : Lays n ls after rest) : Lays n (l :: (inside ++ ls)) after (.nested key inner rest)
  | flush {n : Nat} {l : Line} {inside ls after : List Line} {key : Words} {tail : List Char}
    {inner : Block .sequence} {rest : Block .mapping} (hkey : key.IsKey)
    (hl : Indented l n (key.text ++ ':' :: tail)) (htail : LineEnd tail)
    (hinside : Lays n inside (ls ++ after) inner) (hinner : inner ≠ .nil)
    (h : Lays n ls after rest) : Lays n (l :: (inside ++ ls)) after (.flush key inner rest)
  | item {n : Nat} {l : Line} {below ls after : List Line} {cs : List Char} {value : Option Leaf}
    {rest : Block .sequence} (hl : Indented l n ('-' :: cs))
    (hcs : Holds n cs below (ls ++ after) value) (h : Lays n ls after rest) :
    Lays n (l :: (below ++ ls)) after (.item value rest)
  | itemBelow {s : Shape} {n : Nat} {l : Line} {inside ls after : List Line} {tail : List Char}
    {inner : Block s} {rest : Block .sequence} (hl : Indented l n ('-' :: tail))
    (htail : LineEnd tail) (hinside : Lays (n + 2) inside (ls ++ after) inner)
    (hinner : inner ≠ .nil) (h : Lays n ls after rest) :
    Lays n (l :: (inside ++ ls)) after (.nestedItem inner rest)
  | itemBeside {s : Shape} {n : Nat} {l first : Line} {inside ls after : List Line} {cs : List Char}
    {inner : Block s} {rest : Block .sequence} (hl : Indented l n ('-' :: ' ' :: cs))
    (hfirst : Indented first (n + 2) cs) (hterm : first.terminator = l.terminator)
    (hstart : isBlankText first.content = false)
    (hinside : Lays (n + 2) (first :: inside) (ls ++ after) inner) (h : Lays n ls after rest) :
    Lays n (l :: (inside ++ ls)) after (.nestedItem inner rest)

/-- The lines of a whole text: a block at the first column. If it holds something, a line of three
dashes may stand before it. -/
inductive LaysText : List Line → Block .mapping → Prop where
  | bare {ls : List Line} {b : Block .mapping} (h : Lays 0 ls [] b) : LaysText ls b
  | marked {front ls : List Line} {l : Line} {tail : List Char} {b : Block .mapping}
    (hfront : ∀ l ∈ front, isBlankText l.content = true)
    (hl : Indented l 0 ('-' :: '-' :: '-' :: tail)) (htail : LineEnd tail) (h : Lays 0 ls [] b)
    (hb : b ≠ .nil) : LaysText (front ++ l :: ls) b

variable {lx : Lexer} {kinds : List TokenKind} {stack : List Nat} {column n : Nat}
  {allowed : Bool} {cs tail : List Char} {below ls more : List Line} {l : Line} {s : Shape}
  {b : Block s}

theorem LaysText.lays {b : Block .mapping} (h : LaysText ls b) : ∃ inside, Lays 0 inside [] b := by
  cases h with
  | bare h => exact ⟨_, h⟩
  | marked _ _ _ h => exact ⟨_, h⟩

theorem position_of_indented {ch : Char} (h : Indented l n (ch :: cs)) (hch : ch ≠ ' ' ∧ ch ≠ '#')
    (ls : List Line) :
    position (l :: ls) = some (n, ch :: (cs ++ (l.terminator.text ++ Source.text ls))) := by
  obtain ⟨hindent, hdrop⟩ := h.cut hch.1
  have hblank : ¬ isBlankText l.content = true := by
    unfold isBlankText
    rw [hdrop]
    split
    · rename_i heq; cases heq
    · rename_i heq; exact absurd (List.cons.inj heq).1 hch.2
    · exact Bool.false_ne_true
  rw [position_cons hblank, hindent, h, List.drop_left' (List.length_replicate ..)]
  rfl

theorem Words.IsKey.exists_cons {key : Words} (hkey : key.IsKey) :
    ∃ ch cs, key.text = ch :: cs ∧ isGap ch = false ∧ isBreak ch = false ∧ ch ≠ '#' := by
  obtain ⟨ch, cs, hfirst, hgap, hbreak, hcomment, -⟩ := IsPlain.cases hkey.plain
  exact ⟨ch, cs ++ Scalar.spelled key.more, by rw [Words.text, hfirst, List.cons_append], hgap, hbreak,
    hcomment⟩

theorem position_of_key {key : Words} (hkey : key.IsKey) (h : Indented l n (key.text ++ ':' :: cs))
    (ls : List Line) :
    position (l :: ls) =
        some (n, key.text ++ ':' :: (cs ++ (l.terminator.text ++ Source.text ls))) ∧
      startsToken (key.text ++ ':' :: (cs ++ (l.terminator.text ++ Source.text ls))) = true := by
  obtain ⟨ch, ks, htext, hgap, hbreak, hcomment⟩ := hkey.exists_cons
  have hspace : ch ≠ ' ' := by rintro rfl; cases hgap
  rw [htext] at h ⊢
  refine ⟨?_, by simp [startsToken, hgap, hbreak, hcomment]⟩
  rw [position_of_indented h ⟨hspace, hcomment⟩ ls]
  simp

theorem position_of_dash (h : Indented l n ('-' :: cs)) (ls : List Line) :
    position (l :: ls) = some (n, '-' :: (cs ++ (l.terminator.text ++ Source.text ls))) :=
  position_of_indented h (by decide) ls

/-- A block that holds something starts at its column. -/
theorem Lays.position_eq (h : Lays n ls more b) :
    b = .nil ∧ position (ls ++ more) = position more ∨
      ∃ rest, position (ls ++ more) = some (n, rest) ∧ startsToken rest = true := by
  induction h with
  | nil => exact .inl ⟨rfl, rfl⟩
  | filler hl h ih => rwa [List.cons_append, position_cons_of_blank hl]
  | entry hkey hl hcs h ih => exact .inr ⟨_, position_of_key hkey hl _⟩
  | nested hkey hl htail hinside hinner h ih ih' => exact .inr ⟨_, position_of_key hkey hl _⟩
  | flush hkey hl htail hinside hinner h ih ih' => exact .inr ⟨_, position_of_key hkey hl _⟩
  | item hl hcs h ih => exact .inr ⟨_, position_of_dash hl _, rfl⟩
  | itemBelow hl htail hinside hinner h ih ih' => exact .inr ⟨_, position_of_dash hl _, rfl⟩
  | itemBeside hl hfirst hterm hstart hinside h ih ih' => exact .inr ⟨_, position_of_dash hl _, rfl⟩

theorem Lays.ne_nil (h : Lays n (l :: ls) more b) (hl : isBlankText l.content = false) : b ≠ .nil := by
  rintro rfl
  cases h with
  | filler hblank => rw [hl] at hblank; cases hblank

theorem Lays.starts (h : Lays n ls more b) (hmore : Starts more) : Starts (ls ++ more) := by
  intro column rest heq
  rcases h.position_eq with ⟨-, hpos⟩ | ⟨rest', hpos, hstart⟩
  · exact hmore column rest (hpos ▸ heq)
  · obtain ⟨rfl, rfl⟩ := Prod.mk.inj (Option.some.inj (hpos.symm.trans heq))
    exact hstart

/-- No line that follows is indented deeper than this. -/
def UpTo (n : Nat) (ls : List Line) : Prop :=
  ∀ column rest, position ls = some (column, rest) → column ≤ n

theorem UpTo.mono {m : Nat} (h : UpTo m ls) (hle : m ≤ n) : UpTo n ls :=
  fun column rest heq => Nat.le_trans (h column rest heq) hle

theorem Lays.upTo (h : Lays n ls more b) (hmore : UpTo n more) : UpTo n (ls ++ more) := by
  intro column rest heq
  rcases h.position_eq with ⟨-, hpos⟩ | ⟨rest', hpos, -⟩
  · exact hmore column rest (hpos ▸ heq)
  · obtain ⟨rfl, -⟩ := Prod.mk.inj (Option.some.inj (hpos.symm.trans heq))
    exact Nat.le_refl _

/-! ## Tokens -/

theorem floor_entered (h : floor stack ≤ n) : floor (entered stack n) = n := by
  unfold entered
  split
  · rfl
  · omega

theorem opening_of_floor {kind : TokenKind} (h : floor stack = n) : opening stack n kind = [] :=
  if_neg (by omega)

theorem entered_of_floor (h : floor stack = n) : entered stack n = stack := if_neg (by omega)

theorem Holds.endsWord {value : Option Leaf} (h : Holds n cs below ls value) (t : Terminator)
    (hlast : t = .none → below ++ ls = []) :
    endsWord (cs ++ (t.text ++ Source.text (below ++ ls))) = true := by
  cases h with
  | none htail => exact htail.endsWord (endsLine_terminator fun h => by rw [hlast h]; rfl)
  | inline k => rfl
  | text k => rfl

theorem startsToken_header (h : Header) (rest : List Char) : startsToken (h.text ++ rest) = true := by
  obtain ⟨folded, explicit, chomping⟩ := h
  cases folded <;> rfl

/-- The rest of a line behind a colon or a dash, and the lines of a value below it. -/
theorem Lexer.Stands.holds {t : Terminator} {value : Option Leaf}
    (h : Stands lx kinds stack 0 column (cs ++ (t.text ++ Source.text (below ++ ls))) allowed)
    (hcs : Holds n cs below ls value) (hfloor : floor stack = n) (hcolumn : n < column)
    (hlast : t = .none → below ++ ls = []) (hpassable : Passable (below ++ ls)) (hstart : Starts ls)
    (hupTo : value ≠ none → UpTo n ls) :
    ∃ lx', Advances lx lx' ∧ Goes lx' (kinds ++ valueKinds value) stack ls := by
  have hpos : 0 < column := Nat.zero_lt_of_lt hcolumn
  cases hcs with
  | none htail =>
    refine ⟨lx, .refl lx, ?_⟩
    rw [valueKinds, Option.map_none, Option.getD_none, List.append_nil]
    exact h.goes htail.blank hlast hpassable hstart
  | @inline k v tail _ hv htail =>
    rw [List.append_assoc, List.append_assoc] at h
    have hready := h.spaces hpos (startsToken_inline hv _)
    refine hready.inline hv (by omega) (by omega) ⟨htail, hlast, hpassable, hstart⟩ ?_
    intro column rest heq
    rw [hfloor]
    exact Int.ofNat_le.2 (hupTo (Option.some_ne_none _) column rest heq)
  | @text k header tail _ _ hheads htail =>
    rw [List.append_assoc, List.append_assoc] at h
    have hready := h.spaces hpos (startsToken_header header _)
    exact hready.blockScalar hfloor (by omega) htail hlast hpassable hstart hheads

theorem Lexer.Goes.key {key : Words} {value : Option Leaf}
    (h : Goes lx kinds stack (l :: (below ++ ls))) (hkey : key.IsKey)
    (hl : Indented l n (key.text ++ ':' :: cs)) (hcs : Holds n cs below ls value)
    (hfloor : floor stack ≤ n) (hpassable : Passable (l :: (below ++ ls))) (hstart : Starts ls)
    (hupTo : value ≠ none → UpTo n ls) :
    ∃ lx', Advances lx lx' ∧
      Goes lx' (kinds ++ (opening stack n .blockMappingStart ++ (key.keyKinds ++ valueKinds value)))
        (entered stack n) ls := by
  obtain ⟨hlast, -, hpassable⟩ := hpassable
  have hready : Ready lx kinds stack 0 n
      (key.text ++ ':' :: (cs ++ (l.terminator.text ++ Source.text (below ++ ls)))) true := by
    unfold Goes at h
    rwa [(position_of_key hkey hl (below ++ ls)).1] at h
  obtain ⟨lx₁, hadvances, hstands⟩ := hready.key hkey (hcs.endsWord l.terminator hlast) hfloor
  obtain ⟨lx₂, hadvances', hgoes⟩ :=
    hstands.holds hcs (floor_entered hfloor) (by omega) hlast hpassable hstart hupTo
  refine ⟨lx₂, hadvances.trans hadvances', ?_⟩
  simpa [Words.keyKinds, Words.kind] using hgoes

theorem Lexer.Goes.dash {value : Option Leaf} (h : Goes lx kinds stack (l :: (below ++ ls)))
    (hl : Indented l n ('-' :: cs)) (hcs : Holds n cs below ls value) (hfloor : floor stack ≤ n)
    (hpassable : Passable (l :: (below ++ ls))) (hstart : Starts ls)
    (hupTo : value ≠ none → UpTo n ls) :
    ∃ lx', Advances lx lx' ∧
      Goes lx' (kinds ++ (opening stack n .blockSequenceStart ++ .blockEntry :: valueKinds value))
        (entered stack n) ls := by
  obtain ⟨hlast, -, hpassable⟩ := hpassable
  have hready : Ready lx kinds stack 0 n
      ('-' :: (cs ++ (l.terminator.text ++ Source.text (below ++ ls)))) true := by
    unfold Goes at h
    rwa [position_of_dash hl (below ++ ls)] at h
  obtain ⟨lx₁, hadvances, hstands⟩ := hready.dash (hcs.endsWord l.terminator hlast) hfloor
  obtain ⟨lx₂, hadvances', hgoes⟩ :=
    hstands.holds hcs (floor_entered hfloor) (Nat.lt_succ_self n) hlast hpassable hstart hupTo
  refine ⟨lx₂, hadvances.trans hadvances', ?_⟩
  simpa using hgoes

/-- A dash with a block behind it: the lexer goes on as if the dash were a space. -/
theorem Lexer.Goes.dashBeside {first : Line} (h : Goes lx kinds stack (l :: ls))
    (hl : Indented l n ('-' :: ' ' :: cs)) (hfirst : Indented first (n + 2) cs)
    (hterm : first.terminator = l.terminator) (hblank : isBlankText first.content = false)
    {rest : List Char} (hposition : position (first :: ls) = some (n + 2, rest))
    (hrest : startsToken rest = true) (hfloor : floor stack ≤ n) :
    ∃ lx', Advances lx lx' ∧ Goes lx' (kinds ++ (opening stack n .blockSequenceStart ++ [.blockEntry]))
        (entered stack n) (first :: ls) := by
  have hready : Ready lx kinds stack 0 n
      ('-' :: (' ' :: cs ++ (l.terminator.text ++ Source.text ls))) true := by
    unfold Goes at h
    rwa [position_of_dash hl ls] at h
  obtain ⟨lx₁, hadvances, hstands⟩ := hready.dash rfl hfloor
  have hsame : rest = cs ++ (l.terminator.text ++ Source.text ls) := by
    rw [position_cons (by rw [hblank]; exact Bool.false_ne_true)] at hposition
    obtain ⟨hindent, hdrop⟩ := Prod.mk.inj (Option.some.inj hposition)
    rw [← hdrop, hindent, hfirst, List.drop_left' (List.length_replicate ..), hterm]
  subst hsame
  refine ⟨lx₁, hadvances, ?_⟩
  have hready' := Stands.spaces (n := 1) hstands (Nat.succ_pos _) hrest
  unfold Goes
  rw [hposition]
  simpa using hready'

/-- What a block is read as, where the lexer comes to its lines. -/
def Tokenizes {s : Shape} (n : Nat) (ls more : List Line) (b : Block s) : Prop :=
  ∀ ⦃lx : Lexer⦄ ⦃kinds : List TokenKind⦄ ⦃stack : List Nat⦄,
    floor stack ≤ n → (b = .nil → floor stack = n) → Goes lx kinds stack (ls ++ more) →
    Passable (ls ++ more) → Starts more → UpTo n more →
    ∃ lx', Advances lx lx' ∧
      Goes lx' (kinds ++ (opening stack n s.start ++ b.kinds)) (entered stack n) more

/-- A block two columns deeper is read with its start and its end. -/
theorem Tokenizes.enclosed {inner : Block s} {inside : List Line}
    (h : Tokenizes (n + 2) inside ls inner) (hinner : inner ≠ .nil)
    (hgoes : Goes lx kinds stack (inside ++ ls)) (hfloor : floor stack = n)
    (hpassable : Passable (inside ++ ls)) (hstart : Starts ls) (hupTo : UpTo n ls) :
    ∃ lx', Advances lx lx' ∧
      Goes lx' (kinds ++ (s.start :: (inner.kinds ++ [.blockEnd]))) stack ls := by
  obtain ⟨lx', hadvances, hgoes'⟩ := h (by omega) (fun h => absurd h hinner) hgoes hpassable hstart
    (hupTo.mono (Nat.le_add_right _ _))
  have hdeep : floor stack < ((n + 2 : Nat) : Int) := by omega
  rw [entered, opening, if_pos hdeep, if_pos hdeep] at hgoes'
  have hpop := hgoes'.pop fun column rest heq => Nat.lt_of_le_of_lt (hupTo column rest heq) (by omega)
  exact ⟨lx', hadvances, by simpa using hpop⟩

/-- A block goes on at its column. -/
theorem Tokenizes.again (h : Tokenizes n ls more b)
    (hgoes : Goes lx kinds stack (ls ++ more)) (hfloor : floor stack = n)
    (hpassable : Passable (ls ++ more)) (hstart : Starts more) (hupTo : UpTo n more) :
    ∃ lx', Advances lx lx' ∧ Goes lx' (kinds ++ b.kinds) stack more := by
  obtain ⟨lx', hadvances, hgoes'⟩ :=
    h (Int.le_of_eq hfloor) (fun _ => hfloor) hgoes hpassable hstart hupTo
  rw [opening_of_floor hfloor, entered_of_floor hfloor] at hgoes'
  exact ⟨lx', hadvances, hgoes'⟩

/-- **The tokens of a text in block style.** -/
theorem Lays.tokenizes (h : Lays n ls more b) : Tokenizes n ls more b := by
  induction h with
  | nil =>
    intro lx kinds stack hfloor hnil hgoes hpassable hstart hupTo
    refine ⟨lx, .refl lx, ?_⟩
    rw [opening_of_floor (hnil rfl), entered_of_floor (hnil rfl)]
    simpa [Block.kinds] using hgoes
  | filler hl h ih =>
    intro lx kinds stack hfloor hnil hgoes hpassable hstart hupTo
    exact ih hfloor hnil (hgoes.of_position (position_cons_of_blank hl).symm) hpassable.2.2 hstart
      hupTo
  | entry hkey hl hcs h ih =>
    intro lx kinds stack hfloor hnil hgoes hpassable hstart hupTo
    rw [List.cons_append, List.append_assoc] at hgoes hpassable
    obtain ⟨lx₁, hadvances, hgoes₁⟩ := hgoes.key hkey hl hcs hfloor hpassable (h.starts hstart)
      (fun _ => h.upTo hupTo)
    obtain ⟨lx₂, hadvances', hgoes₂⟩ := ih.again hgoes₁ (floor_entered hfloor)
      hpassable.2.2.of_append hstart hupTo
    refine ⟨lx₂, hadvances.trans hadvances', ?_⟩
    simpa [Block.kinds, Shape.start] using hgoes₂
  | nested hkey hl htail hinside hinner h ih ih' =>
    intro lx kinds stack hfloor hnil hgoes hpassable hstart hupTo
    rw [List.cons_append, List.append_assoc] at hgoes hpassable
    have hstart' := h.starts hstart
    have hupTo' := h.upTo hupTo
    obtain ⟨lx₁, hadvances₁, hgoes₁⟩ := @Goes.key _ _ _ _ _ [] _ _ _ none hgoes hkey hl (.none htail) hfloor
      hpassable (hinside.starts hstart') (fun h => absurd rfl h)
    obtain ⟨lx₂, hadvances₂, hgoes₂⟩ := ih.enclosed hinner hgoes₁ (floor_entered hfloor)
      hpassable.2.2 hstart' hupTo'
    obtain ⟨lx₃, hadvances₃, hgoes₃⟩ := ih'.again hgoes₂ (floor_entered hfloor)
      hpassable.2.2.of_append hstart hupTo
    refine ⟨lx₃, hadvances₁.trans (hadvances₂.trans hadvances₃), ?_⟩
    simpa [Block.kinds, Shape.start, valueKinds] using hgoes₃
  | flush hkey hl htail hinside hinner h ih ih' =>
    intro lx kinds stack hfloor hnil hgoes hpassable hstart hupTo
    rw [List.cons_append, List.append_assoc] at hgoes hpassable
    have hstart' := h.starts hstart
    have hupTo' := h.upTo hupTo
    obtain ⟨lx₁, hadvances₁, hgoes₁⟩ := @Goes.key _ _ _ _ _ [] _ _ _ none hgoes hkey hl (.none htail) hfloor
      hpassable (hinside.starts hstart') (fun h => absurd rfl h)
    obtain ⟨lx₂, hadvances₂, hgoes₂⟩ := ih.again hgoes₁ (floor_entered hfloor) hpassable.2.2 hstart'
      hupTo'
    obtain ⟨lx₃, hadvances₃, hgoes₃⟩ := ih'.again hgoes₂ (floor_entered hfloor)
      hpassable.2.2.of_append hstart hupTo
    refine ⟨lx₃, hadvances₁.trans (hadvances₂.trans hadvances₃), ?_⟩
    simpa [Block.kinds, Shape.start, valueKinds] using hgoes₃
  | item hl hcs h ih =>
    intro lx kinds stack hfloor hnil hgoes hpassable hstart hupTo
    rw [List.cons_append, List.append_assoc] at hgoes hpassable
    obtain ⟨lx₁, hadvances, hgoes₁⟩ := hgoes.dash hl hcs hfloor hpassable (h.starts hstart)
      (fun _ => h.upTo hupTo)
    obtain ⟨lx₂, hadvances', hgoes₂⟩ := ih.again hgoes₁ (floor_entered hfloor)
      hpassable.2.2.of_append hstart hupTo
    refine ⟨lx₂, hadvances.trans hadvances', ?_⟩
    simpa [Block.kinds, Shape.start] using hgoes₂
  | itemBelow hl htail hinside hinner h ih ih' =>
    intro lx kinds stack hfloor hnil hgoes hpassable hstart hupTo
    rw [List.cons_append, List.append_assoc] at hgoes hpassable
    have hstart' := h.starts hstart
    obtain ⟨lx₁, hadvances₁, hgoes₁⟩ := @Goes.dash _ _ _ _ _ [] _ _ none hgoes hl (.none htail) hfloor
      hpassable (hinside.starts hstart') (fun h => absurd rfl h)
    obtain ⟨lx₂, hadvances₂, hgoes₂⟩ := ih.enclosed hinner hgoes₁ (floor_entered hfloor)
      hpassable.2.2 hstart' (h.upTo hupTo)
    obtain ⟨lx₃, hadvances₃, hgoes₃⟩ := ih'.again hgoes₂ (floor_entered hfloor)
      hpassable.2.2.of_append hstart hupTo
    refine ⟨lx₃, hadvances₁.trans (hadvances₂.trans hadvances₃), ?_⟩
    simpa [Block.kinds, Shape.start, valueKinds] using hgoes₃
  | @itemBeside s n l first inside ls after cs inner rest hl hfirst hterminator hblank hinside h ih ih' =>
    intro lx kinds stack hfloor hnil hgoes hpassable hstart hupTo
    rw [List.cons_append, List.append_assoc] at hgoes hpassable
    have hstart' := h.starts hstart
    have hpassable' : Passable (first :: (inside ++ (ls ++ after))) := by
      refine ⟨fun heq => hpassable.1 (hterminator ▸ heq), ?_, hpassable.2.2⟩
      rw [hfirst, List.replicate_succ, List.cons_append, List.head?_cons]
      decide
    have hinner := hinside.ne_nil hblank
    obtain ⟨rest, hposition, hrest⟩ := hinside.position_eq.resolve_left fun h => hinner h.1
    obtain ⟨lx₁, hadvances₁, hgoes₁⟩ := hgoes.dashBeside hl hfirst hterminator hblank hposition hrest
      hfloor
    obtain ⟨lx₂, hadvances₂, hgoes₂⟩ := ih.enclosed hinner hgoes₁ (floor_entered hfloor) hpassable'
      hstart' (h.upTo hupTo)
    obtain ⟨lx₃, hadvances₃, hgoes₃⟩ := ih'.again hgoes₂ (floor_entered hfloor)
      hpassable.2.2.of_append hstart hupTo
    refine ⟨lx₃, hadvances₁.trans (hadvances₂.trans hadvances₃), ?_⟩
    simpa [Block.kinds, Shape.start, valueKinds] using hgoes₃

/-! ## The whole text -/

theorem head_of_indented {ch : Char} (h : Indented l n cs) (hspace : ch ≠ ' ')
    (hcs : cs.head? ≠ some ch) : l.content.head? ≠ some ch := by
  rw [h]
  cases n with
  | zero => exact hcs
  | succ n => exact fun hhead => hspace (Option.some.inj hhead).symm

theorem head_of_blank {ch : Char} (h : isBlankText l.content = true) (hspace : ch ≠ ' ')
    (hcomment : ch ≠ '#') : l.content.head? ≠ some ch := by
  obtain ⟨n, rest, hcontent, hrest⟩ := isBlankText_cases h
  refine head_of_indented hcontent hspace ?_
  rcases hrest with rfl | ⟨body, rfl, -⟩
  · exact nofun
  · exact fun hhead => hcomment (Option.some.inj hhead).symm

theorem head_of_textLine {ch : Char} (h : Scalar.isTextLine (n + 1) l = true) (hspace : ch ≠ ' ') :
    l.content.head? ≠ some ch := by
  rcases Scalar.isTextLine_cases h with ⟨j, -, hcontent, -⟩ | ⟨d, ds, hindented, -, -⟩
  · exact head_of_indented (hcontent.trans (List.append_nil _).symm) hspace nofun
  · rw [hindented]
    exact fun hhead => hspace (Option.some.inj hhead).symm

/-- No line of a block starts with a byte order mark. -/
theorem Lays.unmarked (h : Lays n ls more b) : ∀ l ∈ ls, l.content.head? ≠ some byteOrderMark := by
  have hspace : byteOrderMark ≠ ' ' := by decide
  have hdash {n : Nat} {l : Line} {cs : List Char} (hl : Indented l n ('-' :: cs)) :
      l.content.head? ≠ some byteOrderMark := head_of_indented hl hspace (by simp [byteOrderMark])
  have hheader {n : Nat} {l : Line} {key : Words} {cs : List Char} (hkey : key.IsKey)
      (hl : Indented l n (key.text ++ ':' :: cs)) : l.content.head? ≠ some byteOrderMark := by
    refine head_of_indented hl hspace ?_
    obtain ⟨ch, ks, hfirst, -⟩ := IsPlain.cases hkey.plain
    have hmark := hkey.no_mark
    rw [hfirst] at hmark
    rwa [Words.text_append, hfirst]
  have hbelow {n : Nat} {cs : List Char} {below after : List Line} {value : Option Leaf}
      (hcs : Holds n cs below after value) : ∀ l ∈ below, l.content.head? ≠ some byteOrderMark := by
    cases hcs with
    | none | inline => exact fun l hl => absurd hl List.not_mem_nil
    | text k hheads => exact fun l hl => head_of_textLine (hheads.lines l hl) hspace
  induction h with
  | nil => exact fun l hl => absurd hl List.not_mem_nil
  | filler hl h ih =>
    exact List.forall_mem_cons.2 ⟨head_of_blank hl hspace (by decide), ih⟩
  | entry hkey hl hcs h ih =>
    exact List.forall_mem_cons.2 ⟨hheader hkey hl, List.forall_mem_append.2 ⟨hbelow hcs, ih⟩⟩
  | nested hkey hl htail hinside hinner h ihinside ih =>
    exact List.forall_mem_cons.2 ⟨hheader hkey hl, List.forall_mem_append.2 ⟨ihinside, ih⟩⟩
  | flush hkey hl htail hinside hinner h ihinside ih =>
    exact List.forall_mem_cons.2 ⟨hheader hkey hl, List.forall_mem_append.2 ⟨ihinside, ih⟩⟩
  | item hl hcs h ih =>
    exact List.forall_mem_cons.2 ⟨hdash hl, List.forall_mem_append.2 ⟨hbelow hcs, ih⟩⟩
  | itemBelow hl htail hinside hinner h ihinside ih =>
    exact List.forall_mem_cons.2 ⟨hdash hl, List.forall_mem_append.2 ⟨ihinside, ih⟩⟩
  | itemBeside hl hfirst hterm hstart hinside h ihinside ih =>
    exact List.forall_mem_cons.2
      ⟨hdash hl, List.forall_mem_append.2 ⟨(List.forall_mem_cons.1 ihinside).2, ih⟩⟩

theorem LaysText.unmarked {b : Block .mapping} (h : LaysText ls b) :
    ∀ l ∈ ls, l.content.head? ≠ some byteOrderMark := by
  cases h with
  | bare h => exact h.unmarked
  | marked hfront hl htail h =>
    refine List.forall_mem_append.2 ⟨fun l hmem => ?_, List.forall_mem_cons.2 ⟨?_, h.unmarked⟩⟩
    · exact head_of_blank (hfront l hmem) (by decide) (by decide)
    · exact head_of_indented hl (by decide) (by simp [byteOrderMark])

theorem passable_of_canonical (h : Source.Canonical ls)
    (hmarks : ∀ l ∈ ls, l.content.head? ≠ some byteOrderMark) : Passable ls := by
  induction ls with
  | nil => trivial
  | cons l ls ih =>
    obtain ⟨-, hlast, hmore⟩ := Source.canonical_cons_iff.1 h
    obtain ⟨hl, hls⟩ := List.forall_mem_cons.1 hmarks
    exact ⟨hlast, hl, ih hmore hls⟩

theorem head_text (hmarks : ∀ l ∈ ls, l.content.head? ≠ some byteOrderMark) :
    (Source.text ls).head? ≠ some byteOrderMark := by
  induction ls with
  | nil => exact nofun
  | cons l ls ih =>
    obtain ⟨hl, hls⟩ := List.forall_mem_cons.1 hmarks
    have hterminator : l.terminator.text.head? ≠ some byteOrderMark := by
      cases l.terminator <;> simp [Terminator.text, byteOrderMark]
    rw [text_cons, List.head?_append, List.head?_append, ne_eq, Option.or_eq_some_iff,
      Option.or_eq_some_iff]
    rintro (hhead | ⟨-, hhead | ⟨-, hhead⟩⟩)
    · exact hl hhead
    · exact hterminator hhead
    · exact ih hls hhead

theorem run_of_advances {lx' last : Lexer} (fuel : Nat) (hadvances : Advances lx lx')
    (hhanded : lx.handedOn = 0) (hkeys : lx.keys = [none])
    (hopen : ∀ t ∈ lx'.queue, t.kind ≠ .streamEnd) (hnext : lx'.next = .ok last)
    (hlast : Finished last) (hlength : last.queue.length ≤ lx'.potential + 1)
    (hfuel : lx.potential + 2 < fuel) : run fuel lx = (last.queue, none) := by
  obtain ⟨n, hreads, hle⟩ := hadvances
  have hheld : lx.held [] = lx := by
    cases lx
    simp only at hhanded
    simp [held, hhanded]
  have hkept : Kept [] lx := by
    refine ⟨hhanded, fun key hmem k hk => ?_⟩
    rw [hkeys, List.mem_singleton] at hmem
    rw [hmem] at hk
    cases hk
  have hall : Reads (n + 1) (lx.held []) last := hheld ▸ hreads.trans (.step hopen hnext (.refl last))
  simpa using run_of_reads hall hkept (by simp) hlast (by
    rw [List.length_nil]
    omega)

/-- The tokens of a text, if the lexer comes to its end after those of some lines. -/
theorem tokens_of_goes {text : List Char} (hallowed : forbiddenAt 0 text = none)
    (hmark : text.head? ≠ some byteOrderMark) {lx' : Lexer}
    (hadvances : Advances (start ⟨.zero, text⟩) lx') (hover : Goes lx' kinds stack []) :
    ∃ ts, tokens text = (ts, none) ∧
      ts.map (·.kind) = kinds ++ List.replicate stack.length .blockEnd ++ [.streamEnd] := by
  obtain ⟨hopen, last, hnext, hlast, hkinds, hlength⟩ : Over lx' _ _ := hover
  refine ⟨last.queue, ?_, hkinds⟩
  have hrun := run_of_advances (8 * (text.length + 4)) hadvances rfl rfl hopen hnext hlast
    hlength (by simp [potential, start]; omega)
  unfold tokens
  rw [hallowed]
  simp only [if_neg hmark]
  exact hrun

/-- The lexer goes through the lines of a text from its start. -/
theorem goes_start {text : List Char} (hpassable : Passable (Source.lines text))
    (hstart : Starts (Source.lines text)) :
    Goes (start ⟨.zero, text⟩) [.streamStart] [] (Source.lines text) := by
  let c : Cursor := ⟨.zero, text⟩
  have hat : At (start c) [.streamStart] [] 0 c true :=
    ⟨rfl, rfl, by simp, rfl, rfl, by simp [start], rfl, rfl⟩
  obtain ⟨c', hpasses, hposition⟩ :=
    passes_lines (c := c) (Source.text_lines text).symm rfl hpassable hstart
  exact (hat.ready hpasses).goes hposition fun _ => rfl

theorem starts_nil : Starts [] := fun _ _ h => by cases h

theorem position_append_of_blank {front : List Line}
    (hfront : ∀ l ∈ front, isBlankText l.content = true) (ls : List Line) :
    position (front ++ ls) = position ls := by
  induction front with
  | nil => rfl
  | cons l front ih =>
    obtain ⟨hl, hfront⟩ := List.forall_mem_cons.1 hfront
    rw [List.cons_append, position_cons_of_blank hl, ih hfront]

/-- The sign of a document that three dashes open. -/
def marks (marked : Bool) : List TokenKind := if marked then [.documentStart] else []

/-- The lexer comes to the block of a text. -/
theorem LaysText.goes {text : List Char} {b : Block .mapping} (h : LaysText (Source.lines text) b) :
    ∃ marked ls lx, Advances (start ⟨.zero, text⟩) lx ∧
      Goes lx (.streamStart :: marks marked) [] ls ∧ Lays 0 ls [] b ∧ Passable ls ∧
      (marked = true → b ≠ .nil) := by
  have hpassable := passable_of_canonical (Source.canonical_lines text) h.unmarked
  generalize hlines : Source.lines text = ls at h
  cases h with
  | bare h =>
    have hstart := h.starts starts_nil
    rw [List.append_nil, ← hlines] at hstart
    exact ⟨false, ls, _, .refl _, hlines ▸ goes_start hpassable hstart, h, hlines ▸ hpassable, nofun⟩
  | @marked front ls l tail _ hfront hl htail h hb =>
    have hposition : position (Source.lines text) =
        some (0, '-' :: '-' :: '-' :: (tail ++ (l.terminator.text ++ Source.text ls))) := by
      rw [hlines, position_append_of_blank hfront, position_of_dash hl]
      rfl
    have hstart : Starts (Source.lines text) := by
      intro column rest heq
      obtain ⟨rfl, rfl⟩ := Prod.mk.inj (Option.some.inj (hposition.symm.trans heq))
      rfl
    have hready := goes_start hpassable hstart
    unfold Goes at hready
    rw [hposition] at hready
    rw [hlines] at hpassable
    obtain ⟨hlast, -, hpassable⟩ := hpassable.of_append
    obtain ⟨lx, hadvances, hstands⟩ :=
      hready.marker (htail.endsWord (endsLine_terminator fun h => by rw [hlast h]; rfl))
    have hstart' := h.starts starts_nil
    rw [List.append_nil] at hstart'
    exact ⟨true, ls, lx, hadvances, hstands.goes htail.blank hlast hpassable hstart', h, hpassable,
      fun _ => hb⟩

theorem LaysText.head_ne {text : List Char} {b : Block .mapping}
    (h : LaysText (Source.lines text) b) : text.head? ≠ some byteOrderMark := by
  rw [← Source.text_lines text]
  exact head_text h.unmarked

/-- **The tokens of a whole text** are those of its block. -/
theorem tokens_of_lays {text : List Char} {b : Block .mapping} (h : LaysText (Source.lines text) b)
    (hb : b ≠ .nil) (hallowed : forbiddenAt 0 text = none) :
    ∃ marked ts, tokens text = (ts, none) ∧ ts.map (·.kind) =
      .streamStart :: (marks marked ++ .blockMappingStart :: (b.kinds ++ [.blockEnd, .streamEnd])) := by
  obtain ⟨marked, ls, lx, hadvances, hgoes, hlays, hpassable, -⟩ := h.goes
  rw [← List.append_nil ls] at hgoes hpassable
  obtain ⟨lx', hadvances', hgoes'⟩ := hlays.tokenizes (by decide) (fun h => absurd h hb) hgoes hpassable
    starts_nil (fun _ _ h => by cases h)
  obtain ⟨ts, htokens, hkinds⟩ :=
    tokens_of_goes hallowed h.head_ne (hadvances.trans hadvances') hgoes'
  refine ⟨marked, ts, htokens, ?_⟩
  rw [hkinds]
  simp [opening, entered, floor, Shape.start]

theorem position_of_nil (h : Lays n ls more b) (hb : b = .nil) : position ls = none := by
  induction h with
  | nil => rfl
  | filler hl h ih => rw [position_cons_of_blank hl, ih hb]
  | entry | nested | flush | item | itemBelow | itemBeside => cases hb

/-- A text that holds nothing has no tokens of its own. -/
theorem tokens_of_nil {text : List Char} (h : LaysText (Source.lines text) .nil)
    (hallowed : forbiddenAt 0 text = none) :
    ∃ ts, tokens text = (ts, none) ∧ ts.map (·.kind) = [.streamStart, .streamEnd] := by
  obtain ⟨marked, ls, lx, hadvances, hgoes, hlays, -, hnil⟩ := h.goes
  obtain rfl : marked = false := Bool.eq_false_iff.2 fun h => hnil h rfl
  exact tokens_of_goes hallowed h.head_ne hadvances
    (hgoes.of_position (position_of_nil hlays rfl).symm)

end SchemaTidy.Yaml
