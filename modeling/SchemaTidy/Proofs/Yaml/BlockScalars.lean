import SchemaTidy.Proofs.Yaml.Leaves

/-! # Block scalars

What the scanner makes of the lines below a `|` or a `>`. Those that are indented deep enough are
put together line by line (`blockText`), and it stops at the next line (`block_eq_ok`). -/

namespace SchemaTidy.Yaml
open Source (Line Terminator)
open Lexer (PastIndent Passable isBlankText LineEnd lineAfter)

/-- The line starts at this column with this text. -/
def Indented (l : Line) (n : Nat) (cs : List Char) : Prop := l.content = List.replicate n ' ' ++ cs

theorem Indented.cut {l : Line} {n : Nat} {ch : Char} {cs : List Char} (h : Indented l n (ch :: cs))
    (hch : ch ≠ ' ') : l.indent = n ∧ l.content.dropWhile (· == ' ') = ch :: cs := by
  have htake : l.content.takeWhile (· == ' ') = List.replicate n ' ' := by
    rw [h, List.takeWhile_append_of_pos (by simp), List.takeWhile_cons_of_neg (by simpa using hch),
      List.append_nil]
  refine ⟨by rw [Line.indent, htake, List.length_replicate], ?_⟩
  rw [h, List.dropWhile_append_of_pos (by simp), List.dropWhile_cons_of_neg (by simpa using hch)]

/-- The next line is indented by no more than `n`, and holds more than blanks. -/
def Cut (n : Nat) (ls : List Line) : Prop :=
  ∀ l ∈ ls.head?, ∃ k d ds, k ≤ n ∧ Indented l k (d :: ds) ∧ isGap d = false ∧ isBreak d = false

namespace Scalar

/-! ## Lines of text -/

/-- The line is indented by `n` spaces, or ends before. -/
def isTextLine (n : Nat) (l : Line) : Bool :=
  (l.content.take n).all (· == ' ') && (l.content.drop n).all (!isBreak ·)

/-- The first line that is not empty does not start with a blank. -/
def StartsText (n : Nat) : List Line → Prop
  | [] => True
  | l :: ls =>
    match l.content.drop n with
    | [] => StartsText n ls
    | c :: _ => isGap c = false

/-- The break that a line ends with, as it is read. -/
def lineBreak (l : Line) : List Char := if l.terminator = .none then [] else ['\n']

/-- What is read after one more line. The second part is for empty lines, which count only once
another line comes, or at the end. -/
def addLine (folded : Bool) (n : Nat) (read : BlockText × List Char) (l : Line) :
    BlockText × List Char :=
  match l.content.drop n with
  | [] => (read.1, read.2 ++ lineBreak l)
  | c :: cs =>
    (⟨(c :: cs).reverse ++ (read.1.joint folded (isGap c) read.2).reverse ++ read.1.read,
      lineBreak l, isGap c⟩, [])

/-- The text of a block scalar with these lines. -/
def blockText (folded : Bool) (chomping : Chomping) (n : Nat) (ls : List Line) : List Char :=
  let (b, empty) := ls.foldl (addLine folded n) (⟨[], [], false⟩, [])
  b.read.reverse ++ chomping.tail b.lastBreak empty

variable {folded : Bool} {indent m n j fuel deep : Nat} {start stop : Mark} {c : Cursor}
  {acc cs rest : List Char} {l : Line} {ls more : List Line} {t : Terminator}

/-- A line of text is empty, or has its text behind the indentation. -/
theorem isTextLine_cases (h : isTextLine n l = true) :
    (∃ j ≤ n, l.content = List.replicate j ' ' ∧ l.content.drop n = []) ∨
      ∃ d ds, Indented l n (d :: ds) ∧ l.content.drop n = d :: ds ∧
        (d :: ds).all (!isBreak ·) = true := by
  rw [isTextLine, Bool.and_eq_true] at h
  obtain ⟨hspaces, hbreaks⟩ := h
  have htaken : l.content.take n = List.replicate (l.content.take n).length ' ' :=
    List.eq_replicate_of_mem fun ch hch => beq_iff_eq.1 (List.all_eq_true.1 hspaces ch hch)
  cases hdrop : l.content.drop n with
  | nil =>
    have hshort : l.content.length ≤ n := List.drop_eq_nil_iff.1 hdrop
    rw [List.take_of_length_le hshort] at htaken
    exact .inl ⟨l.content.length, hshort, htaken, rfl⟩
  | cons d ds =>
    have hlong : n < l.content.length := by
      by_contra hshort
      rw [List.drop_eq_nil_of_le (Nat.not_lt.1 hshort)] at hdrop
      cases hdrop
    rw [List.length_take_of_le hlong.le] at htaken
    refine .inr ⟨d, ds, ?_, rfl, hdrop ▸ hbreaks⟩
    rw [Indented, ← htaken, ← hdrop, List.take_append_drop]

/-! ## Empty lines -/

theorem takeBreak_of_terminator (ht : t ≠ .none) (hrest : c.rest = t.text ++ cs) :
    c.takeBreak = (['\n'], lineAfter c t cs) := by
  cases t with
  | none => exact absurd rfl ht
  | lf => simp [Cursor.takeBreak, hrest, Terminator.text, isBreak, plainBreak, Cursor.nextLine,
      lineAfter]
  | crlf => simp [Cursor.takeBreak, hrest, Terminator.text, Cursor.nextLine, lineAfter]

theorem head_terminator (ht : t ≠ .none) (cs : List Char) :
    (t.text ++ cs).head?.any isBreak = true ∧ (t.text ++ cs).head? ≠ some ' ' ∧
      (t.text ++ cs).head? ≠ some '\t' := by
  cases t with
  | none => exact absurd rfl ht
  | lf | crlf => exact ⟨rfl, by simp [Terminator.text], by simp [Terminator.text]⟩

theorem length_terminator (ht : t ≠ .none) : 0 < t.text.length := by
  cases t with
  | none => exact absurd rfl ht
  | lf | crlf => simp [Terminator.text]

theorem length_takeWhile_spaces (hrest : rest.head? ≠ some ' ') (j : Nat) :
    ((List.replicate j ' ' ++ rest).takeWhile (· == ' ')).length = j := by
  rw [List.takeWhile_append_of_pos (by simp)]
  cases rest with
  | nil => simp
  | cons d ds =>
    have hd : d ≠ ' ' := fun heq => hrest (heq ▸ rfl)
    rw [List.takeWhile_cons_of_neg (by simpa using hd), List.append_nil, List.length_replicate]

theorem breaksFrom_succ (indent : Nat) (start : Mark) (fuel : Nat) (b : Breaks) :
    breaksFrom indent start (fuel + 1) b =
      let spaces := (b.cursor.rest.takeWhile (· == ' ')).length
      let count := if indent = 0 then spaces else min spaces (indent - b.cursor.mark.column)
      let c := b.cursor.advance count
      if (indent = 0 ∨ c.mark.column < indent) ∧ c.rest.head? = some '\t' then
        .error (.during .blockScalar start .tabInIndentation c.mark)
      else if c.rest.head?.any isBreak then
        breaksFrom indent start fuel
          ⟨b.text ++ c.takeBreak.1, c.takeBreak.2.mark, c.takeBreak.2, max b.deepest c.mark.column⟩
      else .ok { b with cursor := c, deepest := max b.deepest c.mark.column } := rfl

/-- The end of a text is passed, wherever it is. -/
theorem breaksFrom_end (hrest : c.rest = []) (indent : Nat) :
    breaksFrom indent start (fuel + 1) ⟨acc, stop, c, deep⟩ =
      .ok ⟨acc, stop, c, max deep c.mark.column⟩ := by
  rw [breaksFrom_succ]
  simp [hrest]

/-- The indentation of a line that is passed, where `indent` is wanted or, if it is zero, as much as
there is. -/
def passed (indent : Nat) (cs : List Char) : Nat :=
  let spaces := (cs.takeWhile (· == ' ')).length
  if indent = 0 then spaces else min spaces indent

/-- At the start of a line. -/
theorem breaksFrom_line (hcolumn : c.mark.column = 0) (hpassed : passed indent c.rest = j) :
    breaksFrom indent start (fuel + 1) ⟨acc, stop, c, deep⟩ =
      if (indent = 0 ∨ j < indent) ∧ (c.advance j).rest.head? = some '\t' then
        .error (.during .blockScalar start .tabInIndentation (c.advance j).mark)
      else if (c.advance j).rest.head?.any isBreak then
        breaksFrom indent start fuel ⟨acc ++ (c.advance j).takeBreak.1,
          (c.advance j).takeBreak.2.mark, (c.advance j).takeBreak.2, max deep j⟩
      else .ok ⟨acc, stop, c.advance j, max deep j⟩ := by
  have hadvanced : (c.advance j).mark.column = j := by simp [Cursor.advance, hcolumn]
  rw [breaksFrom_succ]
  dsimp only
  rw [hcolumn, Nat.sub_zero, show (if indent = 0 then (c.rest.takeWhile (· == ' ')).length
    else min (c.rest.takeWhile (· == ' ')).length indent) = j from hpassed, hadvanced]

theorem passed_replicate (hindent : indent = 0 ∨ j ≤ indent) (hrest : rest.head? ≠ some ' ') :
    passed indent (List.replicate j ' ' ++ rest) = j := by
  rw [passed, length_takeWhile_spaces hrest]
  rcases hindent with rfl | hle
  · rfl
  · split
    · rfl
    · exact Nat.min_eq_left hle

theorem passed_of_deep (hpos : 0 < m) (rest : List Char) :
    passed m (List.replicate m ' ' ++ rest) = m := by
  rw [passed, List.takeWhile_append_of_pos (by simp), List.length_append, List.length_replicate]
  rw [if_neg (Nat.ne_of_gt hpos), Nat.min_eq_right (Nat.le_add_right _ _)]

/-- An empty line is passed. -/
theorem breaksFrom_empty (hcolumn : c.mark.column = 0) (hindent : indent = 0 ∨ j ≤ indent)
    (ht : t ≠ .none) (hrest : c.rest = List.replicate j ' ' ++ (t.text ++ cs)) :
    breaksFrom indent start (fuel + 1) ⟨acc, stop, c, deep⟩ =
      breaksFrom indent start fuel ⟨acc ++ ['\n'], (lineAfter (c.advance j) t cs).mark,
        lineAfter (c.advance j) t cs, max deep j⟩ := by
  obtain ⟨hbreak, hspace, htab⟩ := head_terminator ht cs
  have hafter : (c.advance j).rest = t.text ++ cs := by
    simp [Cursor.advance, hrest]
  have hpassed : passed indent c.rest = j := by rw [hrest, passed_replicate hindent hspace]
  rw [breaksFrom_line hcolumn hpassed, takeBreak_of_terminator ht hafter, hafter,
    if_neg fun h => htab h.2, if_pos hbreak]

/-- A line that holds something ends the empty lines. -/
theorem breaksFrom_stop (hcolumn : c.mark.column = 0) (hpassed : passed indent c.rest = j)
    (htab : indent = 0 ∨ j < indent → (c.advance j).rest.head? ≠ some '\t')
    (hbreak : (c.advance j).rest.head?.any isBreak = false) :
    breaksFrom indent start (fuel + 1) ⟨acc, stop, c, deep⟩ =
      .ok ⟨acc, stop, c.advance j, max deep j⟩ := by
  rw [breaksFrom_line hcolumn hpassed, if_neg fun h => htab h.1 h.2,
    if_neg (by rw [hbreak]; exact Bool.false_ne_true)]

/-- The next line that is no part of the text ends the empty lines. -/
theorem breaksFrom_cut (hcut : Cut n more) (hrest : c.rest = Source.text more)
    (hcolumn : c.rest ≠ [] → c.mark.column = 0) :
    ∃ e : Breaks, (∀ indent, indent = 0 ∨ n < indent →
        breaksFrom indent start (fuel + 1) ⟨acc, stop, c, deep⟩ = .ok e) ∧
      e.text = acc ∧ PastIndent more e.cursor ∧ (e.cursor.rest = [] ∨ e.cursor.mark.column ≤ n) := by
  cases more with
  | nil =>
    have hend : c.rest = [] := hrest
    exact ⟨_, fun indent _ => breaksFrom_end hend indent, rfl, hend, .inl hend⟩
  | cons l ls =>
    obtain ⟨k, d, ds, hk, hl, hgap, hbreak⟩ := hcut l rfl
    have hcolumn := hcolumn (by rw [hrest, Lexer.text_cons, hl]; simp)
    have hstart := hrest
    rw [Lexer.text_cons, hl, List.append_assoc, List.cons_append] at hrest
    have hspace : d ≠ ' ' := by rintro rfl; cases hgap
    have htab : d ≠ '\t' := by rintro rfl; cases hgap
    have hafter : (c.advance k).rest = d :: (ds ++ (l.terminator.text ++ Source.text ls)) := by
      simp [Cursor.advance, hrest]
    refine ⟨⟨acc, stop, c.advance k, max deep k⟩, fun indent hindent => ?_, rfl,
      ⟨c, hstart, hcolumn, by rw [(hl.cut hspace).1]⟩, .inr (by simpa [Cursor.advance, hcolumn])⟩
    have hpassed : passed indent c.rest = k := by
      rw [hrest]
      exact passed_replicate (hindent.imp_right fun h => by omega) (by simpa using hspace)
    exact breaksFrom_stop hcolumn hpassed (fun _ => by simp [hafter, htab]) (by simp [hafter, hbreak])

/-- So does the end of a text behind spaces. -/
theorem breaksFrom_spaces (hrest : c.rest = List.replicate j ' ')
    (hcolumn : c.rest ≠ [] → c.mark.column = 0) :
    ∃ e : Breaks, (∀ indent, indent = 0 ∨ j ≤ indent →
        breaksFrom indent start (fuel + 1) ⟨acc, stop, c, deep⟩ = .ok e) ∧
      e.text = acc ∧ e.cursor.rest = [] := by
  by_cases hend : c.rest = []
  · exact ⟨_, fun indent _ => breaksFrom_end hend indent, rfl, hend⟩
  · have hafter : (c.advance j).rest = [] := by simp [Cursor.advance, hrest]
    refine ⟨⟨acc, stop, c.advance j, max deep j⟩, fun indent hindent => ?_, rfl, hafter⟩
    have hpassed : passed indent c.rest = j := by
      rw [hrest, ← List.append_nil (List.replicate j ' ')]
      exact passed_replicate hindent (by simp)
    exact breaksFrom_stop (hcolumn hend) hpassed (by simp [hafter]) (by simp [hafter])

/-- The first line of the text ends the empty lines above it. -/
theorem breaksFrom_text {d : Char} {ds : List Char} (hl : Indented l m (d :: ds))
    (hindent : indent = 0 ∧ isGap d = false ∨ indent = m ∧ 0 < m) (hbreak : isBreak d = false)
    (hrest : c.rest = Source.text (l :: ls)) (hcolumn : c.rest ≠ [] → c.mark.column = 0) :
    breaksFrom indent start (fuel + 1) ⟨acc, stop, c, deep⟩ =
        .ok ⟨acc, stop, c.advance m, max deep m⟩ ∧
      (c.advance m).mark.column = m ∧
      (c.advance m).rest = d :: ds ++ (l.terminator.text ++ Source.text ls) := by
  have hcolumn := hcolumn (by rw [hrest, Lexer.text_cons, hl]; simp)
  rw [Lexer.text_cons, hl, List.append_assoc] at hrest
  have hafter : (c.advance m).rest = d :: ds ++ (l.terminator.text ++ Source.text ls) := by
    simp [Cursor.advance, hrest]
  refine ⟨breaksFrom_stop hcolumn ?_ ?_ (by simp [hafter, hbreak]), ?_, hafter⟩
  · rw [hrest]
    rcases hindent with ⟨rfl, hgap⟩ | ⟨rfl, hpos⟩
    · have hspace : d ≠ ' ' := by rintro rfl; cases hgap
      exact passed_replicate (.inl rfl) (by simpa using hspace)
    · exact passed_of_deep hpos _
  · intro hshallow
    rcases hindent with ⟨rfl, hgap⟩ | ⟨rfl, hpos⟩
    · have htab : d ≠ '\t' := by rintro rfl; cases hgap
      simp [hafter, htab]
    · omega
  · simp [Cursor.advance, hcolumn]

/-! ## All lines -/

/-- Behind the text of a line stands its break, and then the next line. -/
theorem takeBreak_line (hlast : l.terminator = .none → cs = [])
    (hrest : c.rest = l.terminator.text ++ cs) :
    ∃ c', c.takeBreak = (lineBreak l, c') ∧ c'.rest = cs ∧ (c'.rest ≠ [] → c'.mark.column = 0) := by
  by_cases hnone : l.terminator = .none
  · obtain rfl := hlast hnone
    have hend : c.rest = [] := by rw [hrest, hnone]; rfl
    refine ⟨c, ?_, hend, fun h => absurd hend h⟩
    rw [Cursor.takeBreak, hend, lineBreak, if_pos hnone]
  · refine ⟨lineAfter c l.terminator cs, ?_, rfl, fun _ => rfl⟩
    rw [takeBreak_of_terminator hnone hrest, lineBreak, if_neg hnone]

theorem blockLines_succ (b : BlockText) (empty : Breaks) :
    blockLines folded indent start (fuel + 1) b empty =
      if empty.cursor.mark.column ≠ indent ∨ empty.cursor.rest.isEmpty then .ok (b, empty)
      else
        let blank := empty.cursor.rest.head?.any isGap
        let line := empty.cursor.span (!isBreak ·)
        let ending := line.2.takeBreak
        breaks indent start ending.2 >>= blockLines folded indent start fuel
          ⟨line.1.reverse ++ (b.joint folded blank empty.text).reverse ++ b.read, ending.1, blank⟩ := by
  rw [blockLines]

/-- The text is over where the column is another one, or nothing is left. -/
theorem blockLines_over {b : BlockText} {empty : Breaks}
    (h : empty.cursor.rest = [] ∨ empty.cursor.mark.column ≠ indent) :
    blockLines folded indent start (fuel + 1) b empty = .ok (b, empty) := by
  rw [blockLines_succ, if_pos]
  rcases h with h | h
  · exact .inr (by rw [h]; rfl)
  · exact .inl h

/-- A line of text is put to those read before. -/
theorem blockLines_text {b : BlockText} {empty : Breaks} {d : Char} {ds : List Char}
    (hcolumn : empty.cursor.mark.column = m)
    (hrest : empty.cursor.rest = d :: ds ++ (l.terminator.text ++ cs))
    (hdrop : l.content.drop m = d :: ds) (hbreaks : (d :: ds).all (!isBreak ·) = true)
    (hlast : l.terminator = .none → cs = []) :
    ∃ c', c'.rest = cs ∧ (c'.rest ≠ [] → c'.mark.column = 0) ∧
      blockLines folded m start (fuel + 1) b empty =
        breaks m start c' >>=
          blockLines folded m start fuel (addLine folded m (b, empty.text) l).1 := by
  have hspan : empty.cursor.span (!isBreak ·) = (d :: ds, empty.cursor.advance (d :: ds).length) := by
    refine Cursor.span_eq hrest hbreaks fun ch hch => ?_
    have hends : endsLine (l.terminator.text ++ cs) = true := Lexer.endsLine_terminator hlast
    cases hmore : l.terminator.text ++ cs with
    | nil => rw [hmore] at hch; cases hch
    | cons e es =>
      rw [hmore] at hch hends
      rw [← Option.some.inj hch, show isBreak e = true from hends]
      rfl
  obtain ⟨c', htake, hrest', hcolumn'⟩ := takeBreak_line hlast (Cursor.advance_rest hrest)
  refine ⟨c', hrest', hcolumn', ?_⟩
  have hsome : ¬ (empty.cursor.mark.column ≠ m ∨ empty.cursor.rest.isEmpty = true) := by
    simp [hcolumn, hrest]
  rw [blockLines_succ, if_neg hsome, hspan]
  dsimp only
  rw [htake, addLine, hdrop, hrest]
  rfl

theorem addLine_of_nil {read : BlockText × List Char} (h : l.content.drop m = []) :
    addLine folded m read l = (read.1, read.2 ++ lineBreak l) := by
  rw [addLine, h]

theorem addLine_of_cons {read : BlockText × List Char} {d : Char} {ds : List Char}
    (h : l.content.drop m = d :: ds) :
    addLine folded m read l = ((addLine folded m read l).1, []) := by
  rw [addLine, h]

/-- What comes at the start of a line of text: nothing but spaces, up to the end of the text or of the
line, or the text behind the indentation. -/
inductive NextLine (m : Nat) (c : Cursor) (l : Line) (ls : List Line) : Prop where
  | last {j : Nat} (hj : j ≤ m) (hdrop : l.content.drop m = []) (hnone : l.terminator = .none)
    (hrest : c.rest = List.replicate j ' ')
  | empty {j : Nat} (hj : j ≤ m) (hdrop : l.content.drop m = []) (hsome : l.terminator ≠ .none)
    (hcolumn : c.mark.column = 0)
    (hrest : c.rest = List.replicate j ' ' ++ (l.terminator.text ++ Source.text ls))
    (hshort : (Source.text ls).length < c.rest.length)
  | text {d : Char} {ds : List Char} (hindented : Indented l m (d :: ds))
    (hdrop : l.content.drop m = d :: ds) (hbreak : isBreak d = false)
    (hbreaks : (d :: ds).all (!isBreak ·) = true)

theorem nextLine (hl : isTextLine m l = true) (hlast : l.terminator = .none → ls = [])
    (hrest : c.rest = Source.text (l :: ls)) (hcolumn : c.rest ≠ [] → c.mark.column = 0) :
    NextLine m c l ls := by
  rcases isTextLine_cases hl with ⟨j, hj, hcontent, hdrop⟩ | ⟨d, ds, hindented, hdrop, hbreaks⟩
  · rw [Lexer.text_cons, hcontent] at hrest
    by_cases hnone : l.terminator = .none
    · rw [hnone, hlast hnone] at hrest
      exact .last hj hdrop hnone (hrest.trans (List.append_nil _))
    · have hshort : (Source.text ls).length < c.rest.length := by
        have hlong := length_terminator hnone
        rw [hrest, List.length_append, List.length_append]
        omega
      exact .empty hj hdrop hnone (hcolumn (List.ne_nil_of_length_pos (Nat.zero_lt_of_lt hshort)))
        hrest hshort
  · exact .text hindented hdrop (by simpa using List.all_eq_true.1 hbreaks d List.mem_cons_self)
      hbreaks

/-- Lines of text are put together, up to the first line that is indented less. -/
theorem blockLines_eq_ok {b : BlockText} {fuel' : Nat} (hlines : ∀ l ∈ ls, isTextLine m l = true)
    (hpassable : Passable (ls ++ more)) (hcut : Cut n more) (hdeep : n < m)
    (hrest : c.rest = Source.text (ls ++ more)) (hcolumn : c.rest ≠ [] → c.mark.column = 0)
    (hfuel : c.rest.length < fuel) (hfuel' : c.rest.length < fuel') :
    ∃ first e, breaksFrom m start fuel ⟨acc, stop, c, deep⟩ = .ok first ∧
      blockLines folded m start fuel' b first = .ok ((ls.foldl (addLine folded m) (b, acc)).1, e) ∧
      e.text = (ls.foldl (addLine folded m) (b, acc)).2 ∧ PastIndent more e.cursor := by
  induction ls generalizing acc stop c deep fuel fuel' b with
  | nil =>
    obtain ⟨fuel, rfl⟩ := Nat.exists_eq_add_of_lt hfuel
    obtain ⟨fuel', rfl⟩ := Nat.exists_eq_add_of_lt hfuel'
    obtain ⟨e, hok, htext, hpast, hover⟩ :=
      @breaksFrom_cut n _ deep start stop c acc more hcut hrest hcolumn
    exact ⟨e, e, hok m (.inr hdeep), blockLines_over (hover.imp_right fun h => by omega), htext, hpast⟩
  | cons l ls ih =>
    obtain ⟨fuel, rfl⟩ := Nat.exists_eq_add_of_lt hfuel
    obtain ⟨fuel', rfl⟩ := Nat.exists_eq_add_of_lt hfuel'
    obtain ⟨hl, hls⟩ := List.forall_mem_cons.1 hlines
    obtain ⟨hlast, -, hpassable⟩ := hpassable
    rw [List.cons_append] at hrest
    have hnext : NextLine m c l (ls ++ more) := nextLine hl hlast hrest hcolumn
    cases hnext with
    | @last j hj hdrop hnone hspaces =>
      obtain ⟨rfl, rfl⟩ := List.append_eq_nil_iff.1 (hlast hnone)
      obtain ⟨e, hok, htext, hend⟩ := @breaksFrom_spaces j _ deep start stop c acc hspaces hcolumn
      rw [List.foldl_cons, addLine_of_nil hdrop, lineBreak, if_pos hnone, List.append_nil]
      exact ⟨e, e, hok m (.inr hj), blockLines_over (.inl hend), htext, hend⟩
    | @empty j hj hdrop hsome hzero hrest hshort =>
      rw [List.foldl_cons, addLine_of_nil hdrop, lineBreak, if_neg hsome,
        breaksFrom_empty hzero (.inr hj) hsome hrest]
      exact ih hls hpassable rfl (fun _ => rfl) (by simp only [lineAfter]; omega)
        (by simp only [lineAfter]; omega)
    | @text d ds hindented hdrop hbreak hbreaks =>
      obtain ⟨hok, hat, hrest'⟩ := @breaksFrom_text m m _ deep start stop c acc l (ls ++ more) d ds
        hindented (.inr ⟨rfl, Nat.zero_lt_of_lt hdeep⟩) hbreak hrest hcolumn
      have hend : l.terminator = .none → Source.text (ls ++ more) = [] := fun h => by
        rw [show ls ++ more = [] from hlast h]
        rfl
      obtain ⟨c', hnext, hcolumn', hread⟩ := @blockLines_text folded m _ start _ l b
        ⟨acc, stop, c.advance m, max deep m⟩ d ds hat hrest' hdrop hbreaks hend
      have hshort : c'.rest.length < c.rest.length := by
        have hlength := congrArg List.length hrest'
        simp only [Cursor.advance, List.length_drop, List.length_append, List.length_cons] at hlength
        rw [hnext]
        omega
      rw [List.foldl_cons, addLine_of_cons hdrop]
      obtain ⟨first, e, hfirst, hlines, hall⟩ := @ih (c'.rest.length + 1) 0 c'.mark c' []
        (addLine folded m (b, acc) l).1 (c.rest.length + fuel') hls hpassable hnext hcolumn'
        (Nat.lt_succ_self _) (by omega)
      refine ⟨_, e, hok, ?_, hall⟩
      rw [hread, breaks, hfirst]
      exact hlines

/-! ## Indentation that is not told -/

/-- Where the text starts with no blank, the empty lines above it are passed as if its indentation
were known, and end at its column. -/
theorem breaksFrom_detected (hlines : ∀ l ∈ ls, isTextLine m l = true) (hstarts : StartsText m ls)
    (hpassable : Passable (ls ++ more)) (hcut : Cut n more) (hdeep : n < m)
    (hrest : c.rest = Source.text (ls ++ more)) (hcolumn : c.rest ≠ [] → c.mark.column = 0)
    (hle : deep ≤ m) (hfuel : c.rest.length < fuel) :
    ∃ first : Breaks, (∀ indent, indent = 0 ∨ indent = m →
        breaksFrom indent start fuel ⟨acc, stop, c, deep⟩ = .ok first) ∧
      (first.cursor.rest = [] ∨ first.cursor.mark.column ≤ n ∨
        first.cursor.mark.column = m ∧ first.deepest = m) := by
  induction ls generalizing acc stop c deep fuel with
  | nil =>
    obtain ⟨fuel, rfl⟩ := Nat.exists_eq_add_of_lt hfuel
    obtain ⟨e, hok, -, -, hover⟩ := @breaksFrom_cut n _ deep start stop c acc more hcut hrest hcolumn
    exact ⟨e, fun indent hindent => hok indent (hindent.imp_right fun h => by omega),
      hover.imp_right .inl⟩
  | cons l ls ih =>
    obtain ⟨fuel, rfl⟩ := Nat.exists_eq_add_of_lt hfuel
    obtain ⟨hl, hls⟩ := List.forall_mem_cons.1 hlines
    obtain ⟨hlast, -, hpassable⟩ := hpassable
    rw [List.cons_append] at hrest
    have hindents {j : Nat} (hj : j ≤ m) : ∀ indent, indent = 0 ∨ indent = m →
        indent = 0 ∨ j ≤ indent := fun _ h => h.imp_right fun h => by omega
    have hnext : NextLine m c l (ls ++ more) := nextLine hl hlast hrest hcolumn
    cases hnext with
    | @last j hj hdrop hnone hspaces =>
      obtain ⟨e, hok, -, hend⟩ := @breaksFrom_spaces j _ deep start stop c acc hspaces hcolumn
      exact ⟨e, fun indent hindent => hok indent (hindents hj indent hindent), .inl hend⟩
    | @empty j hj hdrop hsome hzero hrest hshort =>
      rw [StartsText, hdrop] at hstarts
      let next := lineAfter (c.advance j) l.terminator (Source.text (ls ++ more))
      obtain ⟨first, hok, hwhere⟩ := @ih (c.rest.length + fuel) (max deep j) next.mark next
        (acc ++ ['\n']) hls hstarts hpassable rfl (fun _ => rfl) (max_le hle hj)
        (by simp only [next, lineAfter]; omega)
      refine ⟨first, fun indent hindent => ?_, hwhere⟩
      rw [breaksFrom_empty hzero (hindents hj indent hindent) hsome hrest]
      exact hok indent hindent
    | @text d ds hindented hdrop hbreak hbreaks =>
      rw [StartsText, hdrop] at hstarts
      have htext {indent : Nat} (hindent : indent = 0 ∧ isGap d = false ∨ indent = m ∧ 0 < m) :=
        @breaksFrom_text indent m (c.rest.length + fuel) deep start stop c acc l (ls ++ more) d ds
          hindented hindent hbreak hrest hcolumn
      refine ⟨_, fun indent hindent => (htext ?_).1, .inr (.inr ⟨(htext (.inl ⟨rfl, hstarts⟩)).2.1,
        max_eq_right hle⟩)⟩
      exact hindent.imp (fun h => ⟨h, hstarts⟩) fun h => ⟨h, Nat.zero_lt_of_lt hdeep⟩

/-- So the text is read as if its indentation were known. -/
theorem blockLines_detected {b : BlockText} {first : Breaks} (hdeep : n < m)
    (h : first.cursor.rest = [] ∨ first.cursor.mark.column ≤ n ∨
      first.cursor.mark.column = m ∧ first.deepest = m) :
    blockLines folded (max (max first.deepest (n + 1)) 1) start (fuel + 1) b first =
      blockLines folded m start (fuel + 1) b first := by
  rcases h with hend | hleft | ⟨-, hdeepest⟩
  · rw [blockLines_over (.inl hend), blockLines_over (.inl hend)]
  · rw [blockLines_over (.inr (by omega)), blockLines_over (.inr (by omega))]
  · rw [hdeepest, max_eq_left (show n + 1 ≤ m from hdeep), max_eq_left (show 1 ≤ m by omega)]

/-! ## Headers -/

/-- What stands above the text: the kind of the scalar, whether its indentation is told, and which
of the line breaks at its end are kept. -/
structure Header where
  folded : Bool
  explicit : Bool
  chomping : Chomping

def Chomping.sign : Chomping → List Char
  | .strip => ['-']
  | .clip => []
  | .keep => ['+']

def Header.text (h : Header) : List Char :=
  (if h.folded then '>' else '|') :: ((if h.explicit then ['2'] else []) ++ h.chomping.sign)

/-- The header is one for these lines, which are two columns deeper than `n`. -/
structure Header.Heads (h : Header) (n : Nat) (ls more : List Line) : Prop where
  lines : ∀ l ∈ ls, isTextLine (n + 2) l = true
  starts : h.explicit = false → StartsText (n + 2) ls
  cut : Cut n more

theorem ne_of_endsWord {ch : Char} (h : endsWord (ch :: cs) = true) :
    ch ≠ '+' ∧ ch ≠ '-' ∧ ch.isDigit = false := by
  simp only [endsWord, isGap, isBreak, Bool.or_eq_true, beq_iff_eq] at h
  rcases h with (rfl | rfl) | ((((rfl | rfl) | rfl) | rfl) | rfl) <;> decide

theorem takeChomping_of_endsWord (h : endsWord c.rest = true) : takeChomping c = (none, c) := by
  unfold takeChomping chomping?
  split
  · rename_i heq
    split at heq
    · rename_i hrest
      rw [hrest] at h
      exact absurd rfl (ne_of_endsWord h).1
    · rename_i hrest
      rw [hrest] at h
      exact absurd rfl (ne_of_endsWord h).2.1
    · cases heq
  · rfl

theorem takeIncrement_of_endsWord (h : endsWord c.rest = true) (start : Mark) :
    takeIncrement start c = .ok (0, c) := by
  unfold takeIncrement
  split
  · rename_i ch cs hrest
    rw [hrest] at h
    have hdigit := (ne_of_endsWord h).2.2
    have hzero : ch ≠ '0' := by rintro rfl; cases hdigit
    rw [if_neg hzero, if_neg (by rw [hdigit]; exact Bool.false_ne_true)]
  · rfl

theorem takeChomping_sign {chomping : Chomping} (hrest : c.rest = chomping.sign ++ cs)
    (hcs : endsWord cs = true) :
    takeChomping c =
      (if chomping = .clip then none else some chomping, c.advance chomping.sign.length) := by
  cases chomping with
  | clip => exact takeChomping_of_endsWord (hrest ▸ hcs)
  | strip | keep => simp [takeChomping, hrest, Chomping.sign, chomping?]

theorem indicators_eq_ok {h : Header} (hrest : c.rest = h.text ++ cs) (hcs : endsWord cs = true) :
    indicators start (c.advance 1) =
      .ok (h.chomping, if h.explicit then 2 else 0, c.advance h.text.length) := by
  obtain ⟨folded, explicit, chomping⟩ := h
  have hend : endsWord (c.advance (Header.mk folded explicit chomping).text.length).rest = true := by
    rwa [Cursor.advance_rest hrest]
  have hincrement := takeIncrement_of_endsWord hend start
  cases explicit with
  | false =>
    have hsign : (c.advance 1).rest = chomping.sign ++ cs := by
      simp [Cursor.advance, hrest, Header.text]
    have hlength : (Header.mk folded false chomping).text.length = 1 + chomping.sign.length := by
      simp [Header.text, Nat.add_comm]
    rw [hlength] at hincrement ⊢
    rw [indicators, takeChomping_sign hsign hcs, Cursor.advance_advance]
    cases chomping <;> simp [hincrement, bind, Except.bind]
  | true =>
    have hdigit : (c.advance 1).rest = '2' :: (chomping.sign ++ cs) := by
      simp [Cursor.advance, hrest, Header.text]
    have hsign : ((c.advance 1).advance 1).rest = chomping.sign ++ cs := by
      simp [Cursor.advance, hrest, Header.text]
    have hlength : (Header.mk folded true chomping).text.length = 1 + 1 + chomping.sign.length := by
      simp [Header.text]; omega
    have hnone : takeChomping (c.advance 1) = (none, c.advance 1) := by
      simp [takeChomping, hdigit, chomping?]
    have htwo : takeIncrement start (c.advance 1) = .ok (2, (c.advance 1).advance 1) := by
      rw [takeIncrement, hdigit]
      rfl
    rw [indicators, hnone]
    dsimp only
    rw [htwo]
    dsimp only [bind, Except.bind]
    rw [takeChomping_sign hsign hcs, hlength]
    cases chomping <;> simp [Cursor.advance_advance]

/-- What is left of the line of a header is passed. -/
theorem skipComment_blankText {tail : List Char} (hblank : isBlankText tail = true)
    (hrest : c.rest = tail ++ cs) (hcs : endsLine cs = true) :
    c.skipComment = c.advance tail.length := by
  have hstop : ∀ ch ∈ cs.head?, isBreak ch = true := by
    intro ch hch
    obtain ⟨more, rfl⟩ := List.head?_eq_some_iff.1 hch
    exact hcs
  have hgap : ∀ ch, isBreak ch = true → isGap ch = false := by
    intro ch hch
    simp only [isBreak, Bool.or_eq_true, beq_iff_eq] at hch
    rcases hch with (((rfl | rfl) | rfl) | rfl) | rfl <;> rfl
  have hspaces : ∀ k, (List.replicate k ' ').all isGap = true := fun k =>
    List.all_eq_true.2 fun ch hch => by rw [(List.mem_replicate.1 hch).2]; rfl
  obtain ⟨k, rest, rfl, hbody⟩ := Lexer.isBlankText_cases hblank
  rw [List.append_assoc] at hrest
  have hskip : c.skipWhile isGap = c.advance k := by
    rw [Cursor.skipWhile, Cursor.span_eq hrest (hspaces k), List.length_replicate]
    rcases hbody with rfl | ⟨body, rfl, -⟩
    · exact fun ch hch => hgap ch (hstop ch hch)
    · rintro ch ⟨⟩
      rfl
  have hafter : (c.advance k).rest = rest ++ cs := by simp [Cursor.advance, hrest]
  rw [Cursor.skipComment, hskip]
  rcases hbody with rfl | ⟨body, rfl, hbody⟩
  · have hno : (c.advance k).rest.head? ≠ some '#' := by
      rw [hafter]
      exact fun hhead => absurd (hstop '#' hhead) (by decide)
    rw [if_neg hno]
    simp
  · rw [if_pos (by rw [hafter]; rfl), Cursor.skipWhile, @Cursor.span_eq (!isBreak ·) _ _ _ hafter hbody
      fun ch hch => by rw [hstop ch hch]; rfl, Cursor.advance_advance]
    simp

theorem length_pastIndent (h : PastIndent more c) : c.rest.length ≤ (Source.text more).length := by
  cases more with
  | nil => exact Nat.le_of_eq (congrArg List.length h)
  | cons l ls =>
    obtain ⟨start, hrest, -, rfl⟩ := h
    simp [Cursor.advance, ← hrest]

/-- What is read below a header. -/
theorem below_eq_ok {h : Header} (hheads : h.Heads n ls more) (hpassable : Passable (ls ++ more))
    (hrest : c.rest = Source.text (ls ++ more)) (hcolumn : c.rest ≠ [] → c.mark.column = 0)
    (start : Mark) :
    ∃ leading e, breaks (if h.explicit then n + 2 else 0) start c = .ok leading ∧
      blockLines h.folded (if h.explicit then n + 2 else max (max leading.deepest (n + 1)) 1) start
          (c.rest.length + 1) ⟨[], [], false⟩ leading =
        .ok ((ls.foldl (addLine h.folded (n + 2)) (⟨[], [], false⟩, [])).1, e) ∧
      e.text = (ls.foldl (addLine h.folded (n + 2)) (⟨[], [], false⟩, [])).2 ∧
      PastIndent more e.cursor := by
  have hdeep : n < n + 2 := Nat.lt_add_of_pos_right Nat.two_pos
  obtain ⟨leading, e, hleading, hlines, hall⟩ :=
    @blockLines_eq_ok h.folded (n + 2) n _ 0 start c.mark c [] ls more ⟨[], [], false⟩ _ hheads.lines
      hpassable hheads.cut hdeep hrest hcolumn (Nat.lt_succ_self _) (Nat.lt_succ_self _)
  cases hexplicit : h.explicit with
  | true => exact ⟨leading, e, hleading, hlines, hall⟩
  | false =>
    obtain ⟨first, hboth, hwhere⟩ := @breaksFrom_detected (n + 2) n _ 0 start c.mark c [] ls more
      hheads.lines (hheads.starts hexplicit) hpassable hheads.cut hdeep hrest hcolumn
      (Nat.zero_le _) (Nat.lt_succ_self _)
    obtain rfl : leading = first := Except.ok.inj (hleading.symm.trans (hboth (n + 2) (.inr rfl)))
    exact ⟨leading, e, hboth 0 (.inl rfl), (blockLines_detected hdeep hwhere).trans hlines, hall⟩

/-- **A block scalar** is read as the text that its lines hold, and the next line comes after it. -/
theorem block_eq_ok {h : Header} {tail : List Char}
    (hrest : c.rest = h.text ++ (tail ++ (t.text ++ Source.text (ls ++ more))))
    (htail : LineEnd tail) (hlast : t = .none → ls ++ more = []) (hpassable : Passable (ls ++ more))
    (hheads : h.Heads n ls more) :
    ∃ s, block h.folded n c = .ok s ∧ s.text = blockText h.folded h.chomping (n + 2) ls ∧
      s.broken = false ∧ PastIndent more s.cursor ∧ s.cursor.rest.length < c.rest.length := by
  have hnil : t = .none → Source.text (ls ++ more) = [] := fun h => by rw [hlast h]; rfl
  have hends : endsLine (t.text ++ Source.text (ls ++ more)) = true :=
    Lexer.endsLine_terminator hnil
  have hword := htail.endsWord hends
  have hbehind := Cursor.advance_rest hrest
  obtain ⟨c', htake, hbelow, hcolumn⟩ := @takeBreak_line ((c.advance h.text.length).advance tail.length)
    (Source.text (ls ++ more)) ⟨[], t⟩ hnil (Cursor.advance_rest hbehind)
  have hskip : ((c.advance h.text.length).advance tail.length).skipBreak = c' :=
    congrArg Prod.snd htake
  obtain ⟨leading, e, hleading, hlines, htext, hpast⟩ := below_eq_ok hheads hpassable hbelow hcolumn c.mark
  let read := ls.foldl (addLine h.folded (n + 2)) (⟨[], [], false⟩, [])
  have hshort : e.cursor.rest.length < c.rest.length := by
    have hle := length_pastIndent hpast
    simp only [hrest, Header.text, Source.text, List.flatMap_append, List.length_append,
      List.length_cons] at hle ⊢
    omega
  have hknown : (if (if h.explicit = true then 2 else 0) = 0 then 0
      else (max (n : Int) 0).toNat + (if h.explicit = true then 2 else 0)) =
        if h.explicit then n + 2 else 0 := by
    cases h.explicit <;> simp
  have hindent : (if (if h.explicit then n + 2 else 0) = 0 then
      max (max leading.deepest ((n : Int) + 1).toNat) 1 else if h.explicit then n + 2 else 0) =
        if h.explicit then n + 2 else max (max leading.deepest (n + 1)) 1 := by
    have hnext : ((n : Int) + 1).toNat = n + 1 := rfl
    cases h.explicit <;> simp [hnext]
  refine ⟨⟨read.1.read.reverse ++ h.chomping.tail read.1.lastBreak e.text, e.stop, e.cursor, false⟩,
    ?_, by rw [htext]; rfl, rfl, hpast, hshort⟩
  rw [block, indicators_eq_ok hrest hword]
  dsimp only [bind, Except.bind]
  rw [skipComment_blankText htail.blank hbehind hends, Cursor.advance_rest hbehind]
  simp only [hends, hskip, hknown, hleading, hindent, hlines]
  rfl

def blockStyle (folded : Bool) : ScalarStyle := if folded then .folded else .literal

end Scalar

/-! ## The next token -/

namespace Lexer
open Scalar (Header blockStyle blockText)

variable {lx here : Lexer} {kinds : List TokenKind} {stack : List Nat} {column n : Nat}
  {allowed : Bool} {tail : List Char} {t : Terminator} {ls more : List Line}

theorem token_eq_blockScalar (h : Header) (cs : List Char) (hflow : lx.inFlow = false) :
    ∃ ch more, h.text ++ cs = ch :: more ∧ ch ≠ '%' ∧ ch ≠ '.' ∧ ch ≠ '-' ∧
      lx.token ch more = lx.blockScalar (blockStyle h.folded) := by
  obtain ⟨folded, explicit, chomping⟩ := h
  cases folded with
  | false =>
    refine ⟨'|', _, rfl, by decide, by decide, by decide, ?_⟩
    simp [token, hflow, blockStyle]
  | true =>
    refine ⟨'>', _, rfl, by decide, by decide, by decide, ?_⟩
    simp [token, hflow, blockStyle]

/-- A block scalar, up to the next line. -/
theorem Ready.blockScalar {h : Header}
    (hready : Ready lx kinds stack 0 column
      (h.text ++ (tail ++ (t.text ++ Source.text (ls ++ more)))) allowed)
    (hfloor : floor stack = n) (hcolumn : n ≤ column) (htail : LineEnd tail)
    (hlast : t = .none → ls ++ more = []) (hpassable : Passable (ls ++ more)) (hstart : Starts more)
    (hheads : h.Heads n ls more) :
    ∃ lx', Advances lx lx' ∧
      Goes lx' (kinds ++ [.scalar (blockStyle h.folded) (blockText h.folded h.chomping (n + 2) ls)]) stack more := by
  refine hready.step (fun _ => by omega) fun here c hat hrest hmark => ?_
  obtain ⟨s, hread, htext, hbroken, hpast, hlength⟩ :=
    Scalar.block_eq_ok hrest htail hlast hpassable hheads
  obtain ⟨ch, cs, hcons, hdirective, hpoint, hdash, htoken⟩ :=
    @token_eq_blockScalar here h (tail ++ (t.text ++ Source.text (ls ++ more))) hat.inFlow_eq
  rw [hcons] at hrest
  obtain ⟨dropped, hdrop, hdropped, hsame⟩ := hat.dropKey
  obtain ⟨lx', hok, hat', hpotential⟩ := (hdropped.allowKey true).pushScalar (blockStyle h.folded) hread hlength
  obtain ⟨c', hpasses, hposition⟩ := passes_pastIndent hpast hpassable.of_append hstart
  refine ⟨lx', ?_, by rw [← hsame]; exact hpotential, ?_⟩
  · have hfolded : ((blockStyle h.folded) == .folded) = h.folded := by
      unfold blockStyle
      cases h.folded <;> rfl
    rw [hat.readToken_eq hrest hdirective
      (atDocumentIndicator_eq_false hrest hpoint fun h => absurd h hdash), htoken, Lexer.blockScalar,
      hdrop]
    simp only [bind, Except.bind, hfolded, hdropped.indent_eq, hdropped.cursor_eq, hfloor]
    exact hok
  · rw [htext, Bool.true_or] at hat'
    exact (hat'.ready hpasses).goes hposition fun _ => rfl

end Lexer

end SchemaTidy.Yaml
