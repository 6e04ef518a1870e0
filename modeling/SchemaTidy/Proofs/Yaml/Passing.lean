import Mathlib.Data.List.TakeWhile
import SchemaTidy.Proofs.Yaml.Streaming
import SchemaTidy.Source.Basic

/-! # Blanks between tokens

Before each token the lexer passes spaces, comments and line breaks. `Passes` says where this ends,
and `passes_lines` says it for a text given as lines: at the first line that holds more than
spaces and a comment. -/

namespace SchemaTidy.Yaml
open Source (Line Terminator)

/-! ## Cursors -/

namespace Cursor

theorem advance_advance (c : Cursor) (m n : Nat) : (c.advance m).advance n = c.advance (m + n) := by
  simp [advance, Nat.add_assoc, List.drop_drop]

@[simp] theorem advance_zero (c : Cursor) : c.advance 0 = c := rfl

theorem advance_rest {c : Cursor} {taken more : List Char} (h : c.rest = taken ++ more) :
    (c.advance taken.length).rest = more := by
  simp [advance, h]

theorem skipWhile_of_pos {test : Char → Bool} {c : Cursor} {ch : Char} {more : List Char}
    (h : c.rest = ch :: more) (htest : test ch = true) :
    c.skipWhile test = (c.advance 1).skipWhile test := by
  have hmore : (c.advance 1).rest = more := by simp [advance, h]
  have htaken : c.rest.takeWhile test = ch :: more.takeWhile test := by
    rw [h, List.takeWhile_cons_of_pos htest]
  rw [skipWhile, span, skipWhile, span, htaken, hmore, advance_advance, List.length_cons,
    Nat.add_comm]

/-- The characters that pass the test are taken up to one that fails it. -/
theorem span_eq {test : Char → Bool} {c : Cursor} {run more : List Char}
    (hrest : c.rest = run ++ more) (hrun : run.all test = true)
    (hmore : ∀ ch ∈ more.head?, test ch = false) : c.span test = (run, c.advance run.length) := by
  have htaken : c.rest.takeWhile test = run := by
    rw [hrest, List.takeWhile_append_of_pos (List.all_eq_true.1 hrun)]
    cases more with
    | nil => simp
    | cons d ds => rw [List.takeWhile_cons_of_neg (by simp [hmore d rfl]), List.append_nil]
  rw [span, htaken]

theorem skipWhile_of_neg {test : Char → Bool} {c : Cursor}
    (h : ∀ ch ∈ c.rest.head?, test ch = false) : c.skipWhile test = c := by
  have htaken : c.rest.takeWhile test = [] := by
    cases hrest : c.rest with
    | nil => rfl
    | cons ch more => exact List.takeWhile_cons_of_neg (by simp [h ch (by rw [hrest]; rfl)])
  rw [skipWhile, span, htaken]
  rfl

/-- No byte order mark stands at the start of a line here. -/
def Unmarked (c : Cursor) : Prop := c.mark.column = 0 → c.rest.head? ≠ some byteOrderMark

variable {c : Cursor}

theorem Unmarked.of_head (h : c.rest.head? ≠ some byteOrderMark) : c.Unmarked := fun _ => h

theorem Unmarked.of_cons {ch : Char} {more : List Char} (h : c.rest = ch :: more)
    (hch : ch ≠ byteOrderMark) : c.Unmarked := .of_head fun hhead =>
  hch (Option.some.inj (by rwa [h] at hhead))

theorem Unmarked.of_nil (h : c.rest = []) : c.Unmarked := .of_head (by rw [h]; exact nofun)

theorem Unmarked.of_column (h : 0 < c.mark.column) : c.Unmarked :=
  fun hzero => absurd hzero (Nat.ne_of_gt h)

theorem Unmarked.of_advance (c : Cursor) {n : Nat} (h : 0 < n) : (c.advance n).Unmarked :=
  .of_column (Nat.add_pos_right _ h)

theorem Unmarked.skipMark_eq_self (h : c.Unmarked) : c.skipMark = c :=
  if_neg fun hmark => h hmark.1 hmark.2

theorem length_skipMark (c : Cursor) : c.skipMark.rest.length ≤ c.rest.length := by
  unfold skipMark
  split
  · simp [advance]
  · exact Nat.le_refl _

end Cursor

namespace Lexer

/-- No blank, comment or line break comes first. -/
def startsToken : List Char → Bool
  | [] => true
  | c :: _ => !isGap c && c != '#' && !isBreak c

/-- From here the lexer passes blanks up to the second cursor. -/
def Passes (inFlow allowed : Bool) (c : Cursor) (allowed' : Bool) (c' : Cursor) : Prop :=
  ∀ fuel, c.rest.length < fuel → passBlanks inFlow fuel allowed c = (allowed', c')

variable {inFlow allowed allowed' : Bool} {c c' : Cursor} {more : List Char}

theorem passBlanks_succ (fuel : Nat) : passBlanks inFlow (fuel + 1) allowed c =
    let c := afterComment (inFlow || !allowed) c
    if c.rest.head?.any isBreak then passBlanks inFlow fuel (allowed || !inFlow) c.skipBreak
    else (allowed, c) := rfl

/-- The cursor stays where neither a blank nor a comment starts. -/
theorem afterComment_eq_self {tabs : Bool} (hmark : c.Unmarked) (hspace : c.rest.head? ≠ some ' ')
    (htab : tabs = true → c.rest.head? ≠ some '\t') (hcomment : c.rest.head? ≠ some '#') :
    afterComment tabs c = c := by
  unfold afterComment
  rw [hmark.skipMark_eq_self, Cursor.skipWhile_of_neg, if_neg hcomment]
  intro ch hch
  have hne : ch ≠ ' ' := fun heq => hspace (heq ▸ hch)
  cases tabs with
  | false => simp [hne]
  | true =>
    have hne' : ch ≠ '\t' := fun heq => htab rfl (heq ▸ hch)
    simp [hne, hne']

theorem afterComment_of_break {tabs : Bool} (h : c.rest.head?.any isBreak = true) :
    afterComment tabs c = c := by
  have hne : ∀ ch, isBreak ch = false → c.rest.head? ≠ some ch := by
    intro ch hch hhead
    rw [hhead] at h
    exact Bool.false_ne_true (hch.symm.trans h)
  exact afterComment_eq_self (.of_head (hne byteOrderMark (by decide))) (hne ' ' (by decide))
    (fun _ => hne '\t' (by decide)) (hne '#' (by decide))

theorem Passes.of_stay (hstay : afterComment (inFlow || !allowed) c = c)
    (hbreak : c.rest.head?.any isBreak = false) : Passes inFlow allowed c allowed c := by
  intro fuel hfuel
  obtain ⟨fuel, rfl⟩ := Nat.exists_eq_succ_of_ne_zero (Nat.ne_of_gt (Nat.zero_lt_of_lt hfuel))
  rw [passBlanks_succ, hstay]
  exact if_neg (by simp [hbreak])

theorem Passes.here (h : startsToken c.rest = true) (hmark : c.Unmarked) :
    Passes inFlow allowed c allowed c := by
  have hne : ∀ ch, startsToken [ch] = false → c.rest.head? ≠ some ch := by
    intro ch hch hhead
    obtain ⟨more, hrest⟩ := List.head?_eq_some_iff.1 hhead
    rw [hrest] at h
    exact Bool.false_ne_true (hch.symm.trans h)
  refine .of_stay (afterComment_eq_self hmark (hne ' ' (by decide))
    (fun _ => hne '\t' (by decide)) (hne '#' (by decide))) ?_
  rw [Bool.eq_false_iff, ne_eq, Option.any_eq_true]
  rintro ⟨ch, hhead, hbreak⟩
  exact hne ch (by simp [startsToken, hbreak]) hhead

theorem length_afterComment (tabs : Bool) (c : Cursor) :
    (afterComment tabs c).rest.length ≤ c.rest.length := by
  have hskip : ∀ (test : Char → Bool) (c : Cursor), (c.skipWhile test).rest.length ≤ c.rest.length :=
    fun test c => by simp [Cursor.skipWhile, Cursor.span, Cursor.advance]
  have hblanks (test : Char → Bool) : (c.skipMark.skipWhile test).rest.length ≤ c.rest.length :=
    (hskip test _).trans c.length_skipMark
  unfold afterComment
  dsimp only
  split
  · exact (hskip _ _).trans (hblanks _)
  · exact hblanks _

theorem length_skipBreak (h : c.rest.head?.any isBreak = true) :
    c.skipBreak.rest.length < c.rest.length := by
  unfold Cursor.skipBreak Cursor.takeBreak
  split
  · rename_i heq
    simp only [Cursor.nextLine, heq, List.length_drop, List.length_cons]
    omega
  · rename_i heq
    rw [heq] at h
    rw [if_pos (show isBreak _ = true from h)]
    simp [Cursor.nextLine, heq]
  · rename_i heq
    rw [heq] at h
    cases h

/-- Each round passes a line break, so the length of the text is fuel enough. -/
theorem passBlanks_congr {m n : Nat} (hm : c.rest.length < m) (hn : c.rest.length < n) :
    passBlanks inFlow m allowed c = passBlanks inFlow n allowed c := by
  induction m generalizing n c allowed with
  | zero => exact absurd hm (Nat.not_lt_zero _)
  | succ m ih =>
    obtain ⟨n, rfl⟩ := Nat.exists_eq_succ_of_ne_zero (Nat.ne_of_gt (Nat.zero_lt_of_lt hn))
    rw [passBlanks_succ, passBlanks_succ]
    dsimp only
    split
    · rename_i hbreak
      have hshort := (length_skipBreak hbreak).trans_le (length_afterComment _ c)
      exact ih (by omega) (by omega)
    · rfl

/-- What the rest of a line depends on is where its blanks end. -/
theorem Passes.of_afterComment {c₁ : Cursor}
    (heq : afterComment (inFlow || !allowed) c = afterComment (inFlow || !allowed) c₁)
    (h : Passes inFlow allowed c₁ allowed' c') : Passes inFlow allowed c allowed' c' := by
  intro fuel hfuel
  rw [passBlanks_congr hfuel (Nat.lt_succ_of_le (Nat.le_max_left c.rest.length c₁.rest.length)),
    passBlanks_succ, heq, ← passBlanks_succ]
  exact h _ (Nat.lt_succ_of_le (Nat.le_max_right _ _))

/-- Spaces in front make no difference to where the blanks end. -/
theorem afterComment_spaces {n : Nat} (tabs : Bool) (hrest : c.rest = List.replicate n ' ' ++ more) :
    afterComment tabs c = afterComment tabs (c.advance n) := by
  induction n generalizing c with
  | zero => rfl
  | succ n ih =>
    rw [List.replicate_succ, List.cons_append] at hrest
    have hmark : c.Unmarked := .of_cons hrest (by decide)
    have hnext : (c.advance 1).rest = List.replicate n ' ' ++ more := by simp [Cursor.advance, hrest]
    have hstep : afterComment tabs c = afterComment tabs (c.advance 1) := by
      unfold afterComment
      rw [hmark.skipMark_eq_self, (Cursor.Unmarked.of_advance c Nat.one_pos).skipMark_eq_self,
        Cursor.skipWhile_of_pos hrest (by simp)]
    rw [hstep, ih hnext, Cursor.advance_advance, Nat.add_comm]

theorem Passes.spaces {n : Nat} (hrest : c.rest = List.replicate n ' ' ++ more)
    (h : Passes inFlow allowed (c.advance n) allowed' c') :
    Passes inFlow allowed c allowed' c' := h.of_afterComment (afterComment_spaces _ hrest)

theorem Passes.behind_spaces {n : Nat} (hrest : c.rest = List.replicate n ' ' ++ more)
    (h : Passes inFlow allowed c allowed' c') : Passes inFlow allowed (c.advance n) allowed' c' :=
  h.of_afterComment (afterComment_spaces _ hrest).symm

theorem Passes.comment {body : List Char} (hrest : c.rest = '#' :: body ++ more)
    (hbody : body.all (!isBreak ·) = true) (hmore : endsLine more = true)
    (h : Passes inFlow allowed (c.advance (body.length + 1)) allowed' c') :
    Passes inFlow allowed c allowed' c' := by
  have hafter : (c.advance (body.length + 1)).rest = more := by
    simp [Cursor.advance, hrest]
  have hstop : ∀ ch ∈ more.head?, isBreak ch = true := by
    intro ch hch
    cases more with
    | nil => cases hch
    | cons d ds => exact Option.some.inj hch ▸ hmore
  have hspan : c.span (!isBreak ·) = ('#' :: body, c.advance (body.length + 1)) :=
    Cursor.span_eq hrest hbody fun ch hch => by rw [hstop ch hch]; rfl
  have hhere : afterComment (inFlow || !allowed) c = c.advance (body.length + 1) := by
    have hhead : c.rest.head? = some '#' := by rw [hrest]; rfl
    have hmark : c.Unmarked := .of_cons hrest (by decide)
    unfold afterComment
    rw [hmark.skipMark_eq_self, Cursor.skipWhile_of_neg (by rw [hhead]; simp), if_pos hhead,
      Cursor.skipWhile, hspan]
  have hthere : afterComment (inFlow || !allowed) (c.advance (body.length + 1)) =
      c.advance (body.length + 1) := by
    have hne : ∀ ch, isBreak ch = false → (c.advance (body.length + 1)).rest.head? ≠ some ch := by
      intro ch hch hhead
      rw [hafter] at hhead
      exact Bool.false_ne_true (hch.symm.trans (hstop ch hhead))
    exact afterComment_eq_self (.of_advance c (Nat.succ_pos _)) (hne ' ' (by decide))
      (fun _ => hne '\t' (by decide)) (hne '#' (by decide))
  exact h.of_afterComment (hhere.trans hthere.symm)

/-- The cursor at the start of the next line. -/
def lineAfter (c : Cursor) (t : Terminator) (more : List Char) : Cursor :=
  ⟨⟨c.mark.index + t.text.length, c.mark.line + 1, 0⟩, more⟩

theorem skipBreak_of_terminator {t : Terminator} (ht : t ≠ .none) (hrest : c.rest = t.text ++ more) :
    c.skipBreak = lineAfter c t more := by
  cases t with
  | none => exact absurd rfl ht
  | lf => simp [Cursor.skipBreak, Cursor.takeBreak, hrest, Terminator.text, isBreak, Cursor.nextLine,
      lineAfter]
  | crlf => simp [Cursor.skipBreak, Cursor.takeBreak, hrest, Terminator.text, Cursor.nextLine,
      lineAfter]

theorem Passes.lineBreak {t : Terminator} (ht : t ≠ .none) (hrest : c.rest = t.text ++ more)
    (h : Passes inFlow (allowed || !inFlow) (lineAfter c t more) allowed' c') :
    Passes inFlow allowed c allowed' c' := by
  intro fuel hfuel
  obtain ⟨fuel, rfl⟩ := Nat.exists_eq_succ_of_ne_zero (Nat.ne_of_gt (Nat.zero_lt_of_lt hfuel))
  obtain ⟨b, bs, htext, hb⟩ : ∃ b bs, t.text = b :: bs ∧ (b = '\n' ∨ b = '\r') := by
    cases t with
    | none => exact absurd rfl ht
    | lf => exact ⟨_, _, rfl, .inl rfl⟩
    | crlf => exact ⟨_, _, rfl, .inr rfl⟩
  have hhead : c.rest.head? = some b := by rw [hrest, htext]; rfl
  have hbreak : c.rest.head?.any isBreak = true := by
    rw [hhead]
    rcases hb with rfl | rfl <;> rfl
  rw [passBlanks_succ, afterComment_of_break hbreak]
  dsimp only
  rw [if_pos hbreak, skipBreak_of_terminator ht hrest]
  refine h fuel ?_
  rw [hrest, htext] at hfuel
  simp only [lineAfter, List.cons_append, List.length_cons, List.length_append] at hfuel ⊢
  omega

/-! ## Lines -/

/-- Only spaces, or spaces and a comment. -/
def isBlankText (cs : List Char) : Bool :=
  match cs.dropWhile (· == ' ') with
  | [] => true
  | '#' :: body => body.all (!isBreak ·)
  | _ => false

theorem takeWhile_spaces (cs : List Char) :
    cs.takeWhile (· == ' ') = List.replicate (cs.takeWhile (· == ' ')).length ' ' :=
  List.eq_replicate_of_mem fun _ hc => beq_iff_eq.1 (List.mem_takeWhile_imp (p := (· == ' ')) hc)

theorem isBlankText_cases {cs : List Char} (h : isBlankText cs = true) :
    ∃ n rest, cs = List.replicate n ' ' ++ rest ∧
      (rest = [] ∨ ∃ body, rest = '#' :: body ∧ body.all (!isBreak ·) = true) := by
  refine ⟨(cs.takeWhile (· == ' ')).length, cs.dropWhile (· == ' '), ?_, ?_⟩
  · rw [← takeWhile_spaces, List.takeWhile_append_dropWhile]
  · unfold isBlankText at h
    split at h
    · exact .inl ‹_›
    · exact .inr ⟨_, ‹_›, h⟩
    · cases h

theorem endsLine_terminator {t : Terminator} (h : t = .none → more = []) :
    endsLine (t.text ++ more) = true := by
  cases t with
  | none => rw [h rfl]; rfl
  | lf => rfl
  | crlf => rfl

/-- What may follow on a line: blanks, or a comment that is apart from what stands before it. -/
structure LineEnd (tail : List Char) : Prop where
  blank : isBlankText tail = true
  apart : tail.head? ≠ some '#'

theorem LineEnd.endsWord {tail cs : List Char} (h : LineEnd tail) (hcs : endsLine cs = true) :
    endsWord (tail ++ cs) = true := by
  obtain ⟨n, rest, rfl, hrest⟩ := isBlankText_cases h.blank
  cases n with
  | succ n => rfl
  | zero =>
    rcases hrest with rfl | ⟨body, rfl, -⟩
    · cases cs with
      | nil => rfl
      | cons c cs => exact Bool.or_eq_true_iff.2 (.inr hcs)
    · exact absurd rfl h.apart

/-- The rest of a line that holds nothing else is passed. -/
theorem Passes.blankText {cs : List Char} {t : Terminator} (hcs : isBlankText cs = true)
    (ht : t = .none → more = []) (hrest : c.rest = cs ++ (t.text ++ more))
    (h : Passes inFlow allowed (c.advance cs.length) allowed' c') :
    Passes inFlow allowed c allowed' c' := by
  obtain ⟨n, rest, rfl, hbody⟩ := isBlankText_cases hcs
  rw [List.append_assoc] at hrest
  refine .spaces hrest ?_
  rcases hbody with rfl | ⟨body, rfl, hbody⟩
  · simpa using h
  · have hcomment : (c.advance n).rest = '#' :: body ++ (t.text ++ more) := by
      simp [Cursor.advance, hrest]
    refine .comment hcomment hbody (endsLine_terminator ht) ?_
    rw [Cursor.advance_advance]
    simpa using h

/-- The column and the text of the next line that holds more than blanks and a comment. -/
def position : List Line → Option (Nat × List Char)
  | [] => none
  | l :: ls =>
    if isBlankText l.content then position ls
    else some (l.indent, l.content.drop l.indent ++ (l.terminator.text ++ Source.text ls))

/-- Only the last line may lack a terminator, and no line starts with a byte order mark. -/
def Passable : List Line → Prop
  | [] => True
  | l :: ls => (l.terminator = .none → ls = []) ∧ l.content.head? ≠ some byteOrderMark ∧ Passable ls

theorem Passable.of_append {front ls : List Line} (h : Passable (front ++ ls)) : Passable ls := by
  induction front with
  | nil => exact h
  | cons l front ih => exact ih h.2.2

theorem text_cons (l : Line) (ls : List Line) :
    Source.text (l :: ls) = l.content ++ (l.terminator.text ++ Source.text ls) := by
  simp [Source.text]

theorem indent_append_drop (l : Line) :
    l.content = List.replicate l.indent ' ' ++ l.content.drop l.indent := by
  have htaken : l.content.takeWhile (· == ' ') = l.content.take l.indent :=
    List.prefix_iff_eq_take.1 (List.takeWhile_prefix _)
  have hspaces : List.replicate l.indent ' ' = l.content.take l.indent :=
    (takeWhile_spaces l.content).symm.trans htaken
  rw [hspaces, List.take_append_drop]

/-- The cursor is where a text that is given as lines goes on. -/
structure AtPosition (ls : List Line) (c : Cursor) : Prop where
  rest_eq : c.rest = ((position ls).map (·.2)).getD []
  column_eq : ∀ column rest, position ls = some (column, rest) → c.mark.column = column

/-- What comes next is the first character of a token. -/
def Starts (ls : List Line) : Prop :=
  ∀ column rest, position ls = some (column, rest) → startsToken rest = true

theorem position_cons_of_blank {l : Line} {ls : List Line} (h : isBlankText l.content = true) :
    position (l :: ls) = position ls := if_pos h

theorem position_cons {l : Line} {ls : List Line} (h : ¬ isBlankText l.content = true) :
    position (l :: ls) =
      some (l.indent, l.content.drop l.indent ++ (l.terminator.text ++ Source.text ls)) := if_neg h

/-- From the start of a line, the lexer passes blank lines, and the indentation after them. -/
theorem passes_lines {ls : List Line} {c : Cursor} (hrest : c.rest = Source.text ls)
    (hcolumn : c.mark.column = 0) (hpassable : Passable ls) (hstart : Starts ls) :
    ∃ c', Passes false true c true c' ∧ AtPosition ls c' := by
  induction ls generalizing c with
  | nil =>
    have hmark : c.Unmarked := .of_nil hrest
    exact ⟨c, .here (by rw [hrest]; rfl) hmark, by simp [hrest, position, Source.text],
      by simp [position]⟩
  | cons l ls ih =>
    rw [text_cons] at hrest
    by_cases hblank : isBlankText l.content = true
    · obtain ⟨c', hpasses, hat⟩ : ∃ c', Passes false true (c.advance l.content.length) true c' ∧
          AtPosition (l :: ls) c' := by
        have hafter : (c.advance l.content.length).rest = l.terminator.text ++ Source.text ls :=
          Cursor.advance_rest hrest
        by_cases hnone : l.terminator = .none
        · obtain rfl := hpassable.1 hnone
          have hend : (c.advance l.content.length).rest = [] := by rw [hafter, hnone]; rfl
          refine ⟨_, .here (by rw [hend]; rfl) (.of_nil hend), ?_, ?_⟩
          · rw [hend, position_cons_of_blank hblank]
            rfl
          · rw [position_cons_of_blank hblank]
            simp [position]
        · obtain ⟨c', hpasses, hat⟩ := ih (c := lineAfter (c.advance l.content.length) l.terminator
            (Source.text ls)) rfl rfl hpassable.2.2 (by rwa [Starts, ← position_cons_of_blank hblank])
          refine ⟨c', .lineBreak hnone hafter hpasses, ?_⟩
          have hposition : position (l :: ls) = position ls := position_cons_of_blank hblank
          exact ⟨hposition ▸ hat.rest_eq, hposition ▸ hat.column_eq⟩
      exact ⟨c', .blankText hblank (fun h => by rw [hpassable.1 h]; rfl) hrest hpasses, hat⟩
    · have hposition := @position_cons l ls hblank
      rw [indent_append_drop l, List.append_assoc] at hrest
      have hafter := Cursor.advance_rest hrest
      rw [List.length_replicate] at hafter
      have hmark : (c.advance l.indent).Unmarked := by
        rcases Nat.eq_zero_or_pos l.indent with hzero | hpos
        · refine .of_head ?_
          obtain ⟨ch, cs, hcontent⟩ := List.exists_cons_of_ne_nil fun hnil : l.content = [] =>
            hblank (by rw [hnil]; rfl)
          have hhead := hpassable.2.1
          rw [hcontent] at hhead
          rwa [hafter, hzero, hcontent]
        · exact .of_advance c hpos
      refine ⟨c.advance l.indent, .spaces hrest (.here ?_ hmark), ?_, ?_⟩
      · rw [hafter]
        exact hstart _ _ hposition
      · rw [hafter, hposition]
        rfl
      · intro column rest heq
        rw [hposition] at heq
        obtain ⟨rfl, -⟩ := Prod.mk.inj (Option.some.inj heq)
        simp [Cursor.advance, hcolumn]

/-- The cursor has passed the indentation of the next line. -/
def PastIndent (ls : List Line) (c : Cursor) : Prop :=
  match ls with
  | [] => c.rest = []
  | l :: _ => ∃ start : Cursor,
    start.rest = Source.text ls ∧ start.mark.column = 0 ∧ c = start.advance l.indent

/-- It makes no difference that the indentation of the first line was passed before. -/
theorem passes_pastIndent {ls : List Line} {c : Cursor} (h : PastIndent ls c)
    (hpassable : Passable ls) (hstart : Starts ls) :
    ∃ c', Passes false true c true c' ∧ AtPosition ls c' := by
  cases ls with
  | nil =>
    have hend : c.rest = [] := h
    exact ⟨c, .here (by rw [hend]; rfl) (.of_nil hend), by rw [hend]; rfl, by simp [position]⟩
  | cons l ls =>
    obtain ⟨start, hrest, hcolumn, rfl⟩ := h
    obtain ⟨c', hpasses, hat⟩ := passes_lines hrest hcolumn hpassable hstart
    rw [text_cons, indent_append_drop l, List.append_assoc] at hrest
    exact ⟨c', hpasses.behind_spaces hrest, hat⟩

/-- From the blank end of a line on. -/
theorem passes_lineEnd {cs : List Char} {t : Terminator} {ls : List Line} {c : Cursor}
    (hrest : c.rest = cs ++ (t.text ++ Source.text ls)) (hcs : isBlankText cs = true)
    (ht : t = .none → ls = []) (hpassable : Passable ls) (hstart : Starts ls) :
    ∃ allowed' c', Passes false allowed c allowed' c' ∧ AtPosition ls c' ∧
      (position ls ≠ none → allowed' = true) := by
  have hafter : (c.advance cs.length).rest = t.text ++ Source.text ls := Cursor.advance_rest hrest
  have hnil : t = .none → Source.text ls = [] := fun h => by rw [ht h]; rfl
  by_cases hnone : t = .none
  · obtain rfl := ht hnone
    have hend : (c.advance cs.length).rest = [] := by rw [hafter, hnone]; rfl
    have hmark : (c.advance cs.length).Unmarked := .of_nil hend
    exact ⟨allowed, _, .blankText hcs hnil hrest (.here (by rw [hend]; rfl) hmark),
      ⟨by rw [hend]; rfl, by simp [position]⟩, fun h => absurd rfl h⟩
  · obtain ⟨c', hpasses, hat⟩ := passes_lines
      (c := lineAfter (c.advance cs.length) t (Source.text ls)) rfl rfl hpassable hstart
    refine ⟨true, c', .blankText hcs hnil hrest (.lineBreak hnone hafter ?_), hat, fun _ => rfl⟩
    rwa [Bool.not_false, Bool.or_true]

end Lexer

end SchemaTidy.Yaml
