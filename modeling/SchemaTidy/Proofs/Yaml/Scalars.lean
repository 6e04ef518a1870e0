import SchemaTidy.Proofs.Yaml.Passing

/-! # Scalars of one line

What the scanners make of words with spaces between them, and of a quoted text without escapes.
A plain scalar reads on over blanks, comments and line breaks; it stops on the way to the next
token (`plainAfter_eq_ok`). -/

namespace SchemaTidy.Yaml
open Lexer (Passes startsToken passBlanks_succ afterComment)

/-! ## Gaps -/

namespace Gap

variable {indent : Int} {fuel : Nat} {g : Gap} {c : Cursor} {run more : List Char}

/-- Neither a gap nor a line break comes first. -/
def ended : List Char → Bool
  | [] => true
  | ch :: _ => !isGap ch && !isBreak ch

theorem scan_ended (h : ended c.rest = true) : scan indent fuel g c = (g, c) := by
  cases fuel with
  | zero => rfl
  | succ fuel =>
    cases hrest : c.rest with
    | nil => simp only [scan, hrest]
    | cons ch cs =>
      rw [hrest, ended, Bool.and_eq_true, Bool.not_eq_true', Bool.not_eq_true'] at h
      simp only [scan, hrest, h.1, h.2, Bool.false_eq_true, if_false]

/-- Blanks of one line are kept. -/
theorem scan_run (hg : g.broken = false) (hrest : c.rest = run ++ more)
    (hrun : run.all isGap = true) (hmore : ended more = true) (hfuel : run.length ≤ fuel) :
    scan indent fuel g c = ({ g with blanks := g.blanks ++ run }, c.advance run.length) := by
  induction run generalizing fuel g c with
  | nil =>
    rw [scan_ended (by rwa [hrest]), List.append_nil]
    rfl
  | cons ch run ih =>
    obtain ⟨fuel, rfl⟩ := Nat.exists_eq_succ_of_ne_zero (Nat.ne_of_gt (Nat.zero_lt_of_lt hfuel))
    rw [List.all_cons, Bool.and_eq_true] at hrun
    have hnext : (c.advance 1).rest = run ++ more := by simp [Cursor.advance, hrest]
    have hstep : scan indent (fuel + 1) g c = scan indent fuel (g.addBlank ch) (c.advance 1) := by
      simp only [scan, hrest, List.cons_append, hrun.1, if_true, hg, Bool.false_and,
        Bool.false_eq_true, if_false]
    have hadd : g.addBlank ch = { g with blanks := g.blanks ++ [ch] } := by simp [addBlank, hg]
    have hrest' := ih (g := { g with blanks := g.blanks ++ [ch] }) hg hnext hrun.2
      (Nat.le_of_succ_le_succ hfuel)
    rw [hstep, hadd, hrest', Cursor.advance_advance, List.length_cons, Nat.add_comm,
      List.append_assoc]
    rfl

theorem read_spaces {n : Nat} (hrest : c.rest = List.replicate n ' ' ++ more)
    (hmore : ended more = true) :
    Gap.empty.read indent c = ({ Gap.empty with blanks := List.replicate n ' ' }, c.advance n) := by
  have hfuel : (List.replicate n ' ').length ≤ c.rest.length := by
    rw [hrest, List.length_append]
    exact Nat.le_add_right _ _
  have hscan : Gap.empty.read indent c = _ :=
    scan_run rfl hrest (by simp [isGap]) hmore hfuel
  rwa [List.length_replicate] at hscan

theorem scan_break {ch : Char} (hrest : c.rest = ch :: more) (hgap : ¬ isGap ch = true)
    (hbreak : isBreak ch = true) : scan indent (fuel + 1) g c =
      scan indent fuel (g.addBreak c.takeBreak.1) c.skipBreak := by
  simp only [scan, hrest, hgap, hbreak, if_true, Bool.false_eq_true, if_false]
  rfl

theorem length_scan (indent : Int) (fuel : Nat) (g : Gap) (c : Cursor) :
    (scan indent fuel g c).2.rest.length ≤ c.rest.length := by
  induction fuel generalizing g c with
  | zero => exact Nat.le_refl _
  | succ fuel ih =>
    cases hrest : c.rest with
    | nil => rw [scan_ended (by rw [hrest]; rfl), hrest]
    | cons ch more =>
      by_cases hgap : isGap ch = true
      · simp only [scan, hrest, hgap, if_true]
        split
        · rw [hrest]
        · exact (ih _ _).trans (by simp [Cursor.advance, hrest])
      · by_cases hbreak : isBreak ch = true
        · rw [scan_break hrest hgap hbreak, ← hrest]
          exact (ih _ _).trans (Lexer.length_skipBreak (by rw [hrest]; exact hbreak)).le
        · rw [scan_ended, hrest]
          rw [hrest, ended, Bool.and_eq_true, Bool.not_eq_true', Bool.not_eq_true']
          exact ⟨Bool.eq_false_iff.2 hgap, Bool.eq_false_iff.2 hbreak⟩

end Gap

namespace Lexer

variable {allowed allowed' : Bool} {c c' : Cursor}

theorem Passes.unique {inFlow : Bool} {c'' : Cursor} {allowed'' : Bool}
    (h : Passes inFlow allowed c allowed' c') (h' : Passes inFlow allowed c allowed'' c'') :
    allowed' = allowed'' ∧ c' = c'' :=
  Prod.mk.inj ((h _ (Nat.lt_succ_self _)).symm.trans (h' _ (Nat.lt_succ_self _)))

/-- A blank on the way is passed. -/
theorem Passes.after_gap {ch : Char} {more : List Char} (h : Passes false allowed c allowed' c')
    (hstart : startsToken c'.rest = true) (hrest : c.rest = ch :: more) (hch : isGap ch = true) :
    (ch = '\t' → allowed = false) ∧ Passes false allowed (c.advance 1) allowed' c' := by
  have hne : ch ≠ byteOrderMark := fun heq => absurd (heq ▸ hch) (by decide)
  have hmark : c.Unmarked := .of_cons hrest hne
  have htab : ch = '\t' → allowed = false := by
    rintro rfl
    by_contra hallowed
    rw [Bool.not_eq_false] at hallowed
    have hhere : Passes false allowed c allowed c := by
      refine .of_stay (afterComment_eq_self hmark ?_ ?_ ?_) ?_ <;> simp [hrest, hallowed, isBreak]
    rw [(h.unique hhere).2, hrest] at hstart
    cases hstart
  refine ⟨htab, h.of_afterComment ?_⟩
  unfold afterComment
  rw [hmark.skipMark_eq_self, (Cursor.Unmarked.of_advance c Nat.one_pos).skipMark_eq_self,
    Cursor.skipWhile_of_pos hrest]
  rw [isGap, Bool.or_eq_true, beq_iff_eq, beq_iff_eq] at hch
  rcases hch with rfl | rfl
  · rfl
  · rw [htab rfl]; rfl

/-- A line break on the way is passed. -/
theorem Passes.after_break (h : Passes false allowed c allowed' c')
    (hbreak : c.rest.head?.any isBreak = true) : Passes false true c.skipBreak allowed' c' := by
  intro fuel hfuel
  have hlong := h (c.rest.length + 1) (Nat.lt_succ_self _)
  rw [passBlanks_succ, afterComment_of_break hbreak] at hlong
  dsimp only at hlong
  rw [if_pos hbreak, Bool.not_false, Bool.or_true] at hlong
  rw [passBlanks_congr hfuel (length_skipBreak hbreak), hlong]

end Lexer

/-- A gap ends on the way to the next token, at the latest there. -/
theorem Gap.scan_passes {indent : Int} {fuel : Nat} {g : Gap} {c c' : Cursor}
    {allowed allowed' : Bool} (h : Passes false (allowed || g.broken) c allowed' c')
    (hstart : startsToken c'.rest = true) (hfuel : c.rest.length ≤ fuel) :
    Passes false (allowed || (scan indent fuel g c).1.broken) (scan indent fuel g c).2 allowed' c' ∧
      Gap.ended (scan indent fuel g c).2.rest = true := by
  induction fuel generalizing g c with
  | zero =>
    have hnil : c.rest = [] := List.eq_nil_of_length_eq_zero (Nat.le_zero.1 hfuel)
    exact ⟨h, by rw [scan, hnil]; rfl⟩
  | succ fuel ih =>
    cases hrest : c.rest with
    | nil =>
      rw [scan_ended (by rw [hrest]; rfl)]
      exact ⟨h, by rw [hrest]; rfl⟩
    | cons ch more =>
      rw [hrest] at hfuel
      by_cases hgap : isGap ch = true
      · obtain ⟨htab, hnext⟩ := h.after_gap hstart hrest hgap
        -- a tab after a line break would be where the next token starts
        have hgo : ¬ (g.broken && ch == '\t' && decide ((c.mark.column : Int) < indent)) = true := by
          rintro hstop
          simp only [Bool.and_eq_true, beq_iff_eq] at hstop
          simpa [hstop.1.1] using htab hstop.1.2
        have hstep : scan indent (fuel + 1) g c = scan indent fuel (g.addBlank ch) (c.advance 1) := by
          simp only [scan, hrest, hgap, if_true, if_neg hgo]
        have hbroken : (g.addBlank ch).broken = g.broken := by
          unfold addBlank
          split <;> rfl
        rw [hstep]
        refine ih (by rwa [hbroken]) ?_
        simp only [Cursor.advance, hrest, List.drop_succ_cons, List.drop_zero]
        exact Nat.le_of_succ_le_succ hfuel
      · by_cases hbreak : isBreak ch = true
        · have hhead : c.rest.head?.any isBreak = true := by rw [hrest]; exact hbreak
          have hbroken : (g.addBreak c.takeBreak.1).broken = true := by
            unfold addBreak
            split
            · assumption
            · rfl
          rw [scan_break hrest hgap hbreak]
          refine ih ?_ ?_
          · rw [hbroken, Bool.or_true]
            exact h.after_break hhead
          · have hshort := Lexer.length_skipBreak hhead
            rw [hrest] at hshort
            omega
        · have hended : Gap.ended c.rest = true := by
            rw [hrest, ended, Bool.and_eq_true, Bool.not_eq_true', Bool.not_eq_true']
            exact ⟨Bool.eq_false_iff.2 hgap, Bool.eq_false_iff.2 hbreak⟩
          rw [scan_ended hended]
          exact ⟨h, hended⟩

/-! ## Words -/

namespace Scalar

variable {inFlow : Bool} {indent : Int} {start : Mark} {fuel : Nat} {gap : Gap} {s : Scanned}
  {w tail : List Char}

/-- No gap, line break or sign of the end comes before the end. -/
def isWord (inFlow : Bool) : List Char → Bool
  | [] => true
  | c :: cs => !isGap c && !isBreak c && !(c == ':' && endsWord cs) && !endsAtColon inFlow (c :: cs) &&
    !(inFlow && isFlowIndicator c) && isWord inFlow cs

theorem endsAtColon_cons_cons (inFlow : Bool) (c d : Char) (more : List Char) :
    endsAtColon inFlow (c :: d :: more) =
      (c == ':' && (inFlow && (d == '?' || isFlowIndicator d))) := by
  unfold endsAtColon
  split
  · rename_i heq
    rw [(List.cons.inj heq).1, (List.cons.inj (List.cons.inj heq).2).1, beq_self_eq_true,
      Bool.true_and]
  · rename_i hne
    have hc : c ≠ ':' := fun h => hne d more (h ▸ rfl)
    simp [hc]

theorem plainWord_append (hw : isWord inFlow w = true) (htail : plainWord inFlow tail = []) :
    plainWord inFlow (w ++ tail) = w := by
  induction w with
  | nil => exact htail
  | cons c cs ih =>
    simp only [isWord, Bool.and_eq_true, Bool.not_eq_true'] at hw
    obtain ⟨⟨⟨⟨⟨hgap, hbreak⟩, hcolon⟩, hends⟩, hflow⟩, hcs⟩ := hw
    -- the last character of a word is no colon, so what follows the word does not matter
    have hlocal : (c == ':' && endsWord (cs ++ tail)) = false ∧
        endsAtColon inFlow (c :: (cs ++ tail)) = false := by
      cases cs with
      | nil =>
        have hne : c ≠ ':' := by simpa [endsWord] using hcolon
        refine ⟨by simp [hne], ?_⟩
        unfold endsAtColon
        split
        · rename_i heq
          exact absurd (List.cons.inj heq).1 hne
        · rfl
      | cons d ds =>
        refine ⟨hcolon, ?_⟩
        rw [List.cons_append, endsAtColon_cons_cons]
        rwa [endsAtColon_cons_cons] at hends
    rw [List.cons_append, plainWord, hgap, hbreak, hlocal.1, hlocal.2, hflow]
    simp [ih hcs]

/-- Words, each with the number of spaces before it. -/
def spelled : List (Nat × List Char) → List Char
  | [] => []
  | (n, w) :: more => List.replicate n ' ' ++ w ++ spelled more

/-- A word that may stand behind a space. -/
structure IsFurther (inFlow : Bool) (w : List Char) : Prop where
  word : isWord inFlow w = true
  ne_nil : w ≠ []
  no_comment : w.head? ≠ some '#'

theorem IsFurther.ended (hw : IsFurther inFlow w) : Gap.ended (w ++ tail) = true := by
  obtain ⟨c, cs, rfl⟩ := List.exists_cons_of_ne_nil hw.ne_nil
  have hword := hw.word
  simp only [isWord, Bool.and_eq_true] at hword
  exact Bool.and_eq_true_iff.2 hword.1.1.1.1

/-- What comes after a word. -/
def plainAfter (inFlow : Bool) (indent : Int) (start : Mark) (fuel : Nat) (s : Scanned) :
    Except Fault Scanned :=
  if endsAtColon inFlow s.cursor.rest then
    .error (.during .plainScalar start .colonBeforeIndicator s.cursor.mark)
  else if !(endsWord s.cursor.rest) || s.cursor.rest.isEmpty then .ok s
  else
    let (gap, cursor) := Gap.empty.read indent s.cursor
    if gap.broken && cursor.rest.head? == some '\t' then
      .error (.during .plainScalar start .tabBeforePlainText cursor.mark)
    else
      let s := { s with cursor, broken := gap.broken }
      if !inFlow && (cursor.mark.column : Int) < indent then .ok s
      else plainFrom inFlow indent start fuel gap s

/-- The scanner behind a word. -/
def Scanned.withWord (s : Scanned) (gap : Gap) (w : List Char) : Scanned :=
  ⟨s.text ++ gap.text ++ w, (s.cursor.advance w.length).mark, s.cursor.advance w.length, false⟩

theorem plainFrom_succ (inFlow : Bool) (indent : Int) (start : Mark) (fuel : Nat) (gap : Gap)
    (s : Scanned) : plainFrom inFlow indent start (fuel + 1) gap s =
      if s.cursor.atDocumentIndicator || s.cursor.rest.head? == some '#' then .ok s
      else
        let word := plainWord inFlow s.cursor.rest
        plainAfter inFlow indent start fuel (if word.isEmpty then s else s.withWord gap word) := rfl

theorem plainFrom_word (hrest : s.cursor.rest = w ++ tail) (hw : IsFurther inFlow w)
    (htail : plainWord inFlow tail = []) (hmarker : s.cursor.atDocumentIndicator = false) :
    plainFrom inFlow indent start (fuel + 1) gap s =
      plainAfter inFlow indent start fuel (s.withWord gap w) := by
  have hhead : (s.cursor.rest.head? == some '#') = false := by
    obtain ⟨c, cs, rfl⟩ := List.exists_cons_of_ne_nil hw.ne_nil
    rw [beq_eq_false_iff_ne, hrest]
    exact hw.no_comment
  rw [plainFrom_succ, hmarker, hhead, hrest, plainWord_append hw.word htail]
  simp [hw.ne_nil]

theorem atDocumentIndicator_of_column {c : Cursor} (h : 0 < c.mark.column) :
    c.atDocumentIndicator = false := by
  simp [Cursor.atDocumentIndicator, Nat.ne_of_gt h]

theorem exists_replicate_succ {n : Nat} (hn : 0 < n) :
    ∃ run, List.replicate n ' ' = ' ' :: run :=
  ⟨List.replicate (n - 1) ' ', by rw [← List.replicate_succ, Nat.sub_add_cancel hn]⟩

/-- Behind spaces the scanner goes on where they end. -/
theorem plainAfter_spaces {n : Nat} {behind : List Char} (hn : 0 < n)
    (hrest : s.cursor.rest = List.replicate n ' ' ++ behind) (hended : Gap.ended behind = true)
    (hindent : inFlow = false → indent ≤ ((s.cursor.advance n).mark.column : Int)) :
    plainAfter inFlow indent start fuel s =
      plainFrom inFlow indent start fuel { Gap.empty with blanks := List.replicate n ' ' }
        { s with cursor := s.cursor.advance n, broken := false } := by
  obtain ⟨run, hrun⟩ := exists_replicate_succ hn
  have hread : Gap.empty.read indent s.cursor =
      ({ Gap.empty with blanks := List.replicate n ' ' }, s.cursor.advance n) :=
    Gap.read_spaces hrest hended
  have hcolon : endsAtColon inFlow s.cursor.rest = false := by
    rw [hrest, hrun]
    unfold endsAtColon
    split
    · rename_i heq
      cases (List.cons.inj heq).1
    · rfl
  have hends : (!(endsWord s.cursor.rest) || s.cursor.rest.isEmpty) = false := by
    rw [hrest, hrun]
    rfl
  have hdeep : (!inFlow && decide (((s.cursor.advance n).mark.column : Int) < indent)) = false := by
    cases hflow : inFlow with
    | true => rfl
    | false => simpa using hindent hflow
  rw [plainAfter, hcolon, hends, hread]
  simp only [Bool.false_eq_true, if_false, Gap.empty, Bool.false_and, hdeep]

/-- The words of one line are read one after the other. -/
theorem plainFrom_words {more : List (Nat × List Char)}
    (hrest : s.cursor.rest = w ++ (spelled more ++ tail)) (hw : IsFurther inFlow w)
    (hmore : ∀ x ∈ more, 0 < x.1 ∧ IsFurther inFlow x.2) (htail : plainWord inFlow tail = [])
    (hmarker : s.cursor.atDocumentIndicator = false)
    (hindent : inFlow = false → indent ≤ s.cursor.mark.column + 1) (hfuel : more.length < fuel) :
    ∃ fuel', fuel ≤ fuel' + more.length + 1 ∧ ∃ m, plainFrom inFlow indent start fuel gap s =
      plainAfter inFlow indent start fuel' ⟨s.text ++ gap.text ++ w ++ spelled more, m,
        s.cursor.advance (w.length + (spelled more).length), false⟩ := by
  induction more generalizing fuel gap s w with
  | nil =>
    obtain ⟨fuel, rfl⟩ := Nat.exists_eq_succ_of_ne_zero (Nat.ne_of_gt (Nat.zero_lt_of_lt hfuel))
    refine ⟨fuel, Nat.le_refl _, (s.cursor.advance w.length).mark, ?_⟩
    rw [plainFrom_word hrest hw htail hmarker, Scanned.withWord]
    simp [spelled]
  | cons x more ih =>
    obtain ⟨n, v⟩ := x
    obtain ⟨fuel, rfl⟩ := Nat.exists_eq_succ_of_ne_zero (Nat.ne_of_gt (Nat.zero_lt_of_lt hfuel))
    obtain ⟨⟨hn, hv⟩, hmore⟩ := List.forall_mem_cons.1 hmore
    have hbehind : (s.withWord gap w).cursor.rest =
        List.replicate n ' ' ++ (v ++ (spelled more ++ tail)) := by
      have hafter := Cursor.advance_rest hrest
      rw [spelled, List.append_assoc, List.append_assoc] at hafter
      exact hafter
    have hcolumn_eq : ((s.withWord gap w).cursor.advance n).mark.column =
        s.cursor.mark.column + w.length + n := rfl
    have hcolumn : inFlow = false →
        indent ≤ (((s.withWord gap w).cursor.advance n).mark.column : Int) := by
      intro hflow
      have hle := hindent hflow
      have hgap : 0 < n := hn
      rw [hcolumn_eq]
      omega
    have htail' : plainWord inFlow (spelled ((n, v) :: more) ++ tail) = [] := by
      obtain ⟨run, hrun⟩ := exists_replicate_succ hn
      rw [spelled, hrun]
      simp [plainWord, isGap]
    have hnext : ((s.withWord gap w).cursor.advance n).rest = v ++ (spelled more ++ tail) := by
      rw [← List.length_replicate (n := n) (a := ' ')]
      exact Cursor.advance_rest hbehind
    obtain ⟨fuel', hle, m, heq⟩ := ih
      (s := { s.withWord gap w with cursor := (s.withWord gap w).cursor.advance n })
      hnext hv hmore (atDocumentIndicator_of_column (by rw [hcolumn_eq]; exact Nat.add_pos_right _ hn))
      (fun hflow => Int.le_add_one (hcolumn hflow))
      (Nat.lt_of_succ_lt_succ hfuel)
    refine ⟨fuel', by simp only [List.length_cons]; omega, m, ?_⟩
    rw [plainFrom_word hrest hw htail' hmarker,
      plainAfter_spaces hn hbehind hv.ended hcolumn]
    refine heq.trans ?_
    simp only [Scanned.withWord, Cursor.advance_advance, Gap.text, Gap.empty, Bool.not_false,
      if_true, spelled, List.length_append, List.length_replicate, List.append_assoc]
    congr 3
    omega

/-- Where a plain scalar ends. -/
def Ends (inFlow : Bool) (indent : Int) (c : Cursor) : Prop :=
  c.rest = [] ∨ inFlow = false ∧ (c.mark.column : Int) < indent ∨
    plainWord inFlow c.rest = [] ∧ endsAtColon inFlow c.rest = false ∧ endsWord c.rest = false

theorem startsToken_of_ended {cs : List Char} (h : Gap.ended cs = true)
    (hcomment : cs.head? ≠ some '#') : startsToken cs = true := by
  cases cs with
  | nil => rfl
  | cons c cs =>
    rw [Gap.ended, Bool.and_eq_true] at h
    have hne : c ≠ '#' := fun heq => hcomment (heq ▸ rfl)
    simp [startsToken, h.1, h.2, hne]

/-- Behind its last word a plain scalar reads on, but not past the next token. -/
theorem plainAfter_eq_ok {c' : Cursor} {allowed' : Bool} (hbroken : s.broken = false)
    (htail : endsAtColon false s.cursor.rest = false)
    (h : Passes false false s.cursor allowed' c') (hstart : startsToken c'.rest = true)
    (hends : Ends false indent c') (hindent : 0 < indent) (hfuel : 0 < fuel) :
    ∃ s', plainAfter false indent start fuel s = .ok s' ∧ s'.text = s.text ∧
      Passes false s'.broken s'.cursor allowed' c' ∧ s'.cursor.rest.length ≤ s.cursor.rest.length := by
  by_cases hstop : (!(endsWord s.cursor.rest) || s.cursor.rest.isEmpty) = true
  · refine ⟨s, ?_, rfl, by rwa [hbroken], Nat.le_refl _⟩
    rw [plainAfter, htail, if_neg Bool.false_ne_true, if_pos hstop]
  · obtain ⟨hpasses, hended⟩ :=
      @Gap.scan_passes indent s.cursor.rest.length Gap.empty s.cursor c' false allowed' h hstart
        (Nat.le_refl _)
    rw [← Gap.read, Bool.false_or] at hpasses
    rw [← Gap.read] at hended
    have hlength : (Gap.empty.read indent s.cursor).2.rest.length ≤ s.cursor.rest.length :=
      Gap.length_scan ..
    have hafter : plainAfter false indent start fuel s =
        let (gap, cursor) := Gap.empty.read indent s.cursor
        if gap.broken && cursor.rest.head? == some '\t' then
          .error (.during .plainScalar start .tabBeforePlainText cursor.mark)
        else
          let s := { s with cursor, broken := gap.broken }
          if !false && (cursor.mark.column : Int) < indent then .ok s
          else plainFrom false indent start fuel gap s := by
      rw [plainAfter, htail, if_neg Bool.false_ne_true, if_neg hstop]
    rw [hafter]
    generalize Gap.empty.read indent s.cursor = read at hpasses hended hlength ⊢
    obtain ⟨gap, cursor⟩ := read
    dsimp only at hpasses hended hlength ⊢
    have htab : ¬ (gap.broken && cursor.rest.head? == some '\t') = true := by
      cases hrest : cursor.rest with
      | nil => simp
      | cons d ds =>
        rw [hrest, Gap.ended, Bool.and_eq_true, isGap] at hended
        have hne : d ≠ '\t' := by rintro rfl; simp at hended
        simp [hne]
    rw [if_neg htab]
    by_cases hdeep : (!false && decide ((cursor.mark.column : Int) < indent)) = true
    · rw [if_pos hdeep]
      exact ⟨_, rfl, rfl, hpasses, hlength⟩
    · rw [if_neg hdeep]
      obtain ⟨fuel, rfl⟩ := Nat.exists_eq_succ_of_ne_zero (Nat.ne_of_gt hfuel)
      rw [plainFrom_succ]
      by_cases hcut : (cursor.atDocumentIndicator || cursor.rest.head? == some '#') = true
      · rw [if_pos hcut]
        exact ⟨_, rfl, rfl, hpasses, hlength⟩
      · -- the next token is here, and it is none of the scalar
        rw [if_neg hcut]
        have hcomment : cursor.rest.head? ≠ some '#' := fun heq => hcut (by simp [heq])
        have hmark : cursor.Unmarked := .of_column (by simp at hdeep; omega)
        have hhere := (hpasses.unique (.here (startsToken_of_ended hended hcomment) hmark)).2
        subst hhere
        have hnone : plainWord false c'.rest = [] ∧ endsAtColon false c'.rest = false ∧
            (!(endsWord c'.rest) || c'.rest.isEmpty) = true := by
          rcases hends with hnil | ⟨-, hless⟩ | ⟨hword, hcolon, hend⟩
          · rw [hnil]; exact ⟨rfl, rfl, rfl⟩
          · exact absurd (by simpa using hless) hdeep
          · exact ⟨hword, hcolon, by rw [hend]; rfl⟩
        refine ⟨{ s with cursor := c', broken := gap.broken }, ?_, rfl, hpasses, hlength⟩
        dsimp only
        rw [hnone.1, List.isEmpty_nil, if_pos rfl, plainAfter, hnone.2.1, if_neg Bool.false_ne_true,
          if_pos hnone.2.2]

theorem length_le_spelled {more : List (Nat × List Char)} (h : ∀ x ∈ more, 0 < x.1) :
    more.length ≤ (spelled more).length := by
  induction more with
  | nil => exact Nat.le_refl _
  | cons x more ih =>
    obtain ⟨hx, hmore⟩ := List.forall_mem_cons.1 h
    have hle := ih hmore
    simp only [spelled, List.length_cons, List.length_append, List.length_replicate]
    omega

theorem endsAtColon_false (cs : List Char) : endsAtColon false cs = false := by
  unfold endsAtColon
  split <;> rfl

/-- What the words are read as, up to what comes behind them. -/
theorem plain_eq_plainAfter {c : Cursor} {more : List (Nat × List Char)}
    (hrest : c.rest = w ++ (spelled more ++ tail)) (hw : IsFurther inFlow w)
    (hmore : ∀ x ∈ more, 0 < x.1 ∧ IsFurther inFlow x.2) (htail : plainWord inFlow tail = [])
    (hmarker : c.atDocumentIndicator = false) (hindent : inFlow = false → indent ≤ c.mark.column + 1) :
    ∃ fuel m, 0 < fuel ∧ plain inFlow indent c = plainAfter inFlow indent c.mark fuel
      ⟨w ++ spelled more, m, c.advance (w.length + (spelled more).length), false⟩ := by
  have hlength := length_le_spelled fun x hx => (hmore x hx).1
  have hrest_length : c.rest.length = w.length + ((spelled more).length + tail.length) := by
    simp [hrest]
  have hpos : 0 < w.length := List.length_pos_iff.2 hw.ne_nil
  obtain ⟨fuel, hle, m, heq⟩ := @plainFrom_words inFlow indent c.mark (c.rest.length + 1) .empty
    ⟨[], c.mark, c, false⟩ w tail more hrest hw hmore htail hmarker hindent (by omega)
  exact ⟨fuel, m, by omega, heq⟩

/-- **A plain scalar of one line**, where what follows it leads to the next token. -/
theorem plain_eq_ok {c c' : Cursor} {more : List (Nat × List Char)} {allowed' : Bool}
    (hrest : c.rest = w ++ (spelled more ++ tail)) (hw : IsFurther false w)
    (hmore : ∀ x ∈ more, 0 < x.1 ∧ IsFurther false x.2) (htail : plainWord false tail = [])
    (hmarker : c.atDocumentIndicator = false) (hindent : indent ≤ c.mark.column + 1)
    (hpos : 0 < indent)
    (h : Passes false false (c.advance (w.length + (spelled more).length)) allowed' c')
    (hstart : startsToken c'.rest = true) (hends : Ends false indent c') :
    ∃ s, plain false indent c = .ok s ∧ s.text = w ++ spelled more ∧
      Passes false s.broken s.cursor allowed' c' ∧ s.cursor.rest.length < c.rest.length := by
  obtain ⟨fuel, m, hfuel, heq⟩ := plain_eq_plainAfter hrest hw hmore htail hmarker fun _ => hindent
  obtain ⟨s, hok, htext, hpasses, hlength⟩ := plainAfter_eq_ok
    (s := ⟨w ++ spelled more, m, c.advance (w.length + (spelled more).length), false⟩) rfl
    (endsAtColon_false _) h hstart hends hpos hfuel
  refine ⟨s, heq.trans hok, htext, hpasses, Nat.lt_of_le_of_lt hlength ?_⟩
  have hlong : 0 < w.length := List.length_pos_iff.2 hw.ne_nil
  simp only [Cursor.advance, hrest, List.length_drop, List.length_append]
  omega

/-- The same inside brackets, where a comma or a bracket follows. -/
theorem plain_flow_eq_ok (indent : Int) {c : Cursor} {more : List (Nat × List Char)} {n : Nat} {ch : Char}
    {rest : List Char} (hrest : c.rest = w ++ (spelled more ++ (List.replicate n ' ' ++ ch :: rest)))
    (hw : IsFurther true w) (hmore : ∀ x ∈ more, 0 < x.1 ∧ IsFurther true x.2)
    (hch : isFlowIndicator ch = true) (hcolumn : 0 < c.mark.column) :
    ∃ s, plain true indent c = .ok s ∧ s.text = w ++ spelled more ∧ s.broken = false ∧
      s.cursor = c.advance (w.length + (spelled more).length + n) := by
  have hsign : isGap ch = false ∧ isBreak ch = false ∧ ch ≠ ':' ∧ ch ≠ '#' := by
    have hmem : ch ∈ [',', '[', ']', '\x7b', '\x7d'] := List.contains_iff_mem.1 hch
    simp only [List.mem_cons, List.not_mem_nil, or_false] at hmem
    rcases hmem with rfl | rfl | rfl | rfl | rfl <;> decide
  have htail : plainWord true (List.replicate n ' ' ++ ch :: rest) = [] := by
    cases n with
    | zero => simp [plainWord, hch]
    | succ n => simp [List.replicate_succ, plainWord, isGap]
  have hstop : plainWord true (ch :: rest) = [] ∧ endsAtColon true (ch :: rest) = false ∧
      endsWord (ch :: rest) = false := by
    refine ⟨by simp [plainWord, hch], ?_, by simp [endsWord, hsign.1, hsign.2.1]⟩
    unfold endsAtColon
    split
    · rename_i heq
      exact absurd (List.cons.inj heq).1 hsign.2.2.1
    · rfl
  obtain ⟨fuel, m, hfuel, heq⟩ := plain_eq_plainAfter hrest hw hmore htail
    (atDocumentIndicator_of_column hcolumn) (by simp)
  have hbehind : (c.advance (w.length + (spelled more).length)).rest =
      List.replicate n ' ' ++ ch :: rest := by
    rw [← List.append_assoc] at hrest
    rw [← List.length_append]
    exact Cursor.advance_rest hrest
  have hstay : ∀ (fuel : Nat) (s : Scanned), s.cursor.rest = ch :: rest →
      plainAfter true indent c.mark fuel s = .ok s := by
    intro fuel s hs
    rw [plainAfter, hs, hstop.2.1, hstop.2.2]
    rfl
  rw [heq]
  cases n with
  | zero => exact ⟨_, hstay _ _ hbehind, rfl, rfl, rfl⟩
  | succ n =>
    obtain ⟨fuel, rfl⟩ := Nat.exists_eq_succ_of_ne_zero (Nat.ne_of_gt hfuel)
    let e := c.advance (w.length + (spelled more).length)
    have hthere : (e.advance (n + 1)).rest = ch :: rest := by
      rw [← List.length_replicate (n := n + 1) (a := ' ')]
      exact Cursor.advance_rest hbehind
    have hcut : ((e.advance (n + 1)).atDocumentIndicator ||
        (e.advance (n + 1)).rest.head? == some '#') = false := by
      rw [atDocumentIndicator_of_column (Nat.add_pos_right _ n.succ_pos), hthere]
      simp [hsign.2.2.2]
    refine ⟨⟨w ++ spelled more, m, e.advance (n + 1), false⟩, ?_, rfl, rfl, ?_⟩
    · rw [plainAfter_spaces n.succ_pos hbehind (by simp [Gap.ended, hsign.1, hsign.2.1]) (by simp),
        plainFrom_succ, hcut, if_neg Bool.false_ne_true]
      dsimp only
      rw [hthere, hstop.1]
      exact hstay _ _ hthere
    · rw [Cursor.advance_advance]

/-! ## Quoted texts -/

variable {quote : Char} {body read : List Char} {c : Cursor}

/-- A text that may stand between these quotes as it is. -/
def IsLiteral (quote : Char) (body : List Char) : Prop :=
  ∀ ch ∈ body, isBreak ch = false ∧ ch ≠ quote ∧ (quote = '"' → ch ≠ '\\')

/-- Blanks in front of a quoted text end at its next other character, or at the quote. -/
theorem IsLiteral.exists_blanks {ch : Char} {cs : List Char} (hbody : IsLiteral quote (ch :: cs))
    (hquote : isGap quote = false ∧ isBreak quote = false) (hgap : isGap ch = true) :
    ∃ run more, run ++ more = ch :: cs ∧ 0 < run.length ∧ run.all isGap = true ∧
      Gap.ended (more ++ quote :: tail) = true := by
  refine ⟨(ch :: cs).takeWhile isGap, (ch :: cs).dropWhile isGap,
    List.takeWhile_append_dropWhile, ?_, List.all_takeWhile, ?_⟩
  · simp only [List.takeWhile_cons_of_pos hgap, List.length_cons]
    omega
  · cases hmore : (ch :: cs).dropWhile isGap with
    | nil => simp [Gap.ended, hquote]
    | cons d ds =>
      have hnil : (ch :: cs).dropWhile isGap ≠ [] := by simp [hmore]
      have hd : isGap d = false := by
        simpa [hmore] using List.head_dropWhile_not (p := isGap) hnil
      have hmem : d ∈ ch :: cs :=
        (List.dropWhile_suffix isGap).subset (hmore ▸ List.mem_cons_self)
      simp [Gap.ended, hd, (hbody d hmem).1]

theorem quotedFrom_eq_ok (hrest : c.rest = body ++ quote :: tail) (hbody : IsLiteral quote body)
    (hquote : isGap quote = false ∧ isBreak quote = false)
    (htail : tail.head? ≠ some quote) (hcolumn : 0 < c.mark.column) (hfuel : body.length < fuel) :
    quotedFrom quote start fuel read c =
      .ok (read.reverse ++ body, c.advance (body.length + 1)) := by
  induction hn : body.length using Nat.strong_induction_on generalizing body read c fuel with
  | _ n ih =>
    subst hn
    obtain ⟨fuel, rfl⟩ := Nat.exists_eq_succ_of_ne_zero (Nat.ne_of_gt (Nat.zero_lt_of_lt hfuel))
    have hmarker := atDocumentIndicator_of_column hcolumn
    cases body with
    | nil =>
      have hdouble : ¬ (quote = '\'' ∧ tail.head? = some quote) := fun h => htail h.2
      rw [List.nil_append] at hrest
      simp only [quotedFrom, hmarker, hrest, if_neg hdouble, if_true, Bool.false_eq_true, if_false]
      rw [List.append_nil]
      rfl
    | cons ch cs =>
      obtain ⟨⟨hbreak, hne, hescape⟩, hcs⟩ := List.forall_mem_cons.1 hbody
      have hplain : ¬ (quote = '"' ∧ ch = '\\') := fun h => hescape h.1 h.2
      by_cases hgap : isGap ch = true
      · -- all blanks up to the next other character are read at once
        obtain ⟨run, more, hsplit, hpos, hrun, hended⟩ :=
          @IsLiteral.exists_blanks tail quote ch cs hbody hquote hgap
        have hlength : run.length + more.length = cs.length + 1 := by
          rw [← List.length_append, hsplit, List.length_cons]
        have hrest' : c.rest = run ++ (more ++ quote :: tail) := by
          rw [hrest, ← hsplit, List.append_assoc]
        have hread : Gap.empty.read 0 c = ({ Gap.empty with blanks := run }, c.advance run.length) :=
          Gap.scan_run rfl hrest' hrun hended (by
            rw [hrest', List.length_append]
            exact Nat.le_add_right _ _)
        have hstep : quotedFrom quote start (fuel + 1) read c =
            quotedFrom quote start fuel (run.reverse ++ read) (c.advance run.length) := by
          simp only [quotedFrom, hmarker, hrest, List.cons_append, if_neg hne, if_neg hplain, hgap,
            hread, Bool.true_or, if_true, Bool.false_eq_true, if_false]
          rfl
        rw [hstep, ih more.length (by rw [List.length_cons]; omega) (Cursor.advance_rest hrest')
          (fun d hd => hbody d (hsplit ▸ List.mem_append_right _ hd)) (Nat.add_pos_left hcolumn _)
          (by rw [List.length_cons] at hfuel; omega) rfl]
        rw [List.reverse_append, List.reverse_reverse, List.append_assoc, hsplit,
          Cursor.advance_advance, List.length_cons, ← Nat.add_assoc, hlength]
      · have hstep : quotedFrom quote start (fuel + 1) read c =
            quotedFrom quote start fuel (ch :: read) (c.advance 1) := by
          simp only [quotedFrom, hmarker, hrest, List.cons_append, if_neg hne, if_neg hplain, hgap,
            hbreak, Bool.or_self, Bool.false_eq_true, if_false]
        have hnext : (c.advance 1).rest = cs ++ quote :: tail := by simp [Cursor.advance, hrest]
        rw [hstep, ih cs.length (Nat.lt_succ_self _) hnext hcs (Nat.add_pos_left hcolumn _)
          (Nat.lt_of_succ_lt_succ hfuel) rfl, Cursor.advance_advance]
        simp [Nat.add_comm]

theorem quoted_eq_ok (hrest : c.rest = quote :: (body ++ quote :: tail))
    (hbody : IsLiteral quote body) (hquote : quote = '"' ∨ quote = '\'')
    (htail : tail.head? ≠ some quote) :
    ∃ m, quoted quote c = .ok ⟨body, m, c.advance (body.length + 2), false⟩ := by
  have hsign : isGap quote = false ∧ isBreak quote = false := by
    rcases hquote with rfl | rfl <;> decide
  have hinside : (c.advance 1).rest = body ++ quote :: tail := by simp [Cursor.advance, hrest]
  have hread : quotedFrom quote c.mark (c.rest.length + 1) [] (c.advance 1) = _ :=
    quotedFrom_eq_ok hinside hbody hsign htail (Nat.succ_pos _) (by
      simp only [hrest, List.length_cons, List.length_append]
      omega)
  refine ⟨(c.advance (body.length + 2)).mark, ?_⟩
  rw [quoted, hread, Cursor.advance_advance, Nat.add_comm 1]
  rfl

end Scalar

end SchemaTidy.Yaml
