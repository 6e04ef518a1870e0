import Mathlib.Data.List.Nodup
import SchemaTidy.Proofs.Source.FlatList
import SchemaTidy.Source.Edit

/-! # What edits do to lines

Lines cut out of a text are `Canonical`: their text is cut into the same lines again
(`lines_text`). Edits with a text to put in keep them so. On a line where the edits stand apart,
all of them are made at once: the line agrees with the old one outside the edited spans. -/

namespace SchemaTidy.Source
open Text

/-! ## Canonical lines -/

/-- A line as it is cut out of a text: nothing in it ends a line earlier. -/
structure Line.Proper (l : Line) : Prop where
  no_feed : '\n' ∉ l.content
  no_return : l.terminator = .lf → l.content.getLast? ≠ some '\r'
  ne_nil : l.terminator = .none → l.content ≠ []

/-- Only the last line may lack a terminator. -/
def Canonical (ls : List Line) : Prop :=
  (∀ l ∈ ls, l.Proper) ∧ ∀ l ∈ ls.dropLast, l.terminator ≠ .none

theorem canonical_cons_iff {l : Line} {ls : List Line} :
    Canonical (l :: ls) ↔ l.Proper ∧ (l.terminator = .none → ls = []) ∧ Canonical ls := by
  constructor
  · rintro ⟨hproper, hterm⟩
    cases ls with
    | nil => exact ⟨hproper l List.mem_cons_self, fun _ => rfl, by simp, by simp⟩
    | cons m ms =>
      refine ⟨hproper l List.mem_cons_self, fun hnone => absurd hnone (hterm l (by simp)),
        fun n hn => hproper n (List.mem_cons_of_mem _ hn), fun n hn => hterm n (by simp [hn])⟩
  · rintro ⟨hl, hlast, hproper, hterm⟩
    refine ⟨fun n hn => ?_, fun n hn => ?_⟩
    · rcases List.mem_cons.1 hn with rfl | hn
      · exact hl
      · exact hproper n hn
    · cases ls with
      | nil => simp at hn
      | cons m ms =>
        rcases List.mem_cons.1 hn with rfl | hn
        · exact fun hnone => by cases hlast hnone
        · exact hterm n hn

theorem lines_cons {c : Char} {cs : List Char} (hc : c ≠ '\n')
    (hcs : c = '\r' → cs.head? ≠ some '\n') :
    lines (c :: cs) =
      match lines cs with
      | [] => [⟨[c], .none⟩]
      | l :: ls => { l with content := c :: l.content } :: ls := by
  refine lines.eq_4 c cs hc fun rest hr hrest => hcs hr ?_
  rw [hrest, List.head?_cons]

/-- A line is cut off where its terminator stands. -/
theorem lines_append {l : Line} (h : l.Proper) {rest : List Char}
    (hrest : l.terminator = .none → rest = []) :
    lines (l.content ++ l.terminator.text ++ rest) = l :: lines rest := by
  obtain ⟨content, terminator⟩ := l
  induction content with
  | nil =>
    cases terminator with
    | none => exact absurd rfl (h.ne_nil rfl)
    | lf => rfl
    | crlf => rfl
  | cons c cs ih =>
    have hc : c ≠ '\n' := fun he => h.no_feed (by simp [he])
    by_cases hcs : cs = []
    · subst hcs
      cases terminator with
      | none => rw [hrest rfl]; exact lines_cons hc (by simp [Terminator.text])
      | lf =>
        rw [show [c] ++ Terminator.lf.text ++ rest = c :: '\n' :: rest by rfl,
          lines_cons hc fun he => absurd (by rw [he]; rfl) (h.no_return rfl)]
        rfl
      | crlf =>
        rw [show [c] ++ Terminator.crlf.text ++ rest = c :: '\r' :: '\n' :: rest by rfl,
          lines_cons hc (by simp)]
        rfl
    · obtain ⟨d, ds, rfl⟩ := List.exists_cons_of_ne_nil hcs
      have hproper : Line.Proper ⟨d :: ds, terminator⟩ := {
        no_feed := fun hm => h.no_feed (List.mem_cons_of_mem _ hm)
        no_return := fun ht => by simpa [List.getLast?_cons_cons] using h.no_return ht
        ne_nil := by simp }
      have hd : d ≠ '\n' := fun he => hproper.no_feed (by simp [he])
      have ih' := ih hproper hrest
      simp only [List.cons_append] at ih' ⊢
      rw [lines_cons hc (by simp [hd]), ih']

/-- **Canonical lines are the lines of their text.** -/
theorem lines_text {ls : List Line} (h : Canonical ls) : lines (text ls) = ls := by
  induction ls with
  | nil => rfl
  | cons l ls ih =>
    obtain ⟨hproper, hlast, hls⟩ := canonical_cons_iff.1 h
    have hrest : l.terminator = .none → text ls = [] := fun hn => by rw [hlast hn]; rfl
    rw [text, List.flatMap_cons, ← text, lines_append hproper hrest, ih hls]

theorem canonical_lines (cs : List Char) : Canonical (lines cs) := by
  fun_induction lines cs with
  | case1 => exact ⟨by simp, by simp⟩
  | case2 rest ih =>
    exact canonical_cons_iff.2 ⟨⟨by simp, by simp, by simp⟩, by simp, ih⟩
  | case3 rest ih =>
    exact canonical_cons_iff.2 ⟨⟨by simp, by simp, by simp⟩, by simp, ih⟩
  | case4 c rest hfeed _ hnil ih =>
    exact canonical_cons_iff.2 ⟨⟨by simpa using Ne.symm hfeed, by simp, by simp⟩, by simp,
      by simp, by simp⟩
  | case5 c rest hfeed hreturn l ls hcons ih =>
    rw [hcons] at ih
    obtain ⟨hl, hlast, hls⟩ := canonical_cons_iff.1 ih
    refine canonical_cons_iff.2 ⟨⟨?_, fun ht => ?_, by simp⟩, hlast, hls⟩
    · simpa using ⟨Ne.symm hfeed, hl.no_feed⟩
    · cases hcontent : l.content with
      | nil =>
        -- the line feed of `l` comes at once, so `c` before it is no carriage return
        have hrest : rest = '\n' :: text ls := by
          rw [← text_lines rest, hcons]
          simp only [] at ht
          simp [text, hcontent, ht, Terminator.text]
        intro hc
        exact hreturn _ (by simpa using hc) hrest
      | cons d ds => rw [List.getLast?_cons_cons, ← hcontent]; exact hl.no_return ht

/-- **Nothing of a text is lost in its lines.** They give it back, they are canonical, and no other
canonical lines give it. -/
theorem lines_lossless (cs : List Char) :
    text (lines cs) = cs ∧ Canonical (lines cs) ∧
      ∀ ls, Canonical ls → text ls = cs → ls = lines cs := by
  refine ⟨text_lines cs, canonical_lines cs, fun ls hcanonical htext => ?_⟩
  rw [← htext, lines_text hcanonical]

/-! ## One edit -/

/-- A text that breaks no line. -/
def breaksLine (replacement : List Char) : Bool := replacement.any fun c => c == '\n' || c == '\r'

/-- What an edit of a line makes of it. -/
def Edit.onLine (e : Edit) (l : Line) : Line :=
  if breaksLine e.replacement then l else (l.splice? e.span e.replacement).getD l

theorem applyOne_eq_modify (ls : List Line) (e : Edit) :
    applyOne ls e = ls.modify e.line e.onLine := by
  unfold applyOne Edit.onLine breaksLine
  split
  · exact (List.modify_id e.line ls).symm
  · rfl

theorem splice?_of_content {l : Line} {before old after : List Char}
    (h : l.content = before ++ old ++ after) (replacement : List Char) :
    l.splice? ⟨width before, width before + width old⟩ replacement =
      some { l with content := before ++ replacement ++ after } := by
  unfold Line.splice?
  rw [h, ← width_append, cutAt_width, Option.bind_eq_bind, Option.bind_some]
  dsimp only
  rw [cutAt_width]
  rfl

theorem content_of_splice? {l l' : Line} {span : Span} {replacement : List Char}
    (h : l.splice? span replacement = some l') :
    ∃ before old after, l.content = before ++ old ++ after ∧
      l' = { l with content := before ++ replacement ++ after } := by
  unfold Line.splice? at h
  obtain ⟨⟨front, after⟩, hfront, h⟩ := Option.bind_eq_some_iff.1 h
  obtain ⟨⟨before, old⟩, hbefore, h⟩ := Option.bind_eq_some_iff.1 h
  obtain ⟨hcontent, -⟩ := cutAt_sound hfront
  obtain ⟨hcut, -⟩ := cutAt_sound hbefore
  exact ⟨before, old, after, by rw [hcontent, hcut], (Option.some.inj h).symm⟩

theorem Edit.onLine_of_breaksLine {e : Edit} (he : breaksLine e.replacement = true) (l : Line) :
    e.onLine l = l := if_pos he

/-- An edit of a piece puts its text in the place of the piece. -/
theorem Edit.onLine_content {e : Edit} {p : Piece} (hbreaks : breaksLine e.replacement = false)
    (hspan : e.span = p.span) {l : Line} {before after : List Char}
    (hcontent : l.content = before ++ p.text ++ after) (hstart : p.start = width before) :
    (e.onLine l).content = before ++ e.replacement ++ after := by
  rw [Edit.onLine, hbreaks, hspan, Piece.span, hstart, splice?_of_content hcontent]
  rfl

/-- An edit leaves a line as it is, or puts a text without line breaks in the place of a part. -/
theorem Edit.onLine_cases (e : Edit) (l : Line) :
    e.onLine l = l ∨
      ∃ before old after, l.content = before ++ old ++ after ∧
        e.onLine l = { l with content := before ++ e.replacement ++ after } ∧
        '\n' ∉ e.replacement ∧ '\r' ∉ e.replacement := by
  unfold Edit.onLine
  split
  · exact .inl rfl
  · rename_i hbreaks
    rw [breaksLine, List.any_eq_true] at hbreaks
    cases h : l.splice? e.span e.replacement with
    | none => exact .inl rfl
    | some l' =>
      obtain ⟨before, old, after, hcontent, rfl⟩ := content_of_splice? h
      exact .inr ⟨before, old, after, hcontent, rfl, fun hm => hbreaks ⟨_, hm, rfl⟩,
        fun hm => hbreaks ⟨_, hm, rfl⟩⟩

theorem Edit.onLine_terminator (e : Edit) (l : Line) :
    (e.onLine l).terminator = l.terminator := by
  rcases e.onLine_cases l with heq | ⟨before, old, after, -, heq, -⟩ <;> rw [heq]

/-- A line with its edits made, from the last one to the first. -/
def Line.edited (es : List Edit) (l : Line) : Line := es.foldr Edit.onLine l

@[simp] theorem Line.edited_nil (l : Line) : l.edited [] = l := rfl

@[simp] theorem Line.edited_cons (e : Edit) (es : List Edit) (l : Line) :
    l.edited (e :: es) = e.onLine (l.edited es) := rfl

theorem Line.edited_terminator (es : List Edit) (l : Line) :
    (l.edited es).terminator = l.terminator := by
  induction es with
  | nil => rfl
  | cons e es ih => rw [Line.edited_cons, Edit.onLine_terminator, ih]

/-- A line stays as it is cut out when something is put in, be it in place of nothing. -/
theorem Line.Proper.onLine {l : Line} (hl : l.Proper) {e : Edit} (he : e.replacement ≠ []) :
    (e.onLine l).Proper := by
  rcases e.onLine_cases l with heq | ⟨before, old, after, hcontent, heq, hfeed, hreturn⟩
  · rwa [heq]
  · rw [heq]
    refine ⟨fun hm => ?_, fun ht hlast => ?_, fun _ => by simp [he]⟩
    · have hno_feed := hl.no_feed
      rw [hcontent] at hno_feed
      simp_all
    · dsimp only at hlast ht
      cases hafter : after.getLast? with
      | none =>
        obtain rfl := List.getLast?_eq_none_iff.1 hafter
        rw [List.append_nil, List.getLast?_append_of_ne_nil _ he] at hlast
        exact hreturn (List.mem_of_getLast? hlast)
      | some c =>
        refine hl.no_return ht ?_
        rw [List.getLast?_append, hafter] at hlast
        rw [hcontent, List.getLast?_append, hafter]
        exact hlast

/-! ## All edits, line by line -/

theorem getElem?_foldl_applyOne (ls : List Line) (edits : List Edit) (i : Nat) :
    (edits.foldl applyOne ls)[i]? =
      ls[i]?.map fun l => (edits.filter (·.line == i)).foldl (fun l e => e.onLine l) l := by
  induction edits generalizing ls with
  | nil => simp
  | cons e es ih =>
    rw [List.foldl_cons, ih, applyOne_eq_modify, List.getElem?_modify, List.filter_cons]
    by_cases he : e.line = i
    · simp [he, Function.comp_def]
    · simp [he]

theorem length_apply (ls : List Line) (edits : List Edit) :
    (apply ls edits).length = ls.length := by
  unfold apply
  generalize edits.mergeSort Edit.before = es
  induction es generalizing ls with
  | nil => rfl
  | cons e es ih => rw [List.foldl_cons, ih, applyOne_eq_modify, List.length_modify]

theorem Edit.before_trans (a b c : Edit) (hab : a.before b = true) (hbc : b.before c = true) :
    a.before c = true := by
  simp only [Edit.before, Bool.or_eq_true, Bool.and_eq_true, decide_eq_true_eq, beq_iff_eq] at *
  omega

theorem Edit.before_total (a b : Edit) : (a.before b || b.before a) = true := by
  simp only [Edit.before, Bool.or_eq_true, Bool.and_eq_true, decide_eq_true_eq, beq_iff_eq] at *
  omega

/-- The edits of a line that are listed from left to right are sorted from right to left. -/
theorem filter_mergeSort {edits : List Edit} {i : Nat}
    (h : (edits.filter (·.line == i)).Pairwise fun a b => a.span.start < b.span.start) :
    (edits.mergeSort Edit.before).filter (·.line == i) =
      (edits.filter (·.line == i)).reverse := by
  have hline : ∀ e ∈ edits.filter (·.line == i), e.line = i := fun e he =>
    beq_iff_eq.1 (List.mem_filter.1 he).2
  have hsame : ∀ a b, a ∈ (edits.mergeSort Edit.before).filter (·.line == i) →
      b ∈ (edits.filter (·.line == i)).reverse →
      a.before b = true → b.before a = true → a = b := by
    intro a b ha hb hab hba
    have ha' : a ∈ edits.filter (·.line == i) := by simpa using ha
    have hb' : b ∈ edits.filter (·.line == i) := by simpa using hb
    refine List.inj_on_of_nodup_map (f := fun e : Edit => e.span.start)
      (List.pairwise_map.2 (h.imp Nat.ne_of_lt)) ha' hb' ?_
    have hlines := (hline a ha').trans (hline b hb').symm
    simp only [Edit.before, Bool.or_eq_true, Bool.and_eq_true, decide_eq_true_eq,
      beq_iff_eq] at hab hba
    omega
  have hsorted : ((edits.mergeSort Edit.before).filter (·.line == i)).Pairwise
      fun a b => a.before b = true :=
    (List.pairwise_mergeSort Edit.before_trans Edit.before_total edits).filter _
  have hreversed : (edits.filter (·.line == i)).reverse.Pairwise fun a b => a.before b = true := by
    refine List.pairwise_reverse.2 (h.imp_of_mem fun {a b} ha hb hab => ?_)
    have hlines := (hline a ha).trans (hline b hb).symm
    simp only [Edit.before, Bool.or_eq_true, Bool.and_eq_true, decide_eq_true_eq, beq_iff_eq]
    omega
  have hperm : ((edits.mergeSort Edit.before).filter (·.line == i)).Perm
      (edits.filter (·.line == i)).reverse :=
    ((List.mergeSort_perm edits Edit.before).filter _).trans (List.reverse_perm _).symm
  exact hperm.eq_of_pairwise hsame hsorted hreversed

/-- So they are made from right to left. -/
theorem getElem?_apply {ls : List Line} {edits : List Edit} {i : Nat}
    (h : (edits.filter (·.line == i)).Pairwise fun a b => a.span.start < b.span.start) :
    (apply ls edits)[i]? =
      ls[i]?.map fun l => l.edited (edits.filter (·.line == i)) := by
  rw [apply, getElem?_foldl_applyOne, filter_mergeSort h]
  simp only [List.foldl_reverse]
  rfl

theorem Canonical.modify {ls : List Line} (h : Canonical ls) {f : Line → Line}
    (hproper : ∀ l, l.Proper → (f l).Proper) (hterm : ∀ l, (f l).terminator = l.terminator)
    (i : Nat) : Canonical (ls.modify i f) := by
  induction ls generalizing i with
  | nil => simpa using h
  | cons l ls ih =>
    obtain ⟨hl, hlast, hls⟩ := canonical_cons_iff.1 h
    cases i with
    | zero =>
      rw [List.modify_zero_cons]
      exact canonical_cons_iff.2 ⟨hproper l hl, by rwa [hterm], hls⟩
    | succ i =>
      rw [List.modify_succ_cons]
      exact canonical_cons_iff.2 ⟨hl, fun hn => by rw [hlast hn, List.modify_nil], ih hls i⟩

theorem Canonical.apply {ls : List Line} (h : Canonical ls) {edits : List Edit}
    (he : ∀ e ∈ edits, e.replacement ≠ []) : Canonical (Source.apply ls edits) := by
  unfold Source.apply
  have he' : ∀ e ∈ edits.mergeSort Edit.before, e.replacement ≠ [] := fun e hm =>
    he e (List.mem_mergeSort.1 hm)
  generalize edits.mergeSort Edit.before = es at he'
  induction es generalizing ls with
  | nil => exact h
  | cons e es ih =>
    rw [List.foldl_cons, applyOne_eq_modify]
    exact ih (h.modify (fun l hl => hl.onLine (he' e List.mem_cons_self)) e.onLine_terminator _)
      fun e hm => he' e (List.mem_cons_of_mem _ hm)

end SchemaTidy.Source
