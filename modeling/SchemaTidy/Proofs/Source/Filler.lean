import Mathlib.Algebra.GroupWithZero.Nat
import SchemaTidy.Proofs.Source.Editing

/-! # Lines put in between

Lines that hold only spaces, or spaces and a comment, may be put before any line of a text. The
new text is cut into the old lines and the new ones (`lines_insertLines`), and an old line is found
at its `place`. -/

namespace SchemaTidy.Source

variable {α β : Type}

/-! ## Lists -/

/-- The elements `ins i` put before element `i`, or behind them all; counting starts at the given
number. -/
def interleave (ins : Nat → List α) : Nat → List α → List α
  | i, [] => ins i
  | i, x :: xs => ins i ++ x :: interleave ins (i + 1) xs

theorem map_interleave (f : α → β) (ins : Nat → List α) (i : Nat) (xs : List α) :
    (interleave ins i xs).map f = interleave (fun j => (ins j).map f) i (xs.map f) := by
  induction xs generalizing i with
  | nil => rfl
  | cons x xs ih => simp only [interleave, List.map_append, List.map_cons, ih]

/-- How many elements are put before element `i` and those above it. -/
def insertedAbove (ins : Nat → List α) (i : Nat) : Nat :=
  ((List.range (i + 1)).map fun j => (ins j).length).sum

/-- The new number of element `i`. -/
def place (ins : Nat → List α) (i : Nat) : Nat := i + insertedAbove ins i

theorem insertedAbove_succ (ins : Nat → List α) (i : Nat) :
    insertedAbove ins (i + 1) = insertedAbove ins i + (ins (i + 1)).length := by
  rw [insertedAbove, List.range_succ, List.map_append, List.sum_append]
  simp [insertedAbove]

theorem place_zero (ins : Nat → List α) : place ins 0 = (ins 0).length := by
  simp [place, insertedAbove]

theorem place_succ (ins : Nat → List α) (i : Nat) :
    place ins (i + 1) = place ins i + 1 + (ins (i + 1)).length := by
  rw [place, place, insertedAbove_succ]
  omega

theorem place_lt_place {ins : Nat → List α} {i j : Nat} (h : i < j) :
    place ins i < place ins j := by
  induction h with
  | refl => rw [place_succ]; omega
  | step _ ih => rw [place_succ]; omega

theorem place_injective (ins : Nat → List α) : Function.Injective (place ins) := by
  intro i j hij
  rcases Nat.lt_trichotomy i j with hlt | rfl | hlt
  · exact absurd hij (place_lt_place hlt).ne
  · rfl
  · exact absurd hij (place_lt_place hlt).ne'

/-- Where the elements put in are dropped, only the numbers of the others have changed. -/
theorem filter_zipIdx_interleave {ins : Nat → List α} {p : α → Bool}
    (hins : ∀ j, ∀ x ∈ ins j, p x = false) {xs : List α} {i n : Nat}
    (hn : n + (ins i).length = place ins i) :
    ((interleave ins i xs).zipIdx n).filter (fun a => p a.1) =
      ((xs.zipIdx i).filter fun a => p a.1).map fun a => (a.1, place ins a.2) := by
  have hdrop : ∀ j n, ((ins j).zipIdx n).filter (fun a => p a.1) = [] := fun j n =>
    List.filter_eq_nil_iff.2 fun a ha => by simp [hins j a.1 (List.fst_mem_of_mem_zipIdx ha)]
  induction xs generalizing i n with
  | nil => exact hdrop i n
  | cons x xs ih =>
    have hnext : place ins i + 1 + (ins (i + 1)).length = place ins (i + 1) :=
      (place_succ ins i).symm
    rw [interleave, List.zipIdx_append, List.filter_append, hdrop, List.nil_append, hn,
      List.zipIdx_cons, List.zipIdx_cons, List.filter_cons, List.filter_cons, ih hnext]
    cases p x <;> rfl

/-- A function of numbered elements that keeps those put in may be applied before, to the old
numbers. -/
theorem map_zipIdx_interleave {ins : Nat → List α} {f g : α × Nat → α} {xs : List α} {i n : Nat}
    (hn : n + (ins i).length = place ins i)
    (hins : ∀ j, ∀ x ∈ ins j, ∀ m, (x, m) ∈ (interleave ins i xs).zipIdx n → f (x, m) = x)
    (hplace : ∀ x j, f (x, place ins j) = g (x, j)) :
    ((interleave ins i xs).zipIdx n).map f = interleave ins i ((xs.zipIdx i).map g) := by
  have hkeep : ∀ j m, (∀ a ∈ (ins j).zipIdx m, f a = a.1) → ((ins j).zipIdx m).map f = ins j :=
    fun j m h => by rw [List.map_congr_left h, List.zipIdx_map_fst]
  induction xs generalizing i n with
  | nil =>
    exact hkeep i n fun a ha => hins i a.1 (List.fst_mem_of_mem_zipIdx ha) a.2 ha
  | cons x xs ih =>
    have hnext : place ins i + 1 + (ins (i + 1)).length = place ins (i + 1) :=
      (place_succ ins i).symm
    have hsplit : (interleave ins i (x :: xs)).zipIdx n =
        (ins i).zipIdx n ++ (x, place ins i) ::
          (interleave ins (i + 1) xs).zipIdx (place ins i + 1) := by
      rw [interleave, List.zipIdx_append, hn, List.zipIdx_cons]
    rw [hsplit] at hins ⊢
    rw [List.map_append, List.map_cons, hplace, hkeep i n fun a ha =>
        hins i a.1 (List.fst_mem_of_mem_zipIdx ha) a.2 (List.mem_append_left _ ha),
      ih hnext fun j y hy m hm => hins j y hy m (by simp [hm])]
    rfl

/-! ## Texts -/

def Line.text (l : Line) : List Char := l.content ++ l.terminator.text

/-- A text of only spaces, or spaces and a comment, apart from a carriage return at its end. -/
def isFiller (cs : List Char) : Bool :=
  !cs.contains '\n' &&
    match cs.dropWhile (· == ' ') with
    | [] | ['\r'] | '#' :: _ => true
    | _ => false

/-- The text with lines put in: those of `ins i` before line `i`, and those of the number of lines
at the end. -/
def insertLines (ins : Nat → List (List Char)) (cs : List Char) : List Char :=
  (interleave (fun i => (ins i).map (· ++ ['\n'])) 0 ((lines cs).map Line.text)).flatten

/-- The line that a text makes when a line feed follows. -/
def fedLine (cs : List Char) : Line :=
  if cs.getLast? = some '\r' then ⟨cs.dropLast, .crlf⟩ else ⟨cs, .lf⟩

theorem fedLine_text (cs : List Char) : (fedLine cs).text = cs ++ ['\n'] := by
  unfold fedLine
  split
  · rename_i hlast
    obtain ⟨front, rfl⟩ := List.getLast?_eq_some_iff.1 hlast
    simp [Line.text, Terminator.text]
  · rfl

theorem fedLine_terminator (cs : List Char) : (fedLine cs).terminator ≠ .none := by
  unfold fedLine
  split <;> simp

theorem fedLine_proper {cs : List Char} (h : '\n' ∉ cs) : (fedLine cs).Proper := by
  unfold fedLine
  split
  · exact ⟨fun hm => h (List.dropLast_subset _ hm), by simp, by simp⟩
  · rename_i hlast
    exact ⟨h, fun _ => hlast, by simp⟩

theorem isFiller_cases {cs : List Char} (h : isFiller cs = true) :
    '\n' ∉ cs ∧ ∃ spaces rest, cs = spaces ++ rest ∧ (∀ c ∈ spaces, c = ' ') ∧
      (rest = [] ∨ rest = ['\r'] ∨ ∃ tail, rest = '#' :: tail) := by
  rw [isFiller, Bool.and_eq_true] at h
  obtain ⟨hfeed, hrest⟩ := h
  refine ⟨by simpa using hfeed, cs.takeWhile (· == ' '), cs.dropWhile (· == ' '),
    List.takeWhile_append_dropWhile.symm, fun c hc => ?_, ?_⟩
  · exact beq_iff_eq.1 (List.mem_takeWhile_imp (p := (· == ' ')) hc)
  · split at hrest
    · exact .inl ‹_›
    · exact .inr (.inl ‹_›)
    · exact .inr (.inr ⟨_, ‹_›⟩)
    · cases hrest

theorem Line.not_isSignificant_of_spaces {spaces : List Char} (h : ∀ c ∈ spaces, c = ' ')
    (terminator : Terminator) : Line.isSignificant ⟨spaces, terminator⟩ = false := by
  have hdrop : spaces.dropWhile (· == ' ') = [] :=
    List.dropWhile_eq_nil_iff.2 fun c hc => by simp [h c hc]
  have hkind : Line.kind ⟨spaces, terminator⟩ = .blank := by rw [Line.kind, hdrop]; rfl
  rw [Line.isSignificant, hkind]

theorem Line.not_isSignificant_of_comment {spaces : List Char} (h : ∀ c ∈ spaces, c = ' ')
    (tail : List Char) (terminator : Terminator) :
    Line.isSignificant ⟨spaces ++ '#' :: tail, terminator⟩ = false := by
  have hdrop : (spaces ++ '#' :: tail).dropWhile (· == ' ') = '#' :: tail := by
    rw [List.dropWhile_append_of_pos fun c hc => by simp [h c hc]]
    rfl
  have hkind : Line.kind ⟨spaces ++ '#' :: tail, terminator⟩ = .comment := by
    simp only [Line.kind, hdrop]
  rw [Line.isSignificant, hkind]

theorem isSignificant_fedLine {cs : List Char} (h : isFiller cs = true) :
    (fedLine cs).isSignificant = false := by
  obtain ⟨-, spaces, rest, rfl, hspaces, hrest⟩ := isFiller_cases h
  unfold fedLine
  rcases hrest with rfl | rfl | ⟨tail, rfl⟩
  · rw [List.append_nil]
    split
    · exact Line.not_isSignificant_of_spaces (fun c hc => hspaces c (List.dropLast_subset _ hc)) _
    · exact Line.not_isSignificant_of_spaces hspaces _
  · rw [List.getLast?_concat, if_pos rfl, List.dropLast_concat]
    exact Line.not_isSignificant_of_spaces hspaces _
  · split
    · rename_i hlast
      cases tail with
      | nil => simp at hlast
      | cons c tail =>
        rw [List.dropLast_append_of_ne_nil (by simp), List.dropLast_cons_of_ne_nil (by simp)]
        exact Line.not_isSignificant_of_comment hspaces _ _
    · exact Line.not_isSignificant_of_comment hspaces _ _

/-! ## Lines -/

/-- Nothing is put in behind an unterminated last line. -/
def FitsAfter (ins : Nat → List α) (i : Nat) (ls : List Line) : Prop :=
  ins (i + ls.length) ≠ [] → ∀ l ∈ ls, l.terminator ≠ .none

theorem Canonical.append {front ls : List Line}
    (hproper : ∀ l ∈ front, l.Proper ∧ l.terminator ≠ .none) (h : Canonical ls) :
    Canonical (front ++ ls) := by
  induction front with
  | nil => exact h
  | cons l front ih =>
    obtain ⟨hl, hterm⟩ := hproper l List.mem_cons_self
    exact canonical_cons_iff.2 ⟨hl, fun hnone => absurd hnone hterm,
      ih fun m hm => hproper m (List.mem_cons_of_mem _ hm)⟩

theorem Canonical.interleave {ins : Nat → List Line} {ls : List Line} (h : Canonical ls)
    (hins : ∀ j, ∀ l ∈ ins j, l.Proper ∧ l.terminator ≠ .none) {i : Nat}
    (hfits : FitsAfter ins i ls) : Canonical (interleave ins i ls) := by
  induction ls generalizing i with
  | nil =>
    rw [Source.interleave, ← List.append_nil (ins i)]
    exact h.append (hins i)
  | cons l ls ih =>
    obtain ⟨hl, hlast, hls⟩ := canonical_cons_iff.1 h
    have hnext : FitsAfter ins (i + 1) ls := fun hne m hm =>
      hfits (by rwa [List.length_cons, Nat.add_comm ls.length, ← Nat.add_assoc]) m
        (List.mem_cons_of_mem _ hm)
    refine Canonical.append (hins i) (canonical_cons_iff.2 ⟨hl, fun hnone => ?_, ih hls hnext⟩)
    obtain rfl := hlast hnone
    by_contra hne
    exact hfits hne l List.mem_cons_self hnone

theorem text_eq_flatten (ls : List Line) : text ls = (ls.map Line.text).flatten :=
  List.flatMap_def ..

variable {ins : Nat → List (List Char)} {cs : List Char}

/-- The lines put in. -/
def fedLines (ins : Nat → List (List Char)) (j : Nat) : List Line := (ins j).map fedLine

theorem insertLines_eq (ins : Nat → List (List Char)) (cs : List Char) :
    insertLines ins cs = text (interleave (fedLines ins) 0 (lines cs)) := by
  have hfed : (fun j => (fedLines ins j).map Line.text) = fun j => (ins j).map (· ++ ['\n']) := by
    funext j
    simp [fedLines, Function.comp_def, fedLine_text]
  rw [text_eq_flatten, map_interleave, hfed, insertLines]

/-- **The lines of a text with lines put in.** -/
theorem lines_insertLines (hfillers : ∀ j, ∀ t ∈ ins j, isFiller t = true)
    (hfits : FitsAfter ins 0 (lines cs)) :
    lines (insertLines ins cs) = interleave (fedLines ins) 0 (lines cs) := by
  rw [insertLines_eq]
  refine lines_text ((canonical_lines cs).interleave (fun j l hl => ?_) fun hne => hfits ?_)
  · obtain ⟨t, ht, rfl⟩ := List.mem_map.1 hl
    exact ⟨fedLine_proper (isFiller_cases (hfillers j t ht)).1, fedLine_terminator t⟩
  · simpa [fedLines] using hne

/-- A text that ends in a line feed has no unterminated line. -/
theorem fitsAfter_lines (h : ins (lines cs).length ≠ [] → cs = [] ∨ cs.getLast? = some '\n') :
    FitsAfter ins 0 (lines cs) := by
  intro hne l hl hterm
  have hcanonical := canonical_lines cs
  rw [Nat.zero_add] at hne
  rcases h hne with rfl | hfeed
  · cases hl
  · obtain ⟨front, last, hsplit⟩ := (List.eq_nil_or_concat' (lines cs)).resolve_left
      (List.ne_nil_of_mem hl)
    rw [hsplit] at hl hcanonical
    have hlast : l = last := by
      rcases List.mem_append.1 hl with hfront | hlast
      · exact absurd hterm (hcanonical.2 l (by rwa [List.dropLast_concat]))
      · exact List.mem_singleton.1 hlast
    subst hlast
    have hproper := hcanonical.1 l hl
    have htext : cs = text front ++ l.content := by
      rw [← text_lines cs, hsplit]
      simp [text, hterm, Terminator.text]
    rw [htext, List.getLast?_append_of_ne_nil _ (hproper.ne_nil hterm)] at hfeed
    exact hproper.no_feed (List.mem_of_getLast? hfeed)

end SchemaTidy.Source
