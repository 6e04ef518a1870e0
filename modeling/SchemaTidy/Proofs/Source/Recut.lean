import SchemaTidy.Proofs.Source.Editing

/-! # Edited lines and the lines of their text

Main statement: `lines_text_apply`. An edit leaves the terminators of all lines as they are. When
the text of edited lines is cut into lines again, these are the same lines, but for two cases. A
line feed that comes to stand behind a carriage return takes it over (`edit_bares_return`), and a
last line without terminator that was emptied is no line any more. -/

namespace SchemaTidy.Source

variable {l : Line} {ls : List Line} {edits : List Edit}

/-! ## Lines cut out again -/

/-- What a line is cut out as, if there is anything of it in the text. -/
def Line.recut (l : Line) : Option Line :=
  match l.terminator with
  | .none => if l.content = [] then none else some l
  | .lf => if l.content.getLast? = some '\r' then some ⟨l.content.dropLast, .crlf⟩ else some l
  | .crlf => some l

/-- Line feeds stand in terminators only, and only the last line may lack its terminator. -/
structure Separated (ls : List Line) : Prop where
  no_feed : ∀ l ∈ ls, '\n' ∉ l.content
  terminated : Terminator.none ∉ (ls.map (·.terminator)).dropLast

theorem separated_cons (h : Separated (l :: ls)) :
    '\n' ∉ l.content ∧ (l.terminator = .none → ls = []) ∧ Separated ls := by
  obtain ⟨hfeed, hterm⟩ := h
  refine ⟨hfeed l List.mem_cons_self, fun hnone => ?_, fun m hm => ?_, fun hnone => ?_⟩
  · cases ls with
    | nil => rfl
    | cons m ms => exact absurd (hnone ▸ by simp) hterm
  · exact hfeed m (List.mem_cons_of_mem _ hm)
  · cases ls with
    | nil => simp at hnone
    | cons m ms => exact hterm (by simpa using .inr hnone)

theorem separated_of_canonical (h : Canonical ls) : Separated ls := by
  refine ⟨fun l hl => (h.1 l hl).no_feed, fun hnone => ?_⟩
  rw [← List.map_dropLast] at hnone
  obtain ⟨l, hl, hterm⟩ := List.mem_map.1 hnone
  exact h.2 l hl hterm

theorem Line.proper_crlf {content : List Char} (hfeed : '\n' ∉ content) :
    Line.Proper ⟨content, .crlf⟩ := ⟨hfeed, nofun, nofun⟩

/-- A line that is cut out has the text of the line, and ends as it does or earlier. -/
theorem Line.of_recut {l' : Line} (hfeed : '\n' ∉ l.content) (h : l.recut = some l') :
    l'.Proper ∧ l'.content ++ l'.terminator.text = l.content ++ l.terminator.text ∧
      (l'.terminator = .none → l.terminator = .none) := by
  obtain ⟨content, terminator⟩ := l
  cases terminator with
  | none =>
    obtain ⟨hne, h⟩ : content ≠ [] ∧ _ := by simpa [recut] using h
    exact h ▸ ⟨⟨hfeed, (by intro hlf; cases hlf), fun _ => hne⟩, rfl, id⟩
  | crlf =>
    obtain rfl := Option.some.inj h
    exact ⟨Line.proper_crlf hfeed, rfl, id⟩
  | lf =>
    by_cases hreturn : content.getLast? = some '\r'
    · obtain ⟨front, rfl⟩ := List.getLast?_eq_some_iff.1 hreturn
      obtain rfl : ⟨front, .crlf⟩ = l' := by simpa [recut] using h
      have hfront : '\n' ∉ front := fun hmem => hfeed (List.mem_append_left _ hmem)
      refine ⟨Line.proper_crlf hfront, ?_, fun hnone => by cases hnone⟩
      simp [Terminator.text]
    · obtain rfl : ⟨content, .lf⟩ = l' := by simpa [recut, hreturn] using h
      exact ⟨⟨hfeed, fun _ => hreturn, fun hnone => by cases hnone⟩, rfl, id⟩

theorem Line.text_of_recut_eq_none (h : l.recut = none) : l.content ++ l.terminator.text = [] := by
  obtain ⟨content, terminator⟩ := l
  cases terminator with
  | none => simpa [recut, Terminator.text] using h
  | crlf => cases h
  | lf => by_cases hreturn : content.getLast? = some '\r' <;> simp [recut, hreturn] at h

/-- **The lines of a text are its lines cut out again**, if they are separated. -/
theorem lines_text_of_separated (h : Separated ls) : lines (text ls) = ls.filterMap Line.recut := by
  induction ls with
  | nil => rfl
  | cons l ls ih =>
    obtain ⟨hfeed, hlast, hls⟩ := separated_cons h
    rw [text, List.flatMap_cons, ← text]
    cases hrecut : l.recut with
    | none =>
      rw [Line.text_of_recut_eq_none hrecut, List.filterMap_cons_none hrecut, List.nil_append, ih hls]
    | some l' =>
      obtain ⟨hproper, htext, hterm⟩ := Line.of_recut hfeed hrecut
      have hrest : l'.terminator = .none → text ls = [] := fun hnone => by
        rw [hlast (hterm hnone)]
        rfl
      rw [List.filterMap_cons_some hrecut, ← htext, lines_append hproper hrest, ih hls]

/-! ## What edits keep -/

theorem Edit.no_feed_onLine (e : Edit) (h : '\n' ∉ l.content) : '\n' ∉ (e.onLine l).content := by
  rcases e.onLine_cases l with heq | ⟨before, old, after, hcontent, heq, hfeed, -⟩
  · rwa [heq]
  · rw [heq]
    rw [hcontent] at h
    simp_all

theorem terminators_applyOne (ls : List Line) (e : Edit) :
    (applyOne ls e).map (·.terminator) = ls.map (·.terminator) := by
  rw [applyOne_eq_modify]
  generalize e.line = i
  induction ls generalizing i with
  | nil => simp
  | cons l ls ih =>
    cases i with
    | zero => simp [Edit.onLine_terminator]
    | succ i => simpa using ih i

theorem terminators_apply (ls : List Line) (edits : List Edit) :
    (apply ls edits).map (·.terminator) = ls.map (·.terminator) := by
  unfold apply
  generalize edits.mergeSort Edit.before = es
  induction es generalizing ls with
  | nil => rfl
  | cons e es ih => rw [List.foldl_cons, ih, terminators_applyOne]

theorem Separated.applyOne (h : Separated ls) (e : Edit) : Separated (applyOne ls e) := by
  refine ⟨fun l hl => ?_, by rw [terminators_applyOne]; exact h.terminated⟩
  rw [applyOne_eq_modify] at hl
  obtain ⟨i, hi⟩ := List.mem_iff_getElem?.1 hl
  rw [List.getElem?_modify] at hi
  obtain ⟨m, hm, rfl⟩ := Option.map_eq_some_iff.1 hi
  have hfeed : '\n' ∉ m.content := h.no_feed m (List.mem_of_getElem? hm)
  split
  · exact e.no_feed_onLine hfeed
  · exact hfeed

theorem Separated.apply (h : Separated ls) (edits : List Edit) :
    Separated (Source.apply ls edits) := by
  unfold Source.apply
  generalize edits.mergeSort Edit.before = es
  induction es generalizing ls with
  | nil => exact h
  | cons e es ih => exact ih (h.applyOne e)

/-! ## The lines of an edited text -/

/-- Lines are those of their text just when they are canonical. -/
theorem lines_text_iff : lines (text ls) = ls ↔ Canonical ls :=
  ⟨fun h => h ▸ canonical_lines _, lines_text⟩

/-- **The lines of an edited text.** Edits leave every line its terminator. The text of the edited
lines is cut into these lines cut out again, which are the same, kind and indentation with them,
just when no line feed stands behind a carriage return that is content, and the last line is not
emptied. That is so when every edit puts something in. -/
theorem lines_text_apply (cs : List Char) (edits : List Edit) :
    let after := apply (lines cs) edits
    after.map (·.terminator) = (lines cs).map (·.terminator) ∧
    lines (text after) = after.filterMap Line.recut ∧
    (lines (text after) = after ↔
      ∀ l ∈ after, (l.terminator = .lf → l.content.getLast? ≠ some '\r') ∧
        (l.terminator = .none → l.content ≠ [])) ∧
    ((∀ e ∈ edits, e.replacement ≠ []) → lines (text after) = after) := by
  intro after
  have hseparated : Separated after := (separated_of_canonical (canonical_lines cs)).apply edits
  refine ⟨terminators_apply _ _, lines_text_of_separated hseparated, lines_text_iff.trans ?_,
    fun he => lines_text ((canonical_lines cs).apply he)⟩
  constructor
  · exact fun h l hl => ⟨(h.1 l hl).no_return, (h.1 l hl).ne_nil⟩
  · refine fun h => ⟨fun l hl => ⟨hseparated.no_feed l hl, (h l hl).1, (h l hl).2⟩, ?_⟩
    intro l hl hnone
    refine hseparated.terminated ?_
    rw [← List.map_dropLast]
    exact List.mem_map.2 ⟨l, hl, hnone⟩

/-- Taking away what stands between a carriage return and a line feed makes one terminator of the
two. An emptied last line is lost. -/
theorem edit_bares_return :
    let returned := apply (lines "a\rb\n".toList) [⟨0, ⟨2, 3⟩, []⟩]
    let emptied := apply (lines "a".toList) [⟨0, ⟨0, 1⟩, []⟩]
    returned = [⟨['a', '\r'], .lf⟩] ∧ lines (text returned) = [⟨['a'], .crlf⟩] ∧
    emptied = [⟨[], .none⟩] ∧ lines (text emptied) = [] := by
  decide +kernel

end SchemaTidy.Source
