import SchemaTidy.Proofs.Dedupe.Relabel
import SchemaTidy.Proofs.Source.Recut

/-! # Line terminators do not matter

When every line feed of a text gets a carriage return before it, the lines have the same contents
and other terminators (`lines_withReturns`). So a resolution finds and does the same
(`resolve_withReturns`). -/

namespace SchemaTidy.Source

/-- A line feed with a carriage return before it. -/
def Terminator.withReturn : Terminator → Terminator
  | .lf => .crlf
  | t => t

/-- The text with a carriage return before each line feed. -/
def withReturns (cs : List Char) : List Char :=
  cs.flatMap fun c => if c = '\n' then ['\r', '\n'] else [c]

variable {cs : List Char} {ls : List Line} {l : Line} {τ : Terminator → Terminator}

theorem withReturns_append (cs ds : List Char) :
    withReturns (cs ++ ds) = withReturns cs ++ withReturns ds := List.flatMap_append

theorem withReturns_of_no_feed (h : '\n' ∉ cs) : withReturns cs = cs := by
  induction cs with
  | nil => rfl
  | cons c cs ih =>
    have hc : ¬ c = '\n' := fun hc => h (hc ▸ List.mem_cons_self)
    rw [withReturns, List.flatMap_cons, if_neg hc, ← withReturns,
      ih fun hmem => h (List.mem_cons_of_mem _ hmem)]
    rfl

/-- Line feeds stand in the terminators of lines, where no carriage return is before them. -/
structure Line.FeedEnded (l : Line) : Prop where
  no_feed : '\n' ∉ l.content
  no_return : l.terminator ≠ .crlf

theorem text_withReturns (h : ∀ l ∈ ls, l.FeedEnded) :
    text (ls.map (·.terminate .withReturn)) = withReturns (text ls) := by
  induction ls with
  | nil => rfl
  | cons l ls ih =>
    obtain ⟨⟨hfeed, hreturn⟩, hls⟩ := List.forall_mem_cons.1 h
    have hline : l.terminator.withReturn.text = withReturns l.terminator.text := by
      cases hterm : l.terminator with
      | none => rfl
      | lf => rfl
      | crlf => exact absurd hterm hreturn
    have htext : text (l :: ls) = l.content ++ l.terminator.text ++ text ls := rfl
    have htext' : text ((l :: ls).map (·.terminate .withReturn)) =
        l.content ++ l.terminator.withReturn.text ++ text (ls.map (·.terminate .withReturn)) := rfl
    rw [htext', htext, ih hls, hline, withReturns_append, withReturns_append,
      withReturns_of_no_feed hfeed]

theorem terminate_withReturn_eq_none (l : Line) :
    (l.terminate .withReturn).terminator = .none ↔ l.terminator = .none := by
  rw [Line.terminate]
  cases l.terminator <;> simp [Terminator.withReturn]

theorem Line.Proper.terminate_withReturn (h : l.Proper) :
    (l.terminate .withReturn).Proper where
  no_feed := h.no_feed
  no_return hlf := by
    cases hterm : l.terminator <;> rw [Line.terminate, hterm] at hlf <;> cases hlf
  ne_nil hnone := h.ne_nil ((terminate_withReturn_eq_none l).1 hnone)

theorem Canonical.map_withReturn (h : Canonical ls) :
    Canonical (ls.map (·.terminate .withReturn)) := by
  refine ⟨List.forall_mem_map.2 fun l hl => (h.1 l hl).terminate_withReturn, ?_⟩
  rw [← List.map_dropLast]
  refine List.forall_mem_map.2 fun l hl hnone => h.2 l hl ?_
  exact (terminate_withReturn_eq_none l).1 hnone

theorem feedEnded_of_mem_lines (h : '\r' ∉ cs) : ∀ l ∈ lines cs, l.FeedEnded := by
  intro l hl
  refine ⟨((canonical_lines cs).1 l hl).no_feed, fun hterm => h ?_⟩
  rw [← text_lines cs]
  refine List.mem_flatMap.2 ⟨l, hl, ?_⟩
  rw [hterm]
  exact List.mem_append_right _ List.mem_cons_self

/-- **The lines of a text with returns** are its lines with other terminators. -/
theorem lines_withReturns (h : '\r' ∉ cs) :
    lines (withReturns cs) = (lines cs).map (·.terminate .withReturn) := by
  have htext := text_withReturns (feedEnded_of_mem_lines h)
  rw [text_lines] at htext
  rw [← htext, lines_text (canonical_lines cs).map_withReturn]

/-! ## Edits -/

theorem Edit.onLine_terminate (e : Edit) (l : Line) :
    e.onLine (l.terminate τ) = (e.onLine l).terminate τ := by
  unfold Edit.onLine
  split
  · rfl
  · have hsplice : (l.terminate τ).splice? e.span e.replacement =
        (l.splice? e.span e.replacement).map (·.terminate τ) := by
      have hcontent : (l.terminate τ).content = l.content := rfl
      unfold Line.splice?
      rw [hcontent]
      cases Text.cutAt l.content e.span.stop with
      | none => rfl
      | some cut =>
        simp only [Option.bind_eq_bind, Option.bind_some]
        cases Text.cutAt cut.1 e.span.start <;> rfl
    rw [hsplice]
    cases l.splice? e.span e.replacement <;> rfl

theorem apply_terminate (ls : List Line) (edits : List Edit) :
    apply (ls.map (·.terminate τ)) edits = (apply ls edits).map (·.terminate τ) := by
  unfold apply
  generalize edits.mergeSort Edit.before = es
  induction es generalizing ls with
  | nil => rfl
  | cons e es ih =>
    have hstep : applyOne (ls.map (·.terminate τ)) e = (applyOne ls e).map (·.terminate τ) := by
      refine List.ext_getElem? fun i => ?_
      rw [applyOne_eq_modify, applyOne_eq_modify, List.getElem?_modify, List.getElem?_map,
        List.getElem?_map, List.getElem?_modify]
      cases ls[i]? with
      | none => rfl
      | some l => by_cases hline : e.line = i <;> simp [hline, Edit.onLine_terminate]
    rw [List.foldl_cons, List.foldl_cons, hstep, ih]

end SchemaTidy.Source

namespace SchemaTidy.Dedupe
open Source

variable {ls : List Line} {τ : Terminator → Terminator}

/-! ## Resolutions -/

theorem sectionLines_terminate (ls : List Line) (name : List Char) :
    sectionLines (ls.map (·.terminate τ)) name = (sectionLines ls name).map (relabel τ id) := by
  rw [sectionLines_eq, sectionLines_eq, ← sectionOf_relabel, List.zipIdx_map]
  rfl

theorem definitions_terminate (indent : Nat) (ls : List Line) :
    definitions indent (ls.map (·.terminate τ)) = definitions indent ls := by
  have hid : (Definition.renumbered id : Definition → Definition) = id := rfl
  rw [definitions_eq, definitions_eq, ← definitionsIn, ← definitionsIn, sectionLines_terminate,
    definitionsIn_relabel, hid, List.map_id]

theorem classBlocks_terminate (indent : Nat) (ls : List Line) :
    classBlocks indent (ls.map (·.terminate τ)) = classBlocks indent ls := by
  have hreferences : (Reference.renumbered id : Reference → Reference) = id := rfl
  have hid : (ClassBlock.renumbered id : ClassBlock → ClassBlock) = id := by
    funext c
    rw [ClassBlock.renumbered, hreferences, List.map_id]
    rfl
  rw [classBlocks, classBlocks, sectionLines_terminate, blocksIn_relabel, hid, List.map_id]

theorem plan_terminate (indent : Nat) (ls : List Line) :
    plan indent (ls.map (·.terminate τ)) = plan indent ls := by
  rw [plan, plan, definitions_terminate, classBlocks_terminate]

theorem resolved_terminate (indent : Nat) (ls : List Line) :
    resolved indent (ls.map (·.terminate τ)) = (resolved indent ls).map (·.terminate τ) := by
  rw [resolved, resolved, planEdits, planEdits, plan_terminate, classBlocks_terminate,
    apply_terminate]

/-- **Line terminators do not matter.** A text without carriage returns is resolved with a
carriage return before each line feed as it is without: the result has them too, and the renames
are the same. -/
theorem resolve_withReturns (indentWidth : Nat) {text : List Char} (h : '\r' ∉ text) :
    resolve indentWidth (withReturns text) =
      ⟨withReturns (resolve indentWidth text).text, (resolve indentWidth text).renames⟩ := by
  have hended : ∀ l ∈ resolved (max indentWidth 1) (lines text), l.FeedEnded := by
    intro l hl
    have hproper : l.Proper := by
      refine (canonical_lines (resolve indentWidth text).text).1 l ?_
      rwa [lines_resolve]
    have hterminator : l.terminator ∈ (lines text).map (·.terminator) := by
      rw [← terminators_apply (lines text) (planEdits (max indentWidth 1) (lines text))]
      exact List.mem_map.2 ⟨l, hl, rfl⟩
    obtain ⟨m, hm, heq⟩ := List.mem_map.1 hterminator
    exact ⟨hproper.no_feed, heq ▸ (feedEnded_of_mem_lines h m hm).no_return⟩
  rw [resolve_eq, lines_withReturns h, resolved_terminate, plan_terminate,
    text_withReturns hended, resolve_eq]

/-- A second definition, which a reference follows, in a last line without terminator. -/
theorem resolve_withReturns_last_line :
    let text := "classes:\n  A:\n    slots: [a]\n  B:\n    slots: [a]\nslots:\n  a:\n  a:".toList
    '\r' ∉ text ∧ (resolve 2 text).renames.map (fun r => (r.line, r.renamed, r.owner)) =
        [(7, "b_a".toList, some "B".toList)] ∧
      resolve 2 (withReturns text) =
        ⟨withReturns (resolve 2 text).text, (resolve 2 text).renames⟩ := by
  intro text
  have hreturn : '\r' ∉ text := by decide
  exact ⟨hreturn, by decide, resolve_withReturns 2 hreturn⟩

end SchemaTidy.Dedupe
