import SchemaTidy.Proofs.Dedupe.Edits

/-! # What a resolution leaves alone

Main statement: `resolve_agrees`. A resolved text has the lines of the original one, each with its
terminator, and differs from it only in the keys of repeated definitions and in slot names that
classes list. First definitions stay as they are. -/

namespace SchemaTidy.Dedupe
open Source Text

/-- **A resolved text agrees with the original outside repeated keys and listed names.** -/
theorem resolve_agrees (indentWidth : Nat) (text : List Char) :
    let indent := max indentWidth 1
    let ls := lines text
    let ls' := lines (resolve indentWidth text).text
    ls'.length = ls.length ∧
    (∀ i l, ls[i]? = some l → ∃ l', ls'[i]? = some l' ∧ l'.terminator = l.terminator ∧
      AgreeOutside (MayChange indent ls i) 0 l.content l'.content) ∧
    (∀ i key, DefinesAt indent ls i key →
      (∀ j key', j < i → DefinesAt indent ls j key' → key'.text ≠ key.text) →
        ls'[i]? = ls[i]?) ∧
    (∀ i, (∀ span, ¬ MayChange indent ls i span) → ls'[i]? = ls[i]?) := by
  intro indent ls ls'
  have hls' : ls' = resolved indent ls := lines_resolve indentWidth text
  rw [hls']
  refine ⟨length_resolved indent ls, fun i l hl => ?_, fun i key hkey hfirst => ?_,
    fun i hnone => getElem?_resolved_of_not_mayChange hnone⟩
  · refine ⟨_, getElem?_resolved hl, Line.edited_terminator _ _, agreeOutside_edited ?_ ?_⟩
    · exact (lineEdits_pairwise indent ls i).imp fun hlt => Nat.le_of_lt hlt
    · intro e he
      have hmay := mayChange_of_mem_lineEdits he
      exact ⟨hmay.standsIn hl, hmay⟩
  · refine getElem?_resolved_of_not_mayChange ?_
    rintro span ⟨p, -, ⟨hp, j, key', hlt, hkey', hname⟩ | hlisted⟩
    · exact hfirst j key' hlt hkey' (by rw [hname, hp.unique hkey])
    · exact hkey.not_listedAt p hlisted

/-- A line that defines a name for the first time, above another definition of it. -/
theorem resolve_agrees_first_definition :
    let text := "classes:\n  P:\n    slots: [a]\nslots:\n  a:\n  a: # again\n".toList
    (lines (resolve 2 text).text)[4]? = some ⟨"  a:".toList, .lf⟩ := by
  intro text
  have hdefinitions : ∀ d ∈ definitions 2 (lines text), d.line < 4 → d.key.text ≠ ['a'] := by decide
  have hmem : (⟨4, ⟨2, ['a']⟩⟩ : Definition) ∈ definitions 2 (lines text) := by decide
  have hline := (resolve_agrees 2 text).2.2.1 4 ⟨2, ['a']⟩ (mem_definitions_iff.1 hmem)
    fun j key' hlt hkey' => hdefinitions ⟨j, key'⟩ (mem_definitions_iff.2 hkey') hlt
  exact hline.trans (by decide)

end SchemaTidy.Dedupe
