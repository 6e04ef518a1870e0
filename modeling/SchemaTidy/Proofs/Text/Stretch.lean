import Mathlib.Data.List.DropRight
import SchemaTidy.Text.Blank
import SchemaTidy.Text.Search

/-! # Trimming, searching and splitting a text of which one stretch changes

A name (letters, digits and underscores) holds none of the characters that lines are read by.
The laws here say what trimming, looking for a mark and splitting do to a text made of a
stretch and what stands around it, so that the stretch can be exchanged. -/

namespace SchemaTidy.Text

/-! ## Names -/

/-- An ASCII letter, a digit or an underscore. -/
def isNameChar (c : Char) : Bool := c.isAlphanum || c == '_'

def IsName (cs : List Char) : Prop := cs ≠ [] ∧ ∀ c ∈ cs, isNameChar c = true

instance (cs : List Char) : Decidable (IsName cs) :=
  decidable_of_iff (cs ≠ [] ∧ cs.all isNameChar = true) (and_congr_right fun _ => List.all_eq_true)

theorem isNameChar_of_isBlank {c : Char} (h : isBlank c = true) : isNameChar c = false := by
  have halnum : c.isAlphanum = ((decide (c.val ≥ 65 ∧ c.val ≤ 90) ||
      decide (c.val ≥ 97) && decide (c.val ≤ 122)) ||
        decide (c.val ≥ 48) && decide (c.val ≤ 57)) := rfl
  rw [Bool.eq_false_iff]
  intro hname
  rw [isNameChar, halnum] at hname
  simp only [ge_iff_le, UInt32.le_iff_toNat_le, Bool.or_eq_true, Bool.and_eq_true,
    decide_eq_true_eq, beq_iff_eq] at hname
  change ((((65 ≤ c.toNat ∧ c.toNat ≤ 90) ∨ (97 ≤ c.toNat ∧ c.toNat ≤ 122)) ∨
    (48 ≤ c.toNat ∧ c.toNat ≤ 57)) ∨ c = '_') at hname
  simp only [isBlank, Bool.or_eq_true, Bool.and_eq_true, decide_eq_true_eq, beq_iff_eq] at h
  rcases hname with hname | rfl
  · omega
  · revert h; decide

theorem IsName.not_mem {name : List Char} (h : IsName name) {c : Char}
    (hc : isNameChar c = false) : c ∉ name := by
  intro hm
  rw [h.2 c hm] at hc; cases hc

theorem IsName.not_isBlank {name : List Char} (h : IsName name) {c : Char} (hc : c ∈ name) :
    isBlank c = false := by
  cases hb : isBlank c with
  | false => rfl
  | true => exact absurd hc (h.not_mem (isNameChar_of_isBlank hb))

theorem IsName.exists_cons {name : List Char} (h : IsName name) :
    ∃ c cs, name = c :: cs ∧ isNameChar c = true := by
  obtain ⟨c, cs, rfl⟩ := List.exists_cons_of_ne_nil h.1
  exact ⟨c, cs, rfl, h.2 c (by simp)⟩

/-! ## Trimming -/

theorem trimEnd_eq_rdropWhile (cs : List Char) : trimEnd cs = cs.rdropWhile isBlank := by
  induction cs with
  | nil => rfl
  | cons c cs ih =>
    rw [trimEnd, ih]
    simp only [List.rdropWhile, List.reverse_cons, List.dropWhile_append]
    cases h : cs.reverse.dropWhile isBlank with
    | nil => by_cases hc : isBlank c = true <;> simp [List.dropWhile, hc]
    | cons d ds => simp

theorem not_isBlank_getLast_trimEnd {cs : List Char} {c : Char}
    (h : (trimEnd cs).getLast? = some c) : isBlank c = false := by
  rw [trimEnd_eq_rdropWhile] at h
  have hne : cs.rdropWhile isBlank ≠ [] := by intro hnil; rw [hnil] at h; cases h
  rw [List.getLast?_eq_some_getLast hne, Option.some.injEq] at h
  simpa [← h] using List.rdropWhile_last_not isBlank cs hne

theorem trimEnd_append_of_isBlank {cs blanks : List Char} (hb : blanks.all isBlank = true)
    (hcs : ∀ c, cs.getLast? = some c → isBlank c = false) : trimEnd (cs ++ blanks) = cs := by
  have hdrop : blanks.reverse.dropWhile isBlank = [] := by simpa using hb
  have hself : cs.rdropWhile isBlank = cs := List.rdropWhile_eq_self_iff.2 fun hne => by
    simpa using hcs _ (List.getLast?_eq_some_getLast hne)
  rw [trimEnd_eq_rdropWhile, List.rdropWhile, List.reverse_append, List.dropWhile_append, hdrop]
  exact hself

theorem trimStart_append_of_isBlank {blanks cs : List Char} (hb : blanks.all isBlank = true)
    (hcs : ∀ c, cs.head? = some c → isBlank c = false) : trimStart (blanks ++ cs) = cs := by
  rw [trimStart, List.dropWhile_append_of_pos (by simpa using hb)]
  cases cs with
  | nil => rfl
  | cons c cs => simp [hcs c rfl]

/-! ## Searching -/

theorem splitBefore_eq_none_iff {part cs : List Char} :
    splitBefore part cs = none ↔ ¬ part <:+: cs := by
  induction cs with
  | nil => simp [splitBefore, List.isEmpty_iff]
  | cons c cs ih =>
    rw [splitBefore, List.infix_cons_iff, ← List.isPrefixOf_iff_prefix]
    split <;> simp_all

/-- The first occurrence is found: none stands in the text before it. -/
theorem splitBefore_first {part cs before rest : List Char} (hpart : part ≠ [])
    (h : splitBefore part cs = some (before, rest)) : ¬ part <:+: before := by
  induction cs generalizing before with
  | nil => simp [splitBefore, hpart] at h
  | cons c cs ih =>
    rw [splitBefore] at h
    split at h
    · obtain ⟨rfl, rfl⟩ := Prod.mk.inj (Option.some.inj h)
      simpa using hpart
    · rename_i hp
      obtain ⟨⟨b, r⟩, hsplit, heq⟩ := Option.map_eq_some_iff.1 h
      obtain ⟨rfl, rfl⟩ := Prod.mk.inj heq
      obtain ⟨hcs, -⟩ := splitBefore_sound hsplit
      rw [List.infix_cons_iff, not_or]
      refine ⟨fun hpre => hp (List.isPrefixOf_iff_prefix.2 ?_), ih hsplit⟩
      exact hpre.trans ⟨r, by rw [hcs, List.cons_append]⟩

/-- A mark of two characters is looked for behind a text that does not hold it and does not
end in its first character. -/
theorem splitBefore_append {b m : Char} {cs : List Char} (hcs : ¬ [b, m] <:+: cs)
    (hlast : cs.getLast? ≠ some b) (rest : List Char) :
    splitBefore [b, m] (cs ++ rest) =
      (splitBefore [b, m] rest).map fun (before, after) => (cs ++ before, after) := by
  induction cs with
  | nil => simp
  | cons c cs ih =>
    rw [List.infix_cons_iff, not_or] at hcs
    have hnot : [b, m].isPrefixOf (c :: (cs ++ rest)) = false := by
      rw [Bool.eq_false_iff, ne_eq, List.isPrefixOf_iff_prefix, List.cons_prefix_cons]
      rintro ⟨rfl, hm⟩
      cases cs with
      | nil => exact hlast rfl
      | cons d cs =>
        rw [List.cons_append, List.cons_prefix_cons] at hm
        exact hcs.1 (by simp [hm.1])
    have hlast' : cs.getLast? ≠ some b := by
      cases cs with
      | nil => simp
      | cons d cs => rwa [List.getLast?_cons_cons] at hlast
    rw [List.cons_append, splitBefore, hnot, ih hcs.2 hlast', Option.map_map]
    rfl

/-! ## Splitting -/

theorem splitOn_eq_splitOn (sep : Char) (cs : List Char) : splitOn sep cs = cs.splitOn sep := by
  induction cs with
  | nil => rfl
  | cons c cs ih =>
    rw [splitOn, ih, List.splitOn_cons_eq_if_modifyHead]
    cases h : cs.splitOn sep with
    | nil => exact absurd h (List.splitOn_ne_nil sep cs)
    | cons part parts => by_cases hc : c = sep <;> simp [hc]

theorem not_mem_of_mem_splitOn {sep : Char} {cs part : List Char} (h : part ∈ splitOn sep cs) :
    sep ∉ part := by
  induction cs generalizing part with
  | nil => simp_all [splitOn]
  | cons c cs ih =>
    rw [splitOn] at h
    split at h
    · rcases List.mem_cons.1 h with rfl | h
      · simp
      · exact ih h
    · rename_i hc
      split at h
      · rw [List.mem_singleton.1 h]
        simpa using Ne.symm hc
      · rename_i p ps heq
        rw [heq] at ih
        rcases List.mem_cons.1 h with rfl | h
        · simpa [Ne.symm hc] using ih List.mem_cons_self
        · exact ih (List.mem_cons_of_mem _ h)

theorem splitOn_of_not_mem {sep : Char} {xs : List Char} (h : sep ∉ xs) : splitOn sep xs = [xs] := by
  induction xs with
  | nil => rfl
  | cons c xs ih =>
    obtain ⟨hne, hmem⟩ := not_or.1 (mt List.mem_cons.2 h)
    rw [splitOn, if_neg (Ne.symm hne), ih hmem]

/-- What stands on either side of a separator is split on its own. -/
theorem splitOn_append_cons (sep : Char) (xs rest : List Char) :
    splitOn sep (xs ++ sep :: rest) = splitOn sep xs ++ splitOn sep rest := by
  induction xs with
  | nil =>
    show splitOn sep (sep :: rest) = [] :: splitOn sep rest
    rw [splitOn, if_pos rfl]
  | cons c xs ih =>
    rw [List.cons_append, splitOn, splitOn, ih]
    split
    · rfl
    · cases h : splitOn sep xs with
      | nil => exact absurd h (by rw [splitOn_eq_splitOn]; exact List.splitOn_ne_nil sep xs)
      | cons part parts => rfl

theorem splitOn_append {sep : Char} {xs : List Char} (h : sep ∉ xs) (rest : List Char) :
    splitOn sep (xs ++ sep :: rest) = xs :: splitOn sep rest := by
  rw [splitOn_append_cons, splitOn_of_not_mem h, List.singleton_append]

/-- One part of a split text can be exchanged for another without a separator. -/
theorem splitOn_exchange {sep : Char} {cs part : List Char} {ps qs : List (List Char)}
    (h : splitOn sep cs = ps ++ part :: qs) :
    ∃ before after, cs = before ++ part ++ after ∧ before = ps.flatMap (· ++ [sep]) ∧
      ∀ part', sep ∉ part' → splitOn sep (before ++ part' ++ after) = ps ++ part' :: qs := by
  have hjoin : ∀ p, [sep].intercalate (ps ++ p :: qs) =
      ps.flatMap (· ++ [sep]) ++ p ++ qs.flatMap (sep :: ·) := by
    intro p
    have hright : ∀ p, [sep].intercalate (p :: qs) = p ++ qs.flatMap (sep :: ·) := by
      clear h
      induction qs with
      | nil => simp
      | cons q qs ih => intro p; rw [List.intercalate_cons_cons, ih]; simp
    clear h
    induction ps with
    | nil => simpa using hright p
    | cons q ps ih =>
      obtain ⟨r, rs, hr⟩ := List.exists_cons_of_ne_nil (l := ps ++ p :: qs) (by simp)
      rw [List.cons_append, hr, List.intercalate_cons_cons, ← hr, ih]
      simp
  have hnot : ∀ p ∈ ps ++ part :: qs, sep ∉ p := fun p hp => not_mem_of_mem_splitOn (h ▸ hp)
  refine ⟨_, qs.flatMap (sep :: ·), ?_, rfl, fun part' hpart' => ?_⟩
  · rw [← hjoin, ← h, splitOn_eq_splitOn, List.intercalate_splitOn]
  · rw [← hjoin, splitOn_eq_splitOn]
    refine List.splitOn_intercalate sep (fun p hp => ?_) (by simp)
    rcases List.mem_append.1 hp with hp | hp
    · exact hnot p (List.mem_append_left _ hp)
    · rcases List.mem_cons.1 hp with rfl | hp
      · exact hpart'
      · exact hnot p (by simp [hp])

end SchemaTidy.Text
