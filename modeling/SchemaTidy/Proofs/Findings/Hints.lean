import Mathlib.Data.List.Forall2
import SchemaTidy.Proofs.Lists
import SchemaTidy.Proofs.Repair.Findings

/-! # Hints

A finding may come with a hint at a declared name. Main statement: `hints_only_append`. A document
has the same findings with hints and without; a hint is put behind the message, and names the first
of the declared names that score highest among those that are alike. -/

namespace SchemaTidy.Similarity

variable {missing name : String} {names : List String}

/-! ## Which names are alike -/

/-- How a character counts in a comparison. -/
def CaseMode.fold (mode : CaseMode) (c : Char) : Char := if mode.exact then c else c.toLower

theorem CaseMode.agrees_iff (mode : CaseMode) (a b : Char) :
    mode.agrees a b = true ↔ mode.fold a = mode.fold b := by
  unfold agrees fold
  split <;> exact beq_iff_eq

theorem earliestFrom_isSome_iff (mode : CaseMode) (place : Nat) (ws cs : List Char) :
    (earliestFrom mode place ws cs).isSome = true ↔
      (ws.map mode.fold).Sublist (cs.map mode.fold) := by
  fun_induction earliestFrom mode place ws cs with
  | case1 => simp
  | case2 => simp
  | case3 place w ws c cs hagrees ih =>
    rw [Option.isSome_map, ih, List.map_cons, List.map_cons, (mode.agrees_iff w c).1 hagrees,
      List.cons_sublist_cons]
  | case4 place w ws c cs hagrees ih =>
    rw [ih, List.map_cons, List.map_cons, List.cons_sublist_cons', ← mode.agrees_iff,
      or_iff_left fun h => hagrees h.1]

theorem earliestFrom_ne_nil (mode : CaseMode) (place : Nat) (w : Char) (ws cs : List Char) :
    earliestFrom mode place (w :: ws) cs ≠ some [] := by
  induction cs generalizing place with
  | nil => nofun
  | cons c cs ih =>
    rw [earliestFrom]
    split
    · cases earliestFrom mode (place + 1) ws cs <;> nofun
    · exact ih _

/-- The characters of a name occur in another one in their order. Letter case counts when the first
name has an upper-case ASCII letter. -/
def Within (missing name : String) : Prop :=
  if missing.toList.any Char.isUpper then missing.toList.Sublist name.toList
  else (missing.toList.map Char.toLower).Sublist (name.toList.map Char.toLower)

/-- A name that a missing one may have been meant to be. -/
structure Alike (missing name : String) : Prop where
  no_longer : name.utf8ByteSize ≤ missing.utf8ByteSize + 2
  no_shorter : missing.utf8ByteSize ≤ name.utf8ByteSize + 2
  within : Within missing name

theorem earliest?_isSome_iff :
    (earliest? missing.toList name.toList).isSome = true ↔ Within missing name := by
  rw [earliest?, earliestFrom_isSome_iff, Within, CaseMode.of]
  cases missing.toList.any Char.isUpper
  · exact Iff.rfl
  · have hfold : CaseMode.fold ⟨true⟩ = id := rfl
    rw [hfold, List.map_id, List.map_id, if_pos rfl]

theorem score_isSome_iff (cells : Array Cell) :
    (score missing.toList name.toList cells).1.isSome = true ↔ Within missing name := by
  rw [← earliest?_isSome_iff]
  cases hwanted : missing.toList with
  | nil => simp [score, earliest?, earliestFrom]
  | cons w ws =>
    unfold score
    cases hearliest : earliest? (w :: ws) name.toList with
    | none => rfl
    | some places =>
      cases places with
      | nil => exact absurd hearliest (earliestFrom_ne_nil _ _ _ _ _)
      | cons place places => rfl

theorem eligible_iff : eligible missing name = true ↔
    name.utf8ByteSize ≤ missing.utf8ByteSize + 2 ∧
      missing.utf8ByteSize ≤ name.utf8ByteSize + 2 := by
  rw [eligible, Bool.and_eq_true, decide_eq_true_eq, decide_eq_true_eq, and_comm]

/-! ## A scan of names -/

/-- The cells after one more name. -/
def pass (missing : String) (cells : Array Cell) (name : String) : Array Cell :=
  if eligible missing name then (score missing.toList name.toList cells).2 else cells

/-- The score of the name at a place, in a scan of the names from the first one on. -/
def scoreAt (missing : String) (names : List String) (i : Nat) : Option Int :=
  names[i]?.bind fun name =>
    if eligible missing name then
      (score missing.toList name.toList ((names.take i).foldl (pass missing) #[])).1
    else none

theorem scoreAt_isSome_iff {i : Nat} (hname : names[i]? = some name) :
    (scoreAt missing names i).isSome = true ↔ Alike missing name := by
  have halike : Alike missing name ↔ eligible missing name = true ∧ Within missing name := by
    rw [eligible_iff]
    exact ⟨fun h => ⟨⟨h.no_longer, h.no_shorter⟩, h.within⟩, fun h => ⟨h.1.1, h.1.2, h.2⟩⟩
  rw [scoreAt, hname, Option.bind_some, halike]
  split
  next heligible => rw [score_isSome_iff, and_iff_right heligible]
  next hnot => simp [hnot]

theorem scores_cons (missing : String) (cells : Array Cell) (name : String) (names : List String) :
    scores missing cells (name :: names) =
      ((if eligible missing name then (score missing.toList name.toList cells).1 else none).map
        (name, ·)).toList ++ scores missing (pass missing cells name) names := by
  rw [scores, pass]
  split
  · cases score missing.toList name.toList cells with
    | mk s cells => cases s <;> rfl
  · rfl

/-- The scores of a scan, in the order of the names. -/
theorem scores_eq (missing : String) (front names : List String) :
    scores missing (front.foldl (pass missing) #[]) names =
      (names.zipIdx front.length).filterMap fun x =>
        (scoreAt missing (front ++ names) x.2).map (x.1, ·) := by
  induction names generalizing front with
  | nil => rfl
  | cons name names ih =>
    have hrest := ih (front ++ [name])
    rw [List.foldl_concat, List.append_assoc, List.singleton_append, List.length_append,
      List.length_singleton] at hrest
    have hhere : scoreAt missing (front ++ name :: names) front.length =
        if eligible missing name then
          (score missing.toList name.toList (front.foldl (pass missing) #[])).1
        else none := by
      rw [scoreAt, List.getElem?_append_right (Nat.le_refl _), Nat.sub_self,
        List.getElem?_cons_zero, Option.bind_some, List.take_left]
    rw [scores_cons, hrest, List.zipIdx_cons, List.filterMap_cons, hhere]
    cases (if eligible missing name then
      (score missing.toList name.toList (front.foldl (pass missing) #[])).1 else none) <;> rfl

theorem best?_eq_none {l : List (String × Int)} (h : best? l = none) : l = [] := by
  cases l with
  | nil => rfl
  | cons x rest =>
    rw [best?] at h
    split at h
    · split at h <;> cases h
    · cases h

/-- The best is found, and found first. -/
theorem best?_eq_some {l : List (String × Int)} {x : String × Int} (h : best? l = some x) :
    ∃ before after, l = before ++ x :: after ∧ (∀ y ∈ before, y.2 < x.2) ∧
      ∀ y ∈ after, y.2 ≤ x.2 := by
  induction l generalizing x with
  | nil => cases h
  | cons first rest ih =>
    rw [best?] at h
    split at h
    next other t hrest =>
      obtain ⟨before, after, rfl, hbefore, hafter⟩ := ih hrest
      split at h
      next hlt =>
        cases h
        exact ⟨first :: before, after, rfl, List.forall_mem_cons.2 ⟨hlt, hbefore⟩, hafter⟩
      next hle =>
        cases h
        refine ⟨[], _, rfl, nofun, fun y hy => ?_⟩
        rcases List.mem_append.1 hy with hy | hy
        · exact Int.le_trans (Int.le_of_lt (hbefore y hy)) (Int.not_lt.1 hle)
        · rcases List.mem_cons.1 hy with rfl | hy
          · exact Int.not_lt.1 hle
          · exact Int.le_trans (hafter y hy) (Int.not_lt.1 hle)
    next hnone =>
      cases h
      exact ⟨[], rest, rfl, nofun, by rw [best?_eq_none hnone]; nofun⟩

/-- The first of the names that score highest. -/
structure Nearest (missing : String) (names : List String) (i : Nat) (s : Int) : Prop where
  score : scoreAt missing names i = some s
  highest : ∀ j t, scoreAt missing names j = some t → t ≤ s
  first : ∀ j t, j < i → scoreAt missing names j = some t → t < s

theorem suggest_eq_none (h : suggest missing names = none) :
    ∀ name ∈ names, ¬ Alike missing name := by
  intro name hname halike
  obtain ⟨i, hi⟩ := List.mem_iff_getElem?.1 hname
  obtain ⟨s, hs⟩ := Option.isSome_iff_exists.1 ((scoreAt_isSome_iff hi).2 halike)
  have hnil := best?_eq_none (Option.map_eq_none_iff.1 h)
  have hscores := scores_eq missing [] names
  rw [List.foldl_nil, hnil] at hscores
  have hnone := List.filterMap_eq_nil_iff.1 hscores.symm (name, i)
    (List.mk_mem_zipIdx_iff_getElem?.2 hi)
  simp [hs] at hnone

theorem suggest_eq_some (h : suggest missing names = some name) :
    ∃ i s, names[i]? = some name ∧ Nearest missing names i s := by
  obtain ⟨x, hbest, rfl⟩ := Option.map_eq_some_iff.1 h
  obtain ⟨before, after, hsplit, hbefore, hafter⟩ := best?_eq_some hbest
  have hscores := scores_eq missing [] names
  rw [List.foldl_nil, hsplit] at hscores
  obtain ⟨front, back, hnames, hfront, hback⟩ := List.filterMap_eq_append_iff.1 hscores.symm
  obtain ⟨skipped, ⟨found, i⟩, rest, rfl, hskipped, hfound, hrest⟩ :=
    List.filterMap_eq_cons_iff.1 hback
  obtain ⟨s, hs, rfl⟩ := Option.map_eq_some_iff.1 hfound
  have horder := pairwise_zipIdx names
  rw [List.length_nil] at hnames
  rw [hnames, List.pairwise_append, List.pairwise_append, List.pairwise_cons] at horder
  have hi : names[i]? = some found := List.mk_mem_zipIdx_iff_getElem?.1 (by rw [hnames]; simp)
  -- a name with a score stands in front of the best one, is it, or stands behind it
  have hplace (j : Nat) (t : Int) (ht : scoreAt missing names j = some t) :
      t < s ∨ i ≤ j ∧ t ≤ s := by
    obtain ⟨other, hj, -⟩ := Option.bind_eq_some_iff.1 ht
    have hscored : (scoreAt missing ([] ++ names) j).map (other, ·) = some (other, t) := by
      rw [List.nil_append, ht, Option.map_some]
    have hmem := List.mk_mem_zipIdx_iff_getElem?.2 hj
    rw [hnames, List.mem_append, List.mem_append, List.mem_cons] at hmem
    rcases hmem with hfar | hskip | hhere | hbehind
    · exact .inl (hbefore _ (hfront ▸ List.mem_filterMap.2 ⟨_, hfar, hscored⟩))
    · exact absurd (hskipped _ hskip) (by rw [hscored]; nofun)
    · obtain ⟨rfl, rfl⟩ := Prod.mk.inj hhere
      exact .inr ⟨Nat.le_refl _, Int.le_of_eq (Option.some.inj (ht.symm.trans hs))⟩
    · exact .inr ⟨Nat.le_of_lt (horder.2.1.2.1.1 _ hbehind),
        hafter _ (hrest ▸ List.mem_filterMap.2 ⟨_, hbehind, hscored⟩)⟩
  refine ⟨i, s, hi, hs, fun j t ht => ?_, fun j t hlt ht => ?_⟩
  · exact (hplace j t ht).elim Int.le_of_lt (·.2)
  · exact (hplace j t ht).resolve_right fun h => Nat.not_le_of_lt hlt h.1

end SchemaTidy.Similarity

namespace SchemaTidy
open Schema

/-- The name that a finding is about, and the declared names that may have been meant. -/
inductive Lacks (d : Document) : Subject → String → List String → Prop where
  | slot (className slot : String) : Lacks d (.undefinedSlot className slot) slot d.slots.names
  | enum (slot range : String) : Lacks d (.undefinedEnum slot range) range d.enums.names

namespace ValidationPolicy

variable (v : ValidationPolicy) (d : Document)

/-- The same rules, with hints or without. -/
def withHints (on : Bool) : ValidationPolicy := { v with suggestSimilar := on }

/-- What is found is lacking, and comes with the hint for it. -/
theorem hint_of_mem_validate {f : Finding} (h : f ∈ v.validate d) :
    ∃ missing names, Lacks d f.subject missing names ∧ missing ∉ names ∧
      f.hint = v.hint missing names := by
  rcases List.mem_append.1 h with h | h
  · obtain ⟨⟨className, c⟩, -, h⟩ := List.mem_flatMap.1 h
    obtain ⟨slot, hslot, rfl⟩ := List.mem_map.1 h
    have hnot := (List.mem_filter.1 hslot).2
    rw [Bool.not_eq_true', ← Bool.not_eq_true, Table.contains_iff_mem_names] at hnot
    exact ⟨slot, _, .slot className slot, hnot, rfl⟩
  · obtain ⟨⟨slot, body⟩, -, h⟩ := List.mem_filterMap.1 h
    obtain ⟨range, hrange, rfl⟩ := Option.map_eq_some_iff.1 h
    have hdangling : v.Dangling d range := lacksEnum_iff.1 (Option.filter_eq_some_iff.1 hrange).2
    exact ⟨range, _, .enum slot range, hdangling.2.2.2, rfl⟩

/-- Without hints the findings are those with hints, each with its hint left out. -/
theorem validate_withHints_false :
    (v.withHints false).validate d =
      ((v.withHints true).validate d).map fun f => { f with hint := none } := by
  have hslots : (v.withHints false).slotFindings d =
      ((v.withHints true).slotFindings d).map fun f => { f with hint := none } := by
    simp only [slotFindings, List.map_flatMap, List.map_map]
    rfl
  have henums : (v.withHints false).enumFindings d =
      ((v.withHints true).enumFindings d).map fun f => { f with hint := none } := by
    simp only [enumFindings, List.map_filterMap, Option.map_map]
    rfl
  rw [validate, validate, List.map_append, hslots, henums]

/-- **Hints are put behind messages.** With hints a document has the findings that it has without,
in their order. A message stays as it is where no declared name is alike the missing one, and names
otherwise the first of those with the highest score. -/
theorem hints_only_append :
    let plain := (v.withHints false).validate d
    let hinted := (v.withHints true).validate d
    plain.isEmpty = hinted.isEmpty ∧
    List.Forall₂ (fun f g : Finding => g.subject = f.subject ∧
      ∃ missing names, Lacks d f.subject missing names ∧ missing ∉ names ∧
        (g.message = f.message ∧ (∀ name ∈ names, ¬ Similarity.Alike missing name) ∨
          ∃ i name s, names[i]? = some name ∧
            g.message = f.message ++ " Did you mean '" ++ name ++ "'?" ∧ name ≠ missing ∧
            Similarity.Alike missing name ∧ Similarity.Nearest missing names i s))
      plain hinted := by
  intro plain hinted
  have hplain : plain = hinted.map fun f => { f with hint := none } :=
    v.validate_withHints_false d
  refine ⟨by rw [hplain, List.isEmpty_map], ?_⟩
  rw [hplain, List.forall₂_map_left_iff, List.forall₂_same]
  intro g hg
  obtain ⟨missing, names, hlacks, hnot, hhint⟩ := hint_of_mem_validate _ d hg
  refine ⟨rfl, missing, names, hlacks, hnot, ?_⟩
  change g.hint = Similarity.suggest missing names at hhint
  cases hsuggest : Similarity.suggest missing names with
  | none =>
    refine .inl ⟨?_, Similarity.suggest_eq_none hsuggest⟩
    simp only [Finding.message, hhint, hsuggest]
  | some name =>
    obtain ⟨i, s, hi, hnearest⟩ := Similarity.suggest_eq_some hsuggest
    refine .inr ⟨i, name, s, hi, ?_, fun heq => ?_, ?_, hnearest⟩
    · simp only [Finding.message, hhint, hsuggest]
    · exact hnot (heq ▸ List.mem_of_getElem? hi)
    · exact (Similarity.scoreAt_isSome_iff hi).1 (by rw [hnearest.score]; rfl)

end ValidationPolicy

end SchemaTidy
