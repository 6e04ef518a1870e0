import Mathlib.Data.List.Basic
import SchemaTidy.Proofs.Schema.Tables

/-! # Where a declared slot goes

Declaring a slot sets one entry of the section of the slots, and the section keeps its place among
the other entries of the mapping. A section that is not there is made behind the first entry named
`classes`, whatever tags this name has, so that a tagged name can come in before the classes of the
document. Main statement: `addSlot_keeps_entries`. -/

namespace SchemaTidy.Schema.Document
open Yaml (Value Entries)

variable {d : Document} {root es : Entries} {name : String} {value former : Value}
  {added e : Value × Value}

/-! ## Setting a key -/

/-- The value of a string key is set, in its place, or behind all entries when the key is new. The
other entries stay where they are. -/
inductive SetsKey (name : String) (value : Value) : Entries → Entries → Prop where
  | inPlace {before after : Entries} (former : Value) (hbefore : before.get? name = none) :
      SetsKey name value (before ++ (.string name, former) :: after)
        (before ++ (.string name, value) :: after)
  | atEnd {es : Entries} (hnew : es.get? name = none) :
      SetsKey name value es (es ++ [(.string name, value)])

/-- The entry that a string key has. -/
theorem split_of_get? (h : es.get? name = some former) :
    ∃ before after : Entries,
      es = before ++ (.string name, former) :: after ∧ before.get? name = none := by
  induction es with
  | nil => cases h
  | cons e rest ih =>
    rw [Entries.get?_cons] at h
    split at h
    next hname =>
      obtain ⟨key, v⟩ := e
      obtain rfl : key = .string name := Value.isString_iff.1 hname
      obtain rfl : v = former := Option.some.inj h
      exact ⟨[], rest, rfl, rfl⟩
    next hname =>
      obtain ⟨before, after, rfl, hbefore⟩ := ih h
      refine ⟨e :: before, after, rfl, ?_⟩
      rw [Entries.get?_cons, if_neg hname]
      exact hbefore

theorem insert_split {before after : Entries} (h : before.get? name = none)
    (former value : Value) :
    Entries.insert (before ++ (.string name, former) :: after) (.string name) value =
      before ++ (.string name, value) :: after := by
  induction before with
  | nil => simp [Entries.insert, Value.same_string, Value.isString]
  | cons e before ih =>
    rw [Entries.get?_cons] at h
    split at h
    next => cases h
    next hname =>
      rw [List.cons_append, Entries.insert, Value.same_string, if_neg hname, ih h]
      rfl

theorem setsKey_insert (es : Entries) (name : String) (value : Value) :
    SetsKey name value es (es.insert (.string name) value) := by
  cases h : es.get? name with
  | none =>
    rw [Entries.insert_of_get?_eq_none h]
    exact .atEnd h
  | some former =>
    obtain ⟨before, after, rfl, hbefore⟩ := split_of_get? h
    rw [insert_split hbefore]
    exact .inPlace former hbefore

/-! ## The place of the section -/

/-- The section that a slot is put in, with the slot. -/
theorem setSlot_eq {old : Entries} (hd : root.Distinct)
    (hold : sectionEntries root "slots" = .ok old) (name : String) (body : Value) :
    setSlot root name body = (withSlotSection root).insert (.string "slots")
      (.mapping (old.insert (.string name) body)) := by
  simp only [setSlot, (withSlotSection_spec hd hold).2.2]

theorem get?_setSlot {old : Entries} (hd : root.Distinct)
    (hold : sectionEntries root "slots" = .ok old) (name : String) (body : Value) :
    (setSlot root name body).get? "slots" = some (.mapping (old.insert (.string name) body)) := by
  rw [setSlot_eq hd hold, Entries.get?_insert_self]

/-- A section that is there, with entries or without, stays in its place. -/
theorem setSlot_of_present {old : Entries} (hd : root.Distinct)
    (hold : sectionEntries root "slots" = .ok old) (h : root.get? "slots" = some former)
    (name : String) (body : Value) :
    ∃ before after, root = before ++ (.string "slots", former) :: after ∧
      setSlot root name body =
        before ++ (.string "slots", .mapping (old.insert (.string name) body)) :: after := by
  obtain ⟨before, after, hroot, hbefore⟩ := split_of_get? h
  have hsection : ∃ v, withSlotSection root = before ++ (.string "slots", v) :: after := by
    rcases sectionEntries_eq_ok hold with hmapping | ⟨-, hnone | hnull⟩
    · exact ⟨former, by rw [withSlotSection, hmapping, hroot]⟩
    · rw [hnone] at h
      cases h
    · refine ⟨.mapping [], ?_⟩
      rw [withSlotSection, hnull, hroot]
      exact insert_split hbefore _ _
  obtain ⟨v, hsection⟩ := hsection
  refine ⟨before, after, hroot, ?_⟩
  rw [setSlot_eq hd hold, hsection, insert_split hbefore]

theorem not_mem_of_get?_eq_none (h : es.get? name = none) (value : Value) :
    (.string name, value) ∉ es := by
  intro hmem
  have hnot := Entries.get?_eq_none_iff.1 h _ hmem
  rw [Value.isString_iff.2 rfl] at hnot
  cases hnot

theorem insert_afterClasses (h : root.get? name = none) (former value : Value) :
    (afterClasses (.string name, former) root).insert (.string name) value =
      afterClasses (.string name, value) root := by
  induction root with
  | nil => simp [afterClasses, Entries.insert, Value.same_string, Value.isString]
  | cons e rest ih =>
    rw [Entries.get?_cons] at h
    split at h
    next => cases h
    next hname =>
      rw [afterClasses, afterClasses]
      split
      · exact @insert_split name [e] rest (by simp [Entries.get?_cons, hname]) former value
      · rw [Entries.insert, Value.same_string, if_neg hname, ih h]

/-- A section that is not there is made. -/
theorem setSlot_of_absent {old : Entries} (hd : root.Distinct)
    (hold : sectionEntries root "slots" = .ok old) (h : root.get? "slots" = none) (name : String)
    (body : Value) :
    setSlot root name body =
      afterClasses (.string "slots", .mapping (old.insert (.string name) body)) root := by
  rw [setSlot_eq hd hold, withSlotSection_of_absent hd h, insert_afterClasses h]

/-! ## Names with tags -/

/-- Whether the key of an entry is the name `classes`, tags aside. -/
def namesClasses (e : Value × Value) : Bool := e.1.untaggedString? == some "classes"

/-- The entries with one more right after the one whose key is the string `classes`, and at the end
if there is none. -/
inductive FollowsClasses (added : Value × Value) : Entries → Entries → Prop where
  | behind {before after : Entries} (classes : Value) :
      FollowsClasses added (before ++ (.string "classes", classes) :: after)
        (before ++ (.string "classes", classes) :: added :: after)
  | last {es : Entries} (h : es.get? "classes" = none) : FollowsClasses added es (es ++ [added])

theorem afterClasses_of_find? (h : es.find? namesClasses = some e) :
    ∃ before after, es = before ++ e :: after ∧ (∀ x ∈ before, namesClasses x = false) ∧
      ∀ added, afterClasses added es = before ++ e :: added :: after := by
  obtain ⟨hname, before, after, rfl, hbefore⟩ := List.find?_eq_some_iff_append.1 h
  refine ⟨before, after, rfl, by simpa using hbefore, fun added => ?_⟩
  clear h
  induction before with
  | nil => exact if_pos (beq_iff_eq.1 hname)
  | cons x before ih =>
    obtain ⟨hx, hbefore⟩ := List.forall_mem_cons.1 hbefore
    rw [List.cons_append, afterClasses, if_neg fun heq => ?_, ih hbefore]
    · rfl
    · simp [namesClasses, heq] at hx

theorem isString_classes_of_namesClasses (h : namesClasses e = false) :
    e.1.isString "classes" = false := by
  refine Bool.eq_false_iff.2 fun hname => ?_
  rw [namesClasses, Value.isString_iff.1 hname] at h
  cases h

/-- A name, with tags or not, is the same as itself. -/
theorem same_self {s : String} : ∀ {v : Value}, v.untaggedString? = some s → v.same v = true
  | .string _, _ => by simp [Value.same]
  | .tagged _ v, h => by simpa [Value.same] using same_self (v := v) h

/-- An entry whose key is the same as itself stands once, so nothing comes after it where it is the
last one. -/
theorem eq_nil_of_getLast? {before after : Entries} (hd : Entries.Distinct (before ++ e :: after))
    (hself : e.1.same e.1 = true) (hlast : (before ++ e :: after).getLast? = some e) :
    after = [] := by
  by_contra hne
  rw [List.getLast?_append_of_ne_nil _ (by simp), List.getLast?_cons_of_ne_nil hne] at hlast
  have hafter := (List.pairwise_append.1 hd).2.1
  have hother := (List.pairwise_cons.1 hafter).1 e (List.mem_of_getLast? hlast)
  rw [hself] at hother
  cases hother

/-- Behind a first `classes` with a tag the place is right only at the end. -/
theorem plain_or_last_of_followsClasses (hnew : added ∉ root)
    (hfollows : FollowsClasses added root (afterClasses added root))
    (hfirst : root.find? namesClasses = some e) :
    e.1 = .string "classes" ∨ root.getLast? = some e := by
  obtain ⟨before, after, hroot, -, hplaced⟩ := afterClasses_of_find? hfirst
  have hsplit : afterClasses added root = (before ++ [e]) ++ added :: after := by
    rw [hplaced, List.append_assoc, List.singleton_append]
  have hnotin : added ∉ before ++ [e] ∧ added ∉ after := by
    rw [hroot, List.mem_append, List.mem_cons] at hnew
    rw [List.mem_append, List.mem_singleton]
    tauto
  generalize afterClasses added root = placed at hfollows hsplit
  cases hfollows with
  | @behind before' after' classes =>
    rw [← List.singleton_append, ← List.append_assoc] at hsplit
    obtain ⟨hbefore, -, -⟩ := (List.append_cons_inj_of_notMem hnotin.1 hnotin.2).1 hsplit.symm
    obtain ⟨-, heq⟩ := List.append_inj' hbefore rfl
    exact .inl (congrArg Prod.fst (List.singleton_inj.1 heq))
  | last =>
    obtain ⟨hbefore, -, -⟩ := (List.append_cons_inj_of_notMem hnotin.1 hnotin.2).1 hsplit.symm
    exact .inr (by rw [← hbefore, List.getLast?_concat])

theorem followsClasses_of_plain_or_last (hd : root.Distinct)
    (h : ∀ e, root.find? namesClasses = some e →
      e.1 = .string "classes" ∨ root.getLast? = some e) :
    FollowsClasses added root (afterClasses added root) := by
  cases hfind : root.find? namesClasses with
  | none =>
    have hnone : ∀ e ∈ root, namesClasses e = false := by simpa using hfind
    rw [afterClasses_of_forall fun e he heq => by simpa [namesClasses, heq] using hnone e he]
    exact .last (Entries.get?_eq_none_iff.2 fun e he =>
      isString_classes_of_namesClasses (hnone e he))
  | some e =>
    obtain ⟨before, after, rfl, hbefore, hplaced⟩ := afterClasses_of_find? hfind
    rw [hplaced]
    by_cases hplain : e.1 = .string "classes"
    · obtain ⟨key, classes⟩ := e
      obtain rfl : key = .string "classes" := hplain
      exact .behind classes
    · have hself : e.1.same e.1 = true :=
        same_self (beq_iff_eq.1 (show namesClasses e = true from List.find?_some hfind))
      obtain rfl := eq_nil_of_getLast? hd hself ((h e hfind).resolve_left hplain)
      have hget : Entries.get? (before ++ [e]) "classes" = none := by
        refine Entries.get?_eq_none_iff.2 fun x hx => ?_
        rcases List.mem_append.1 hx with hx | hx
        · exact isString_classes_of_namesClasses (hbefore x hx)
        · obtain rfl := List.mem_singleton.1 hx
          exact Bool.eq_false_iff.2 fun hname => hplain (Value.isString_iff.1 hname)
      have hend : before ++ [e, added] = before ++ [e] ++ [added] := by simp
      rw [hend]
      exact .last hget

/-- **The place behind the first `classes`** is that behind the classes of the document just when
this first one has no tag or is the last entry. -/
theorem followsClasses_iff (hd : root.Distinct) (hnew : added ∉ root) :
    FollowsClasses added root (afterClasses added root) ↔
      ∀ e, root.find? namesClasses = some e →
        e.1 = .string "classes" ∨ root.getLast? = some e :=
  ⟨fun hfollows _ hfirst => plain_or_last_of_followsClasses hnew hfollows hfirst,
    followsClasses_of_plain_or_last hd⟩

/-! ## Declaring a slot -/

/-- **A slot that is declared changes one entry of the section of the slots.** All other entries of
the mapping stay, in their order, and those of the section stay in their places. A section that is
there, be it null, keeps its place. One that is not comes after the first entry named `classes` with
or without a tag; this is right after the classes of the document, and the end if it has none, just
when that first entry has no tag or is the last one. -/
theorem addSlot_keeps_entries {text : String} (h : parse text = .ok d) (name : String)
    (slot : SlotDef) :
    let root' := (d.addSlot name slot).root
    root'.without "slots" = d.root.without "slots" ∧
    ∃ old new, sectionEntries d.root "slots" = .ok old ∧ SetsKey name slot.toValue old new ∧
      (∀ former, d.root.get? "slots" = some former →
        ∃ before after, d.root = before ++ (.string "slots", former) :: after ∧
          root' = before ++ (.string "slots", .mapping new) :: after) ∧
      (d.root.get? "slots" = none →
        root' = afterClasses (.string "slots", .mapping new) d.root ∧
        (FollowsClasses (.string "slots", .mapping new) d.root root' ↔
          ∀ e, d.root.find? namesClasses = some e →
            e.1 = .string "classes" ∨ d.root.getLast? = some e)) := by
  intro root'
  obtain ⟨hd, hread⟩ := faithful_of_parse h
  obtain ⟨old, hold, -⟩ := readSection_eq_ok (ofRoot_eq_ok_iff.1 hread).2.2.1
  refine ⟨(setSlot_spec hd hold name slot.toValue).2.1, old, _, hold,
    setsKey_insert old name slot.toValue, fun former hformer => ?_, fun habsent => ?_⟩
  · exact setSlot_of_present hd hold hformer name slot.toValue
  · have hroot : root' = afterClasses _ d.root :=
      setSlot_of_absent hd hold habsent name slot.toValue
    refine ⟨hroot, ?_⟩
    rw [hroot]
    exact followsClasses_iff hd (not_mem_of_get?_eq_none habsent _)

/-- Old classes that come after those of the document are passed by. -/
theorem addSlot_keeps_entries_behind_classes :
    ∃ d, parse "classes: {}\n!old classes: {}\nid: x\n" = .ok d ∧
      ∃ new, SetsKey "a" (SlotDef.ofRange "date").toValue [] new ∧
        FollowsClasses (.string "slots", .mapping new) d.root (d.addSlot "a" (.ofRange "date")).root := by
  have hread : ((parse "classes: {}\n!old classes: {}\nid: x\n").map fun d =>
      (sectionEntries d.root "slots", d.root.get? "slots", d.root.find? namesClasses)) =
        .ok (.ok [], none, some (.string "classes", .mapping [])) := by
    decide +kernel
  obtain ⟨d, hparse, hread⟩ := map_eq_ok.1 hread
  obtain ⟨hold, hread⟩ := Prod.mk.inj hread
  obtain ⟨habsent, hfirst⟩ := Prod.mk.inj hread
  obtain ⟨-, old, new, hold', hsets, -, hplace⟩ :=
    addSlot_keeps_entries hparse "a" (.ofRange "date")
  obtain rfl : old = [] := Except.ok.inj (hold'.symm.trans hold)
  refine ⟨d, hparse, new, hsets, (hplace habsent).2.2 fun e he => ?_⟩
  obtain rfl := Option.some.inj (he.symm.trans hfirst)
  exact .inl rfl

/-- Old classes stand before those of the document. -/
def oldClassesFirst : String :=
  "!old classes: {}\nclasses:\n  A:\n    slots: [id]\nenums: {}\n"

/-- The section is made behind the old classes, where it does not follow those of the document. -/
theorem addSlot_behind_tagged_classes :
    ∃ d, parse oldClassesFirst = .ok d ∧ d.root.get? "slots" = none ∧
      ∃ new, (d.addSlot "id" (.ofRange "string")).root.get? "slots" = some new ∧
        ¬ FollowsClasses (.string "slots", new) d.root
          (d.addSlot "id" (.ofRange "string")).root := by
  have hread : ((parse oldClassesFirst).map fun d =>
      (d.root.get? "slots", d.root.find? namesClasses, d.root.getLast?)) =
        .ok (none, some (.tagged "old" (.string "classes"), .mapping []),
          some (.string "enums", .mapping [])) := by
    decide +kernel
  obtain ⟨d, hparse, hread⟩ := map_eq_ok.1 hread
  obtain ⟨habsent, hread⟩ := Prod.mk.inj hread
  obtain ⟨hfirst, hlast⟩ := Prod.mk.inj hread
  have hd := (faithful_of_parse hparse).distinct
  have hold : sectionEntries d.root "slots" = .ok [] := by rw [sectionEntries, habsent]
  have hroot := setSlot_of_absent hd hold habsent "id" (SlotDef.ofRange "string").toValue
  refine ⟨d, hparse, habsent, _, get?_setSlot hd hold "id" (SlotDef.ofRange "string").toValue, ?_⟩
  show ¬ FollowsClasses _ d.root (setSlot d.root "id" (SlotDef.ofRange "string").toValue)
  rw [hroot, followsClasses_iff hd (not_mem_of_get?_eq_none habsent _)]
  intro hfollows
  rcases hfollows _ hfirst with hplain | hend
  · cases hplain
  · rw [hlast] at hend
    cases hend

end SchemaTidy.Schema.Document
