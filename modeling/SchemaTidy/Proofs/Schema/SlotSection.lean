import SchemaTidy.Proofs.Yaml.Mapping
import SchemaTidy.Schema.Document

/-! # The section of the slots

How a slot gets into the mapping of a document. Whatever the mapping has under other keys stays,
in its order, and the section keeps the slots that it has (`setSlot_spec`). A section that is not
there gets its place after the classes (`withSlotSection_of_absent`). -/

namespace SchemaTidy.Schema.Document
open Yaml (Value Entries)

variable {root old : Entries}

/-! ## The place of a new section -/

/-- The entries with one more after the first that is named `classes`, with or without a tag, and
at the end if none is. -/
def afterClasses (added : Value × Value) : Entries → Entries
  | [] => [added]
  | e :: rest =>
    if e.1.untaggedString? = some "classes" then e :: added :: rest
    else e :: afterClasses added rest

theorem afterClasses_split (added : Value × Value) (es : Entries) :
    ∃ before after, es = before ++ after ∧ afterClasses added es = before ++ added :: after := by
  induction es with
  | nil => exact ⟨[], [], rfl, rfl⟩
  | cons e rest ih =>
    rw [afterClasses]
    split
    · exact ⟨[e], rest, rfl, rfl⟩
    · obtain ⟨before, after, rfl, hsplit⟩ := ih
      exact ⟨e :: before, after, rfl, by rw [hsplit]; rfl⟩

theorem afterClasses_of_forall {added : Value × Value} {es : Entries}
    (h : ∀ e ∈ es, e.1.untaggedString? ≠ some "classes") :
    afterClasses added es = es ++ [added] := by
  induction es with
  | nil => rfl
  | cons e rest ih =>
    rw [afterClasses, if_neg (h e List.mem_cons_self),
      ih fun e' he' => h e' (List.mem_cons_of_mem _ he')]
    rfl

/-- What happens to one entry when a mapping without slots is built again. -/
def rebuild (rebuilt : Entries) (e : Value × Value) : Entries :=
  if e.1.untaggedString? = some "classes" then
    (rebuilt.insert e.1 e.2).insert (.string "slots") (.mapping [])
  else rebuilt.insert e.1 e.2

theorem insert_next {done rest : Entries} {e : Value × Value}
    (hd : Entries.Distinct (done ++ e :: rest)) : done.insert e.1 e.2 = done ++ [e] :=
  Entries.insert_of_new fun e' he' =>
    (List.pairwise_append.1 hd).2.2 e' he' e List.mem_cons_self

/-- Once the section is there, the other entries only follow. -/
theorem foldl_rebuild_of_placed {done rest : Entries} (hd : Entries.Distinct (done ++ rest))
    (h : done.get? "slots" = some (.mapping [])) : rest.foldl rebuild done = done ++ rest := by
  induction rest generalizing done with
  | nil => simp
  | cons e rest ih =>
    have hd' : Entries.Distinct ((done ++ [e]) ++ rest) := by simpa using hd
    have hslots : (done ++ [e]).get? "slots" = some (.mapping []) := by
      rw [Entries.get?_append, h]
      rfl
    have hstep : rebuild done e = done ++ [e] := by
      rw [rebuild, insert_next hd, Entries.insert_of_get? hslots, ite_self]
    rw [List.foldl_cons, hstep, ih hd' hslots, List.append_assoc]
    rfl

theorem foldl_rebuild {done rest : Entries} (hd : Entries.Distinct (done ++ rest))
    (h : Entries.get? (done ++ rest) "slots" = none) :
    rest.foldl rebuild done =
      if rest.any (·.1.untaggedString? == some "classes") then
        done ++ afterClasses (.string "slots", .mapping []) rest
      else done ++ rest := by
  induction rest generalizing done with
  | nil => simp
  | cons e rest ih =>
    have hd' : Entries.Distinct ((done ++ [e]) ++ rest) := by simpa using hd
    have h' : Entries.get? ((done ++ [e]) ++ rest) "slots" = none := by simpa using h
    rw [List.foldl_cons, rebuild, insert_next hd, afterClasses, List.any_cons]
    by_cases hclasses : e.1.untaggedString? = some "classes"
    · have hnone : (done ++ [e]).get? "slots" = none := Entries.get?_eq_none_of_append h'
      rw [if_pos hclasses, if_pos hclasses, if_pos (by simp [hclasses]),
        Entries.insert_of_get?_eq_none hnone, foldl_rebuild_of_placed]
      · simp
      · simpa using hd'.add h' (.mapping [])
      · rw [Entries.get?_append, hnone]
        rfl
    · rw [if_neg hclasses, if_neg hclasses, ih hd' h', beq_false_of_ne hclasses, Bool.false_or]
      simp only [List.append_assoc, List.singleton_append]

/-- **A section that is not there is put after the classes**, or at the end if there are none. -/
theorem withSlotSection_of_absent (hd : root.Distinct) (h : root.get? "slots" = none) :
    withSlotSection root = afterClasses (.string "slots", .mapping []) root := by
  have hrebuilt : withSlotSection root =
      if (root.get? "classes").isSome then root.foldl rebuild []
      else (root.foldl rebuild []).insert (.string "slots") (.mapping []) := by
    rw [withSlotSection, h]
    rfl
  rw [hrebuilt, @foldl_rebuild [] root hd h]
  by_cases hany : root.any (·.1.untaggedString? == some "classes") = true
  · obtain ⟨before, after, hroot, hplaced⟩ :=
      afterClasses_split (.string "slots", .mapping []) root
    have hbefore : before.get? "slots" = none := Entries.get?_eq_none_of_append (hroot ▸ h)
    have hslots : (afterClasses (.string "slots", .mapping []) root).get? "slots" =
        some (.mapping []) := by
      rw [hplaced, Entries.get?_append, hbefore]
      rfl
    rw [if_pos hany, List.nil_append, Entries.insert_of_get? hslots, ite_self]
  · have hnot : ∀ e ∈ root, e.1.untaggedString? ≠ some "classes" := by simpa using hany
    have hclasses : root.get? "classes" = none := Entries.get?_eq_none_iff.2 fun e he => by
      refine Bool.eq_false_iff.2 fun hname => hnot e he ?_
      rw [Yaml.Value.isString_iff.1 hname]
      rfl
    rw [if_neg hany, hclasses, afterClasses_of_forall hnot]
    exact Entries.insert_of_get?_eq_none h _

/-! ## The section with one more slot -/

theorem sectionEntries_eq_ok {name : String} {es : Entries}
    (h : sectionEntries root name = .ok es) : root.get? name = some (.mapping es) ∨
      es = [] ∧ (root.get? name = none ∨ root.get? name = some .null) := by
  unfold sectionEntries at h
  split at h
  next hnone => exact .inr ⟨(Except.ok.inj h).symm, .inl hnone⟩
  next hnull => exact .inr ⟨(Except.ok.inj h).symm, .inr hnull⟩
  next hmapping => exact .inl (Except.ok.inj h ▸ hmapping)
  next => cases h

/-- The place for the slots is a section that holds what the old one does. -/
theorem withSlotSection_spec (hd : root.Distinct) (h : sectionEntries root "slots" = .ok old) :
    (withSlotSection root).Distinct ∧
      (withSlotSection root).without "slots" = root.without "slots" ∧
      (withSlotSection root).get? "slots" = some (.mapping old) := by
  rcases sectionEntries_eq_ok h with hmapping | ⟨rfl, hnone | hnull⟩
  · have hsame : withSlotSection root = root := by rw [withSlotSection, hmapping]
    rw [hsame]
    exact ⟨hd, rfl, hmapping⟩
  · obtain ⟨before, after, hroot, hplaced⟩ :=
      afterClasses_split (.string "slots", .mapping []) root
    rw [withSlotSection_of_absent hd hnone, hplaced]
    have hbefore : before.get? "slots" = none := Entries.get?_eq_none_of_append (hroot ▸ hnone)
    refine ⟨(hroot ▸ hd : Entries.Distinct (before ++ after)).add (hroot ▸ hnone) _, ?_, ?_⟩
    · rw [hroot, Entries.without_append, Entries.without_append]
      rfl
    · rw [Entries.get?_append, hbefore]
      rfl
  · have hset : withSlotSection root = root.insert (.string "slots") (.mapping []) := by
      rw [withSlotSection, hnull]
    rw [hset]
    exact ⟨hd.insert _ _, Entries.without_insert _ _ _, Entries.get?_insert_self _ _ _⟩

/-- **Setting a slot changes nothing but the section of the slots**, and there only this slot. -/
theorem setSlot_spec (hd : root.Distinct) (h : sectionEntries root "slots" = .ok old)
    (name : String) (body : Value) :
    (setSlot root name body).Distinct ∧
      (setSlot root name body).without "slots" = root.without "slots" ∧
      sectionEntries (setSlot root name body) "slots" =
        .ok (old.insert (.string name) body) := by
  obtain ⟨hdistinct, hwithout, hsection⟩ := withSlotSection_spec hd h
  have hset : setSlot root name body = (withSlotSection root).insert (.string "slots")
      (.mapping (old.insert (.string name) body)) := by
    simp only [setSlot, hsection]
  rw [hset]
  refine ⟨hdistinct.insert _ _, ?_, ?_⟩
  · rw [Entries.without_insert, hwithout]
  · rw [sectionEntries, Entries.get?_insert_self]

end SchemaTidy.Schema.Document
