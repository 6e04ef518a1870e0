import Mathlib.Data.List.Induction
import SchemaTidy.Proofs.Lists
import SchemaTidy.Schema.Document

/-! # The classes that refer to a slot

Main statement: `get?_references`. The table of references is filled class by class and slot by
slot. What it has under a name in the end are the classes that list this slot, each once, in the
order of the classes. -/

namespace SchemaTidy.Schema.Document

/-- The classes that list a slot, each once, in the order of the classes. -/
def referrersIn (classes : Table ClassDef) (slot : String) : List String :=
  ((classes.filter (·.2.slots.contains slot)).map (·.1)).eraseDups

def referrers (d : Document) (slot : String) : List String := referrersIn d.classes slot

theorem mem_referrers {d : Document} {slot className : String} :
    className ∈ d.referrers slot ↔ ∃ c, (className, c) ∈ d.classes ∧ slot ∈ c.slots := by
  simp [referrers, referrersIn]

theorem nodup_referrers (d : Document) (slot : String) : (d.referrers slot).Nodup :=
  nodup_eraseDups _

theorem referrers_sublist (d : Document) (slot : String) :
    (d.referrers slot).Sublist d.classes.names :=
  (eraseDups_sublist _).trans (List.filter_sublist.map _)

/-! ## Filling the table -/

/-- The known classes with one more, unless it is known. -/
def enlist (className : String) (known : List String) : List String :=
  if known.contains className then known else known ++ [className]

/-- What a slot that a class lists does to the table. -/
def refer (className : String) (table : Table (List String)) (slot : String) :
    Table (List String) :=
  table.insert slot (enlist className ((table.get? slot).getD []))

theorem references_eq_foldl (d : Document) :
    d.references = d.classes.foldl (fun table x => x.2.slots.foldl (refer x.1) table) [] := rfl

theorem enlist_enlist (className : String) (known : List String) :
    enlist className (enlist className known) = enlist className known := by
  by_cases h : className ∈ known <;> simp [enlist, h]

/-- A class comes under each of its slots, be it listed once or several times. -/
theorem get?_foldl_refer (className slot : String) (slots : List String)
    (table : Table (List String)) :
    (slots.foldl (refer className) table).get? slot =
      if slots.contains slot then some (enlist className ((table.get? slot).getD []))
      else table.get? slot := by
  induction slots generalizing table with
  | nil => rfl
  | cons s slots ih =>
    rw [List.foldl_cons, ih, List.contains_cons]
    by_cases hs : slot = s
    · subst hs
      rw [refer, Table.get?_insert_self, Option.getD_some, enlist_enlist, beq_self_eq_true,
        Bool.true_or, ite_self, if_pos rfl]
    · rw [refer, Table.get?_insert_of_ne _ _ hs, beq_false_of_ne hs, Bool.false_or]

theorem referrersIn_concat (classes : Table ClassDef) (x : String × ClassDef) (slot : String) :
    referrersIn (classes ++ [x]) slot =
      if x.2.slots.contains slot then enlist x.1 (referrersIn classes slot)
      else referrersIn classes slot := by
  rw [referrersIn, List.filter_append, List.map_append, List.filter_singleton]
  cases x.2.slots.contains slot with
  | true =>
    rw [cond_true, List.map_singleton, eraseDups_concat]
    rfl
  | false =>
    rw [cond_false, List.map_nil, List.append_nil]
    rfl

theorem enlist_ne_nil (className : String) (known : List String) : enlist className known ≠ [] := by
  unfold enlist
  split
  next h => exact List.ne_nil_of_mem (List.contains_iff_mem.1 h)
  next => simp

/-- **The references to a slot** are the classes that list it; a slot that no class lists is not in
the table. -/
theorem get?_references (d : Document) (slot : String) :
    d.references.get? slot = if d.referrers slot = [] then none else some (d.referrers slot) := by
  rw [references_eq_foldl, referrers]
  induction d.classes using List.reverseRecOn with
  | nil => rfl
  | append_singleton classes x ih =>
    rw [List.foldl_append, List.foldl_cons, List.foldl_nil, get?_foldl_refer, ih,
      referrersIn_concat]
    have hknown : (if referrersIn classes slot = [] then none
        else some (referrersIn classes slot)).getD [] = referrersIn classes slot := by
      split
      next h => exact h.symm
      next => rfl
    rw [hknown]
    split
    · rw [if_neg (enlist_ne_nil _ _)]
    · rfl

end SchemaTidy.Schema.Document
