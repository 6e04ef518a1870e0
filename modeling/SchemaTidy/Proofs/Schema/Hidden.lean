import SchemaTidy.Proofs.Schema.SlotBody
import SchemaTidy.Proofs.Schema.Tables

/-! # Slots that other keys hide

In a section the string `7` and the number 7 are different keys, but as names of slots they are the
same, and the last one counts. A slot that is declared gets its body under the string. Where another
key comes after this string, it hides the new body, so that reading the mapping again does not give
the slot that was declared.

Main statement: `ofRoot_addSlots`. What is read again is the document without the declarations that
are hidden. -/

namespace SchemaTidy.Schema
open Yaml (Value Entries)

variable {α : Type} {name : String}

/-! ## Tables with several values set -/

namespace Table

variable {table other more : Table α} {keep : String → Bool}

/-- A table with the values of another one set in it. -/
def setAll (table more : Table α) : Table α :=
  more.foldl (fun table (name, value) => table.insert name value) table

theorem setAll_cons (table : Table α) (x : String × α) (rest : Table α) :
    setAll table (x :: rest) = setAll (table.insert x.1 x.2) rest := rfl

theorem nodup_names_setAll (h : table.names.Nodup) (more : Table α) :
    (setAll table more).names.Nodup := by
  induction more generalizing table with
  | nil => exact h
  | cons x rest ih => exact ih (nodup_names_insert h _ _)

theorem get?_setAll_of_forall_ne (h : ∀ x ∈ more, x.1 ≠ name) :
    (setAll table more).get? name = table.get? name := by
  induction more generalizing table with
  | nil => rfl
  | cons x rest ih =>
    obtain ⟨hx, hrest⟩ := List.forall_mem_cons.1 h
    exact (ih hrest).trans (get?_insert_of_ne _ _ (Ne.symm hx))

/-- Names that are there already can be left out, the names of the table stay. -/
theorem names_setAll_filter (hnames : table.names = other.names)
    (h : ∀ name, keep name = false → name ∈ table.names) :
    (setAll table more).names = (setAll other (more.filter fun x => keep x.1)).names := by
  induction more generalizing table other with
  | nil => exact hnames
  | cons x rest ih =>
    have hkept : ∀ name, keep name = false → name ∈ (table.insert x.1 x.2).names :=
      fun name hname => (mem_names_insert _ _).2 (.inr (h name hname))
    rw [List.filter_cons]
    cases hkeep : keep x.1
    · exact ih ((names_insert_of_mem (h x.1 hkeep) x.2).trans hnames) hkept
    · rw [if_pos rfl, setAll_cons, setAll_cons]
      refine ih ?_ hkept
      by_cases hmem : x.1 ∈ table.names
      · rw [names_insert_of_mem hmem, names_insert_of_mem (hnames ▸ hmem), hnames]
      · rw [insert_of_new hmem, insert_of_new (hnames ▸ hmem), names_append, names_append, hnames]

theorem get?_setAll_filter (hkeep : keep name = true) (h : table.get? name = other.get? name) :
    (setAll table more).get? name = (setAll other (more.filter fun x => keep x.1)).get? name := by
  induction more generalizing table other with
  | nil => exact h
  | cons x rest ih =>
    rw [List.filter_cons]
    cases hx : keep x.1
    · have hne : name ≠ x.1 := fun heq => by rw [heq, hx] at hkeep; cases hkeep
      exact ih ((get?_insert_of_ne _ _ hne).trans h)
    · rw [if_pos rfl, setAll_cons, setAll_cons]
      refine ih ?_
      by_cases heq : name = x.1
      · rw [heq, get?_insert_self, get?_insert_self]
      · rw [get?_insert_of_ne _ _ heq, get?_insert_of_ne _ _ heq, h]

/-- Leaving out names that are there makes no difference just when they keep their values. -/
theorem setAll_filter_eq_iff (keep : String → Bool) (more : Table α) (hnodup : table.names.Nodup)
    (h : ∀ name, keep name = false → name ∈ table.names) :
    setAll table (more.filter fun x => keep x.1) = setAll table more ↔
      ∀ name, keep name = false → (setAll table more).get? name = table.get? name := by
  have hleft {name : String} (hname : keep name = false) :
      (setAll table (more.filter fun x => keep x.1)).get? name = table.get? name := by
    refine get?_setAll_of_forall_ne fun x hx heq => ?_
    rw [← heq, (List.mem_filter.1 hx).2] at hname
    cases hname
  refine ⟨fun heq name hname => heq ▸ hleft hname, fun hvalues => Eq.symm ?_⟩
  refine ext_get? (names_setAll_filter rfl h) (nodup_names_setAll hnodup more) fun name => ?_
  cases hname : keep name
  · rw [hvalues name hname, hleft hname]
  · exact get?_setAll_filter hname rfl

end Table

namespace Document
open Table (setAll)

variable {read : Value → α} {root es : Entries} {d : Document} {added : Table SlotDef}

/-! ## One section -/

/-- Whether a key that comes after the string of a name reads as this name too. -/
def hides : Entries → String → Bool
  | [], _ => false
  | e :: rest, name => if e.1.isString name then rest.any (readsAs name ·.1) else hides rest name

theorem readEntry_of_string (table : Table α) (name : String) (body : Value) :
    readEntry read table (.string name, body) = table.insert name (read body) := rfl

/-- A value in a table stays until an entry with its name comes. -/
theorem foldl_readEntry_insert {table : Table α} (h : name ∈ table.names) (value : α) :
    es.foldl (readEntry read) (table.insert name value) =
      if es.any (readsAs name ·.1) then es.foldl (readEntry read) table
      else (es.foldl (readEntry read) table).insert name value := by
  induction es generalizing table with
  | nil => rfl
  | cons e rest ih =>
    rw [List.foldl_cons, List.foldl_cons, List.any_cons, readsAs]
    cases htext : scalarText? e.1 with
    | none =>
      have hskip (t : Table α) : readEntry read t e = t := by rw [readEntry, htext]
      rw [hskip, hskip, ih h]
      rfl
    | some other =>
      have hset (t : Table α) : readEntry read t e = t.insert other (read e.2) := by
        rw [readEntry, htext]
      rw [hset, hset]
      by_cases hother : other = name
      · subst hother
        rw [Table.insert_insert, beq_self_eq_true, Bool.true_or, if_pos rfl]
      · have hmem : name ∈ (table.insert other (read e.2)).names :=
          (Table.mem_names_insert _ _).2 (.inr h)
        have hne : (some other == some name) = false := by simpa using hother
        rw [Table.insert_comm h hother, ih hmem, hne, Bool.false_or]

/-- **Setting the body of a name in a section** sets it in the table, unless a later key hides
it. -/
theorem readEntries_insert (read : Value → α) (es : Entries) (name : String) (body : Value) :
    readEntries read (es.insert (.string name) body) =
      if hides es name then readEntries read es else (readEntries read es).insert name (read body) := by
  simp only [readEntries_eq_foldl]
  generalize ([] : Table α) = table
  induction es generalizing table with
  | nil => rfl
  | cons e rest ih =>
    rw [Entries.insert, Value.same_string, hides]
    cases hkey : e.1.isString name
    · simp only [Bool.false_eq_true, if_false, List.foldl_cons]
      exact ih _
    · obtain ⟨key, value⟩ := e
      obtain rfl : key = .string name := Value.isString_iff.1 hkey
      have hmem : name ∈ (Table.insert table name (read value)).names :=
        (Table.mem_names_insert _ _).2 (.inl rfl)
      rw [if_pos rfl, if_pos rfl, List.foldl_cons, List.foldl_cons, readEntry_of_string,
        readEntry_of_string, ← foldl_readEntry_insert hmem, Table.insert_insert]

theorem any_readsAs_insert {other : String} (hne : name ≠ other) (body : Value) :
    (es.insert (.string name) body).any (readsAs other ·.1) = es.any (readsAs other ·.1) := by
  induction es with
  | nil => simp [Entries.insert, readsAs, scalarText?, hne]
  | cons e rest ih =>
    rw [Entries.insert]
    split
    · rfl
    · rw [List.any_cons, List.any_cons, ih]

/-- Setting bodies changes nothing about what is hidden. -/
theorem hides_insert (es : Entries) (name other : String) (body : Value) :
    hides (es.insert (.string name) body) other = hides es other := by
  induction es with
  | nil => simp [Entries.insert, hides]
  | cons e rest ih =>
    rw [Entries.insert, Value.same_string]
    cases hkey : e.1.isString name
    · rw [if_neg (by simp), hides, hides, ih]
      split
      next hother =>
        refine any_readsAs_insert (fun heq => ?_) body
        rw [heq, hother] at hkey
        cases hkey
      · rfl
    · rfl

theorem mem_names_of_hides (h : hides es name = true) : name ∈ (readEntries read es).names := by
  induction es with
  | nil => cases h
  | cons e rest ih =>
    rw [mem_names_readEntries]
    rw [hides] at h
    split at h
    next hkey => exact ⟨e, List.mem_cons_self, by rw [Value.isString_iff.1 hkey]; rfl⟩
    · obtain ⟨e', he', htext⟩ := mem_names_readEntries.1 (ih h)
      exact ⟨e', List.mem_cons_of_mem _ he', htext⟩

theorem nodup_names_readEntries (es : Entries) : (readEntries read es).names.Nodup := by
  induction es using List.reverseRecOn with
  | nil => exact List.nodup_nil
  | append_singleton es e ih =>
    rw [readEntries_concat, readEntry]
    split
    · exact Table.nodup_names_insert ih _ _
    · exact ih

/-! ## Several slots -/

/-- A section with the bodies of slots set in it. -/
def setBodies (es : Entries) (added : Table SlotDef) : Entries :=
  added.foldl (fun es (name, slot) => es.insert (.string name) slot.toValue) es

/-- **The slots of a section with more bodies** are those that it had and those that are not
hidden. -/
theorem readEntries_setBodies (es : Entries) (hregular : ∀ x ∈ added, x.2.Regular) :
    readEntries SlotDef.ofValue (setBodies es added) =
      setAll (readEntries SlotDef.ofValue es) (added.filter fun x => !hides es x.1) := by
  induction added generalizing es with
  | nil => rfl
  | cons x rest ih =>
    have hstep := readEntries_insert SlotDef.ofValue es x.1 x.2.toValue
    rw [SlotDef.ofValue_toValue (hregular x List.mem_cons_self).apart] at hstep
    have hrest := ih (es.insert (.string x.1) x.2.toValue) fun y hy =>
      hregular y (List.mem_cons_of_mem _ hy)
    simp only [hides_insert, hstep] at hrest
    rw [List.filter_cons]
    refine hrest.trans ?_
    cases hides es x.1 <;> rfl

theorem addSlots_slots_eq (d : Document) (added : Table SlotDef) :
    (d.addSlots added).slots = setAll d.slots added := by
  induction added generalizing d with
  | nil => rfl
  | cons x rest ih => exact ih (d.addSlot x.1 x.2)

/-- Declaring slots changes nothing in a mapping but the bodies in its section of the slots. -/
theorem addSlots_root (hd : d.root.Distinct) (hes : sectionEntries d.root "slots" = .ok es)
    (added : Table SlotDef) :
    (d.addSlots added).root.without "slots" = d.root.without "slots" ∧
      sectionEntries (d.addSlots added).root "slots" = .ok (setBodies es added) := by
  induction added generalizing d es with
  | nil => exact ⟨rfl, hes⟩
  | cons x rest ih =>
    obtain ⟨hdistinct, hothers, hsection⟩ := setSlot_spec hd hes x.1 x.2.toValue
    obtain ⟨hothers', hsection'⟩ := ih (d := d.addSlot x.1 x.2) hdistinct hsection
    exact ⟨hothers'.trans hothers, hsection'⟩

/-! ## Documents -/

/-- **Slots that are declared, and the document that is read again.** The slots section of a
document that was read hides some names. With slots declared in it, the mapping is read as the
document with only those declared that are not hidden. So the tables are those of the mapping just
when each hidden slot has in the end the definition that it had, in particular when none of the
declared names is hidden. -/
theorem ofRoot_addSlots {text : String} (h : parse text = .ok d) (added : Table SlotDef)
    (hregular : ∀ x ∈ added, x.2.Regular) :
    ∃ es, sectionEntries d.root "slots" = .ok es ∧
      let after := d.addSlots added
      let seen := added.filter fun x => !hides es x.1
      ofRoot after.root = .ok { after with slots := (d.addSlots seen).slots } ∧
      (ofRoot after.root = .ok after ↔
        ∀ name, hides es name = true → after.slots.get? name = d.slots.get? name) ∧
      ((∀ x ∈ added, hides es x.1 = false) → ∀ written : String,
        Yaml.read written.toList = .ok (.mapping after.root) → parse written = .ok after) := by
  obtain ⟨hdistinct, hread⟩ := faithful_of_parse h
  obtain ⟨-, hclasses, hslots, henums⟩ := ofRoot_eq_ok_iff.1 hread
  obtain ⟨es, hes, htable⟩ := readSection_eq_ok hslots
  refine ⟨es, hes, ?_⟩
  intro after seen
  obtain ⟨hothers, hsection⟩ := addSlots_root hdistinct hes added
  have hagain : ofRoot after.root = .ok { after with slots := (d.addSlots seen).slots } := by
    refine ofRoot_eq_ok_iff.2 ⟨rfl, ?_, ?_, ?_⟩
    · rw [readSection_of_without hothers (by decide), hclasses]
      exact congrArg Except.ok (addSlots_classes d added).symm
    · rw [readSection, hsection, Except.map, readEntries_setBodies es hregular, ← htable]
      exact congrArg Except.ok (addSlots_slots_eq d seen).symm
    · rw [readSection_of_without hothers (by decide), henums]
      exact congrArg Except.ok (addSlots_enums d added).symm
  have hsame : ofRoot after.root = .ok after ↔ (d.addSlots seen).slots = after.slots := by
    rw [hagain, Except.ok.injEq]
    exact ⟨congrArg Document.slots, fun heq => by rw [heq]⟩
  refine ⟨hagain, hsame.trans ?_, fun hfree written hwritten => ?_⟩
  · have hnodup : d.slots.names.Nodup := htable ▸ nodup_names_readEntries es
    have hkept := Table.setAll_filter_eq_iff (fun name => !hides es name) added hnodup
      fun name hname => htable ▸ mem_names_of_hides (by simpa using hname)
    rw [← addSlots_slots_eq, ← addSlots_slots_eq] at hkept
    simpa only [Bool.not_eq_false'] using hkept
  · have hall : seen = added := List.filter_eq_self.2 fun x hx => by rw [hfree x hx]; rfl
    exact parse_eq_ok_iff.2 ⟨after.root, hwritten, hsame.2 (by rw [hall])⟩

theorem regular_ofRange (range : String) : (SlotDef.ofRange range).Regular :=
  ⟨List.nodup_nil, nofun⟩

/-- A string and a number of one text. -/
def twoSevens : String := "slots:\n  \"7\":\n    range: string\n  7:\n    range: float\n"

def twoSevensEntries : Entries :=
  [(.string "7", (SlotDef.ofRange "string").toValue),
    (.number (.whole 7), (SlotDef.ofRange "float").toValue)]

theorem ofRoot_addSlots_two_sevens :
    ∃ d, parse twoSevens = .ok d ∧
      let after := d.addSlots [("7", .ofRange "StateEnum"), ("x", .ofRange "date")]
      ofRoot after.root = .ok { after with slots := (d.addSlots [("x", .ofRange "date")]).slots } := by
  have hsection : (parse twoSevens >>= fun d => sectionEntries d.root "slots") =
      .ok twoSevensEntries := by decide +kernel
  obtain ⟨d, hparse, hsection⟩ := bind_eq_ok.1 hsection
  obtain ⟨es, hes, hagain, -, -⟩ :=
    ofRoot_addSlots hparse [("7", .ofRange "StateEnum"), ("x", .ofRange "date")]
      (by simp [regular_ofRange])
  obtain rfl : es = twoSevensEntries := Except.ok.inj (hes.symm.trans hsection)
  exact ⟨d, hparse, hagain⟩

/-- The number comes after the string, so the slot that is declared is not read again. -/
theorem addSlot_hidden_by_number :
    ∃ d, parse twoSevens = .ok d ∧ (SlotDef.ofRange "StateEnum").Regular ∧
      ofRoot (d.addSlot "7" (.ofRange "StateEnum")).root ≠
        .ok (d.addSlot "7" (.ofRange "StateEnum")) := by
  have hdiffers : ((parse twoSevens).map fun d =>
      decide (ofRoot (d.addSlot "7" (.ofRange "StateEnum")).root =
        .ok (d.addSlot "7" (.ofRange "StateEnum")))) = .ok false := by decide +kernel
  obtain ⟨d, hparse, hdiffers⟩ := map_eq_ok.1 hdiffers
  exact ⟨d, hparse, regular_ofRange _, of_decide_eq_false hdiffers⟩

end Document

end SchemaTidy.Schema
