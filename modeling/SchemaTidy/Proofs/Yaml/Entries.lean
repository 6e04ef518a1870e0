import SchemaTidy.Yaml.Value

/-! # Laws of mappings

What setting a key does to the entries of a mapping: a new key goes to the end, and the entries
under other keys stay where they are. Setting keys one after the other never makes a mapping with
two entries of one key (`Distinct.insert`). -/

namespace SchemaTidy.Yaml

variable {es : Entries} {name other : String} {key value : Value}

/-! ## Keys that are strings -/

namespace Value

theorem isString_iff {v : Value} : v.isString name = true ↔ v = .string name := by
  cases v <;> simp [isString]

theorem same_string (v : Value) (text : String) : v.same (.string text) = v.isString text := by
  cases v <;> simp [same, isString]

theorem string_same (text : String) (v : Value) : (string text).same v = v.isString text := by
  cases v <;> simp [same, isString, Bool.beq_comm]

end Value

namespace Entries

/-! ## Entries with different keys -/

/-- No entry has the key of an earlier one. -/
def Distinct (es : Entries) : Prop := es.Pairwise fun a b => a.1.same b.1 = false

/-- Different names are different keys. -/
theorem distinct_of_names {α : Type} {xs : List α} {name : α → String} {value : α → Value}
    (h : (xs.map name).Nodup) : Entries.Distinct (xs.map fun x => (.string (name x), value x)) := by
  refine List.pairwise_map.2 ((List.pairwise_map.1 h).imp fun hne => ?_)
  rw [Value.same_string]
  simpa [Value.isString] using hne

theorem insert_of_new (h : ∀ e ∈ es, e.1.same key = false) :
    es.insert key value = es ++ [(key, value)] := by
  induction es with
  | nil => rfl
  | cons e rest ih =>
    have hne : e.1.same key = false := h e List.mem_cons_self
    rw [insert, if_neg (by simp [hne]), ih fun e' he' => h e' (List.mem_cons_of_mem _ he')]
    rfl

/-- What holds of the keys and of the values still does after a key and a value with it are set. -/
theorem forall_insert {P Q : Value → Prop} (h : ∀ e ∈ es, P e.1 ∧ Q e.2) (hkey : P key)
    (hvalue : Q value) : ∀ e ∈ es.insert key value, P e.1 ∧ Q e.2 := by
  induction es with
  | nil => exact List.forall_mem_singleton.2 ⟨hkey, hvalue⟩
  | cons first rest ih =>
    obtain ⟨hfirst, hrest⟩ := List.forall_mem_cons.1 h
    rw [insert]
    split
    · exact List.forall_mem_cons.2 ⟨⟨hfirst.1, hvalue⟩, hrest⟩
    · exact List.forall_mem_cons.2 ⟨hfirst, ih hrest⟩

theorem Distinct.insert (h : es.Distinct) (key value : Value) :
    (es.insert key value).Distinct := by
  induction es with
  | nil => exact List.pairwise_singleton _ _
  | cons first rest ih =>
    obtain ⟨hfirst, hrest⟩ := List.pairwise_cons.1 h
    rw [Entries.insert]
    split
    · exact List.pairwise_cons.2 ⟨hfirst, hrest⟩
    next hne =>
      refine List.pairwise_cons.2 ⟨fun e he => ?_, ih hrest⟩
      exact (forall_insert (P := fun k => first.1.same k = false) (Q := fun _ => True)
        (fun e he => ⟨hfirst e he, trivial⟩) (by simpa using hne) trivial e he).1

/-- Entries with different keys are added as they are. -/
theorem foldl_insert {front es : Entries} (h : (front ++ es).Distinct) :
    es.foldl (fun (entries : Entries) (key, value) => entries.insert key value) front =
      front ++ es := by
  induction es generalizing front with
  | nil => exact (List.append_nil _).symm
  | cons e es ih =>
    have hnew : ∀ e' ∈ front, e'.1.same e.1 = false := fun e' he' =>
      (List.pairwise_append.1 h).2.2 e' he' e List.mem_cons_self
    rw [List.foldl_cons]
    dsimp only
    rw [Entries.insert_of_new hnew, ih (by rwa [List.append_assoc]), List.append_assoc]
    rfl

/-! ## Values of string keys -/

@[simp] theorem get?_nil (name : String) : get? [] name = none := rfl

theorem get?_cons (e : Value × Value) (rest : Entries) (name : String) :
    get? (e :: rest) name = if e.1.isString name then some e.2 else get? rest name := by
  rw [get?, List.find?_cons]
  cases e.1.isString name <;> rfl

theorem get?_eq_none_iff : es.get? name = none ↔ ∀ e ∈ es, e.1.isString name = false := by
  simp [get?, List.find?_eq_none]

theorem get?_append (es more : Entries) (name : String) :
    get? (es ++ more) name = (es.get? name).or (more.get? name) := by
  simp [get?, List.find?_append, Option.map_or]

theorem get?_eq_none_of_append {before after : Entries}
    (h : get? (before ++ after) name = none) : before.get? name = none := by
  rw [get?_append, Option.or_eq_none_iff] at h
  exact h.1

/-- A key that is not there can be put anywhere. -/
theorem Distinct.add {before after : Entries} (h : Distinct (before ++ after))
    (hnew : get? (before ++ after) name = none) (value : Value) :
    Distinct (before ++ (.string name, value) :: after) := by
  rw [get?_eq_none_iff] at hnew
  obtain ⟨hbefore, hafter, hacross⟩ := List.pairwise_append.1 h
  refine List.pairwise_append.2 ⟨hbefore, List.pairwise_cons.2 ⟨fun e he => ?_, hafter⟩, ?_⟩
  · rw [Value.string_same]
    exact hnew e (List.mem_append_right _ he)
  · intro e he e' he'
    rcases List.mem_cons.1 he' with rfl | hrest
    · rw [Value.same_string]
      exact hnew e (List.mem_append_left _ he)
    · exact hacross e he e' hrest

theorem insert_of_get?_eq_none (h : es.get? name = none) (value : Value) :
    es.insert (.string name) value = es ++ [(.string name, value)] :=
  insert_of_new fun e he => by
    rw [Value.same_string]
    exact get?_eq_none_iff.1 h e he

theorem get?_insert_self (es : Entries) (name : String) (value : Value) :
    (es.insert (.string name) value).get? name = some value := by
  induction es with
  | nil => simp [insert, get?_cons, Value.isString]
  | cons e rest ih =>
    rw [insert, Value.same_string]
    cases h : e.1.isString name
    · rw [if_neg (by simp), get?_cons, h]
      exact ih
    · rw [if_pos rfl, get?_cons, h]
      rfl

/-- Setting a key to the value that it has changes nothing. -/
theorem insert_of_get? (h : es.get? name = some value) : es.insert (.string name) value = es := by
  induction es with
  | nil => cases h
  | cons e rest ih =>
    rw [get?_cons] at h
    rw [insert, Value.same_string]
    cases hname : e.1.isString name
    · rw [if_neg (by simp), ih (by simpa [hname] using h)]
    · rw [hname, if_pos rfl] at h
      rw [if_pos rfl, ← Option.some.inj h]

/-! ## The entries under other keys -/

/-- The entries but those of a string key. -/
def without (es : Entries) (name : String) : Entries := es.filter fun e => !e.1.isString name

theorem without_append (es more : Entries) (name : String) :
    without (es ++ more) name = es.without name ++ more.without name :=
  List.filter_append _ _

theorem without_insert (es : Entries) (name : String) (value : Value) :
    (es.insert (.string name) value).without name = es.without name := by
  induction es with
  | nil => simp [insert, without, Value.isString]
  | cons e rest ih =>
    rw [insert, Value.same_string]
    cases h : e.1.isString name
    · rw [if_neg (by simp)]
      simpa [without, h] using ih
    · simp [without, h]

theorem get?_without (es : Entries) (h : other ≠ name) :
    (es.without name).get? other = es.get? other := by
  induction es with
  | nil => rfl
  | cons e rest ih =>
    rw [get?_cons, without, List.filter_cons]
    cases hname : e.1.isString name
    · rw [if_pos (by simp), get?_cons, ← without, ih]
    · have hother : e.1.isString other = false := by
        rw [Value.isString_iff.1 hname]
        simpa [Value.isString] using Ne.symm h
      rw [if_neg (by simp), hother, ← without, ih]
      rfl

theorem get?_eq_of_without {es' : Entries} (h : es.without name = es'.without name)
    (hne : other ≠ name) : es.get? other = es'.get? other := by
  rw [← get?_without es hne, h, get?_without es' hne]

end Entries

end SchemaTidy.Yaml
