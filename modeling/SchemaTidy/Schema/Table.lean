/-! Tables with names as keys. The order of the entries is the order in which the names came up;
a name that is set again keeps its place. -/

namespace SchemaTidy.Schema

abbrev Table (α : Type) := List (String × α)

namespace Table

variable {α : Type}

def get? (t : Table α) (name : String) : Option α := (t.find? (·.1 == name)).map (·.2)

def contains (t : Table α) (name : String) : Bool := t.any (·.1 == name)

def insert : Table α → String → α → Table α
  | [], name, value => [(name, value)]
  | (n, v) :: rest, name, value =>
    if n = name then (n, value) :: rest else (n, v) :: insert rest name value

def names (t : Table α) : List String := t.map (·.1)

@[simp] theorem get?_nil (name : String) : get? ([] : Table α) name = none := rfl

theorem get?_insert_self (t : Table α) (name : String) (value : α) :
    get? (insert t name value) name = some value := by
  induction t with
  | nil => simp [insert, get?]
  | cons entry rest ih =>
    by_cases h : entry.1 = name
    · simp [insert, get?, h]
    · simpa [insert, get?, h] using ih

theorem get?_insert_of_ne (t : Table α) {name other : String} (value : α) (h : other ≠ name) :
    get? (insert t name value) other = get? t other := by
  induction t with
  | nil => simp [insert, get?, Ne.symm h]
  | cons entry rest ih =>
    by_cases hn : entry.1 = name
    · simp [insert, get?, hn, Ne.symm h]
    · by_cases ho : entry.1 = other
      · subst ho
        simp [insert, get?, hn]
      · simpa [insert, get?, hn, ho] using ih

theorem contains_iff_mem_names (t : Table α) (name : String) :
    t.contains name = true ↔ name ∈ t.names := by
  simp [contains, names]

theorem get?_eq_none_iff {t : Table α} {name : String} : t.get? name = none ↔ name ∉ t.names := by
  rw [← contains_iff_mem_names, contains, get?, Option.map_eq_none_iff, List.find?_eq_none,
    List.any_eq_true, not_exists]
  simp only [not_and]

theorem get?_of_mem {t : Table α} (hnodup : t.names.Nodup) {entry : String × α} (h : entry ∈ t) :
    t.get? entry.1 = some entry.2 := by
  induction t with
  | nil => exact absurd h List.not_mem_nil
  | cons first rest ih =>
    obtain ⟨hnew, hrest⟩ := List.nodup_cons.1 hnodup
    rcases List.mem_cons.1 h with rfl | hmem
    · simp [get?]
    · have hne : first.1 ≠ entry.1 := fun heq =>
        hnew (List.mem_map.2 ⟨entry, hmem, heq.symm⟩)
      simpa [get?, hne] using ih hrest hmem

theorem names_append (t u : Table α) : names (t ++ u) = t.names ++ u.names :=
  List.map_append

theorem insert_of_new {t : Table α} {name : String} (h : name ∉ t.names) (value : α) :
    t.insert name value = t ++ [(name, value)] := by
  induction t with
  | nil => rfl
  | cons entry rest ih =>
    have hne : entry.1 ≠ name := fun heq => h (heq ▸ List.mem_cons_self)
    rw [insert, if_neg hne, ih fun hrest => h (List.mem_cons_of_mem _ hrest)]
    rfl

/-- Values under new names are added as they are. -/
theorem foldl_insert {front t : Table α} (h : (front ++ t).names.Nodup) :
    t.foldl (fun (table : Table α) (name, value) => table.insert name value) front = front ++ t := by
  induction t generalizing front with
  | nil => exact (List.append_nil _).symm
  | cons entry rest ih =>
    have hnew : entry.1 ∉ front.names := fun hmem => by
      rw [names_append] at h
      exact (List.nodup_append.1 h).2.2 entry.1 hmem entry.1 List.mem_cons_self rfl
    rw [List.foldl_cons]
    dsimp only
    rw [insert_of_new hnew, ih (by rwa [List.append_assoc]), List.append_assoc]
    rfl

theorem mem_names_insert (t : Table α) {name other : String} (value : α) :
    other ∈ (t.insert name value).names ↔ other = name ∨ other ∈ t.names := by
  induction t with
  | nil => simp [insert, names]
  | cons entry rest ih =>
    by_cases h : entry.1 = name
    · simp [insert, names, h]
    · simp only [names] at ih
      simp [insert, names, h, ih, or_left_comm]

theorem mem_of_mem_insert {t : Table α} {name : String} {value : α} {entry : String × α}
    (h : entry ∈ t.insert name value) : entry = (name, value) ∨ entry ∈ t := by
  induction t with
  | nil => exact .inl (List.mem_singleton.1 h)
  | cons first rest ih =>
    rw [insert] at h
    split at h
    next hname =>
      rcases List.mem_cons.1 h with rfl | hrest
      · exact .inl (Prod.ext hname rfl)
      · exact .inr (List.mem_cons_of_mem _ hrest)
    · rcases List.mem_cons.1 h with rfl | hrest
      · exact .inr List.mem_cons_self
      · exact (ih hrest).imp_right (List.mem_cons_of_mem _)

theorem names_insert_of_mem {t : Table α} {name : String} (h : name ∈ t.names) (value : α) :
    (t.insert name value).names = t.names := by
  induction t with
  | nil => exact absurd h List.not_mem_nil
  | cons entry rest ih =>
    by_cases hname : entry.1 = name
    · simp [insert, names, hname]
    · have hrest : name ∈ names rest := (List.mem_cons.1 h).resolve_left (Ne.symm hname)
      simpa [insert, names, hname] using ih hrest

theorem nodup_names_insert {t : Table α} (h : t.names.Nodup) (name : String) (value : α) :
    (t.insert name value).names.Nodup := by
  by_cases hmem : name ∈ t.names
  · rwa [names_insert_of_mem hmem]
  · rw [insert_of_new hmem, names_append]
    refine List.nodup_append.2 ⟨h, by simp [names], fun other hother new hnew heq => hmem ?_⟩
    have hname : new = name := List.mem_singleton.1 hnew
    exact hname ▸ heq ▸ hother

/-- Tables with the same names in the same order are equal when they have the same values. -/
theorem ext_get? {t u : Table α} (hnames : t.names = u.names) (hnodup : t.names.Nodup)
    (h : ∀ name, t.get? name = u.get? name) : t = u := by
  induction t generalizing u with
  | nil => exact (List.map_eq_nil_iff.1 hnames.symm).symm
  | cons entry rest ih =>
    obtain ⟨other, more, rfl, hname, hmore⟩ := List.map_eq_cons_iff.1 hnames.symm
    obtain ⟨hnew, hrest⟩ := List.nodup_cons.1 hnodup
    have hvalue : entry.2 = other.2 := by simpa [get?, hname] using h entry.1
    have hentry : entry = other := Prod.ext hname.symm hvalue
    rw [hentry, ih hmore.symm hrest fun name => ?_]
    by_cases heq : entry.1 = name
    · subst heq
      rw [get?_eq_none_iff.2 hnew, get?_eq_none_iff.2 fun hmem => hnew (hmore ▸ hmem)]
    · simpa [get?, heq, hname] using h name

/-- Of two values that are set under one name the second stays. -/
theorem insert_insert (t : Table α) (name : String) (first second : α) :
    (t.insert name first).insert name second = t.insert name second := by
  induction t with
  | nil => simp [insert]
  | cons entry rest ih =>
    by_cases h : entry.1 = name
    · simp [insert, h]
    · simp [insert, h, ih]

/-- The value of a name that is there can be set before or after another name. -/
theorem insert_comm {t : Table α} {name other : String} (h : name ∈ t.names) (hne : other ≠ name)
    (value more : α) :
    (t.insert name value).insert other more = (t.insert other more).insert name value := by
  induction t with
  | nil => exact absurd h List.not_mem_nil
  | cons entry rest ih =>
    by_cases hname : entry.1 = name
    · simp [insert, hname, Ne.symm hne]
    · have hrest : name ∈ names rest := (List.mem_cons.1 h).resolve_left (Ne.symm hname)
      by_cases hother : entry.1 = other
      · simp [insert, hother, hne]
      · simp [insert, hname, hother, ih hrest]

end Table

end SchemaTidy.Schema
