import SchemaTidy.Proofs.Schema.Tables
import SchemaTidy.Proofs.Yaml.Written

/-! # Which entry of a section counts

Entries of a section are told apart twice. As entries of a mapping they have one key or different
ones, and a key that is repeated stays where it came up first. As definitions they have names, and
the string `7` and the number 7 have the same. So the last entry with a name counts, unless its key
came up before another key with this name.

Main statement: `tables_of_parse`. -/

namespace SchemaTidy.Schema
open Yaml (Value Entries)

namespace Document

variable {α : Type} {read : Value → α} {es : Entries} {name : String} {d : Document}

/-! ## Entries with a name -/

/-- The body of the last entry with a name. -/
def lastNamed? (es : Entries) (name : String) : Option Value :=
  ((es.filter fun e => readsAs name e.1).getLast?).map (·.2)

/-- The body of the last entry with a key. -/
def lastKeyed? (es : Entries) (key : Value) : Option Value :=
  ((es.filter fun e => key.same e.1).getLast?).map (·.2)

/-- The body that counts for a name. Of the keys with this name the one that comes up last is
taken, and of its entries the last. -/
def counted? (es : Entries) (name : String) : Option Value :=
  ((es.keys.filter (readsAs name)).getLast?).bind (lastKeyed? es)

/-- No other key with a name stands between two entries of a key with this name, and the name is
the only one of its keys. -/
structure Together (es : Entries) (name : String) : Prop where
  between : ∀ k l m, [k, l, m].Sublist ((es.map (·.1)).filter (readsAs name)) →
    k.same m = true → k.same l = true
  names : ∀ e ∈ es, ∀ e' ∈ es, e.1.same e'.1 = true → readsAs name e.1 = readsAs name e'.1

theorem exists_code_of_readsAs {key : Value} (h : readsAs name key = true) :
    ∃ code, key.code? = some code := by
  cases key with
  | bool | number | string => exact ⟨_, rfl⟩
  | null | sequence | mapping | tagged => simp [readsAs, scalarText?] at h

/-! ## The table of a section -/

theorem lastNamed?_concat (es : Entries) (e : Value × Value) (name : String) :
    lastNamed? (es ++ [e]) name = if readsAs name e.1 then some e.2 else lastNamed? es name := by
  rw [lastNamed?, List.filter_append, lastNamed?]
  cases h : readsAs name e.1 <;> simp [h]

theorem get?_readEntries (read : Value → α) (es : Entries) (name : String) :
    (readEntries read es).get? name = (lastNamed? es name).map read := by
  induction es using List.reverseRecOn with
  | nil => rfl
  | append_singleton es e ih =>
    rw [readEntries_concat, readEntry, lastNamed?_concat, readsAs]
    cases htext : scalarText? e.1 with
    | none => exact ih
    | some other =>
      by_cases hother : other = name
      · rw [hother, Table.get?_insert_self, if_pos (beq_self_eq_true _)]
        rfl
      · rw [Table.get?_insert_of_ne _ _ (Ne.symm hother), ih, if_neg (by simpa using hother)]

/-- **The entry that counts**, among some that are set one after the other. -/
theorem lastNamed?_merge (es : Entries) (name : String) :
    lastNamed? es.merge name = counted? es name := by
  have hkeys : (es.merge.filter fun e => readsAs name e.1).map (·.1) =
      es.keys.filter (readsAs name) := by
    rw [← Yaml.Entries.map_fst_merge, List.filter_map]
    rfl
  rw [lastNamed?, counted?, ← hkeys, List.getLast?_map]
  cases hlast : (es.merge.filter fun e => readsAs name e.1).getLast? with
  | none => rfl
  | some e =>
    obtain ⟨he, hname⟩ := List.mem_filter.1 (List.mem_of_getLast? hlast)
    obtain ⟨code, hcode⟩ := exists_code_of_readsAs hname
    have hsame : (fun e' : Value × Value => e.1.same e'.1) = fun e' => e'.1.code? == some code := by
      funext e'
      rw [Bool.eq_iff_iff, Value.same_iff_of_left hcode, beq_iff_eq]
    show some e.2 = lastKeyed? es e.1
    rw [lastKeyed?, hsame, ← Yaml.Entries.codeValue?_merge,
      (Yaml.Entries.distinct_merge es).codeValue?_of_mem he hcode]

theorem get?_readEntries_merge (read : Value → α) (es : Entries) (name : String) :
    (readEntries read es.merge).get? name = (counted? es name).map read := by
  rw [get?_readEntries, lastNamed?_merge]

/-! ## Entries that stand together -/

/-- The entries of a key with a name are among those with the name. -/
theorem Together.filter_same (h : Together es name) {e : Value × Value} (he : e ∈ es)
    (hname : readsAs name e.1 = true) :
    (es.filter fun e' => e.1.same e'.1) =
      (es.filter fun e' => readsAs name e'.1).filter fun e' => e.1.same e'.1 := by
  rw [List.filter_filter]
  refine List.filter_congr fun e' he' => ?_
  cases hsame : e.1.same e'.1
  · rfl
  · rw [← h.names e he e' he' hsame, hname, Bool.and_self]

/-- **Where the keys of a name stand together**, its last entry is the one that counts. -/
theorem Together.counted?_eq (h : Together es name) : counted? es name = lastNamed? es name := by
  rw [counted?, ← Yaml.Entries.keys_filter h.names, lastNamed?]
  have hbetween := h.between
  rw [List.filter_map] at hbetween
  rcases List.eq_nil_or_concat (es.filter fun e => readsAs name e.1) with hnone | ⟨front, e, hnamed⟩
  · rw [hnone]
    rfl
  · rw [List.concat_eq_append] at hnamed
    have he : e ∈ es.filter fun e => readsAs name e.1 := hnamed ▸ List.mem_concat_self
    obtain ⟨code, hcode⟩ := exists_code_of_readsAs (List.mem_filter.1 he).2
    obtain ⟨before, k, hkeys, hsame⟩ := Yaml.Entries.keys_concat_of_between
      ((Value.same_iff_of_left hcode).2 hcode) (hnamed ▸ hbetween)
    obtain ⟨e', he', rfl⟩ : ∃ e' ∈ es.filter fun e => readsAs name e.1, e'.1 = k := by
      refine List.mem_map.1 ((Yaml.Entries.keys_sublist _).subset ?_)
      rw [hnamed, hkeys]
      exact List.mem_concat_self
    obtain ⟨hmem, hname⟩ := List.mem_filter.1 he'
    have hlast : [e].filter (fun e => e'.1.same e.1) = [e] := by simp [hsame]
    rw [hnamed, hkeys, List.getLast?_concat, List.getLast?_concat, Option.bind_some, lastKeyed?,
      h.filter_same hmem hname, hnamed, List.filter_append, hlast, List.getLast?_concat]

/-! ## Documents -/

/-- The entries of a section as they are written, with keys and bodies that are read. Of a section
that is repeated the last counts. -/
def written (root : Entries) (name : String) : Entries :=
  match root.lastValue? name with
  | some (.mapping es) => Value.mergedEach es
  | _ => []

/-- What a table says of the entries of its section. -/
structure Lists (read : Value → α) (es : Entries) (table : Table α) : Prop where
  counted : ∀ name, table.get? name = (counted? es name).map read
  last : ∀ name, Together es name → table.get? name = (lastNamed? es name).map read

theorem lists_readEntries_merge (read : Value → α) (es : Entries) :
    Lists read es (readEntries read es.merge) where
  counted name := get?_readEntries_merge read es name
  last name h := by rw [get?_readEntries_merge, h.counted?_eq]

/-- A section that is read has the entries that are written, set one after the other. -/
theorem sectionEntries_merge {root : Entries}
    (h : sectionEntries (Value.mergedEach root).merge name = .ok es) :
    es = (written root name).merge := by
  rw [sectionEntries, Yaml.Entries.get?_merge, Value.lastValue?_mergedEach] at h
  unfold written
  cases hvalue : root.lastValue? name with
  | none =>
    rw [hvalue] at h
    exact (Except.ok.inj h).symm
  | some v =>
    rw [hvalue] at h
    cases v with
    | null | mapping => exact (Except.ok.inj h).symm
    | bool | number | string | sequence | tagged => cases h

theorem lists_of_readSection {root : Entries} {table : Table α}
    (h : readSection (Value.mergedEach root).merge name read = .ok table) :
    Lists read (written root name) table := by
  obtain ⟨es, hes, rfl⟩ := readSection_eq_ok h
  rw [sectionEntries_merge hes]
  exact lists_readEntries_merge read (written root name)

/-- **The definitions of a document** are those that count among the entries of the text, which
writes one mapping. Where the keys of a name stand together, the last entry with the name counts. -/
theorem tables_of_parse {text : String} (h : parse text = .ok d) :
    ∃ root, (∀ w, Yaml.Writes text.toList w ↔ w = .mapping root) ∧
      Lists ClassDef.ofValue (written root "classes") d.classes ∧
      Lists SlotDef.ofValue (written root "slots") d.slots ∧
      Lists id (written root "enums") d.enums := by
  obtain ⟨es, hread, hroot⟩ := parse_eq_ok_iff.1 h
  obtain ⟨w, hw, hvalue⟩ := Yaml.writes_of_read hread
  obtain ⟨root, rfl, rfl⟩ := Value.merged_eq_mapping hvalue.symm
  obtain ⟨-, hclasses, hslots, henums⟩ := ofRoot_eq_ok_iff.1 hroot
  refine ⟨root, fun w' => ⟨fun h' => h'.unique hw, fun heq => heq ▸ hw⟩, ?_, ?_, ?_⟩
  · exact lists_of_readSection hclasses
  · exact lists_of_readSection hslots
  · exact lists_of_readSection henums

/-- A string comes up again behind a number of the same text. -/
def threeSevens : String :=
  "slots:\n  \"7\":\n    range: string\n  7:\n    range: StateEnum\n  \"7\":\n    range: float\n"

def threeSevensRoot : Entries :=
  [(.string "slots", .mapping
    [(.string "7", (SlotDef.ofRange "string").toValue),
      (.number (.whole 7), (SlotDef.ofRange "StateEnum").toValue),
      (.string "7", (SlotDef.ofRange "float").toValue)])]

/-- The items of a slot that has a range only. -/
def rangeKinds (range : String) : List Yaml.ItemKind :=
  [.mappingStart none, .scalar none .plain "range".toList, .scalar none .plain range.toList,
    .mappingEnd]

theorem spells_rangeKinds {doc : Yaml.Document} {range : String} {rest : List Yaml.ItemKind}
    (h : Yaml.scalarValue none .plain range.toList = .ok (.string range)) :
    doc.Spells .value (rangeKinds range ++ rest) (SlotDef.ofRange range).toValue rest :=
  .mapping (.entry (.scalar rfl) (.scalar h) .noEntry)

theorem writes_threeSevens : Yaml.Writes threeSevens.toList (.mapping threeSevensRoot) := by
  have hkinds : (Yaml.Document.first threeSevens.toList).1.items.map (·.kind) =
      .mappingStart none :: .scalar none .plain "slots".toList :: .mappingStart none ::
        (.scalar none .doubleQuoted "7".toList :: (rangeKinds "string" ++
        (.scalar none .plain "7".toList :: (rangeKinds "StateEnum" ++
        (.scalar none .doubleQuoted "7".toList :: (rangeKinds "float" ++
        [.mappingEnd, .mappingEnd])))))) := by decide +kernel
  exact .value hkinds (.mapping (.entry (.scalar rfl) (.mapping
    (.entry (.scalar rfl) (spells_rangeKinds rfl)
    (.entry (.scalar rfl) (spells_rangeKinds rfl)
    (.entry (.scalar rfl) (spells_rangeKinds rfl) .noEntry)))) .noEntry))

theorem tables_of_parse_three_sevens :
    ∃ d, parse threeSevens = .ok d ∧ d.slots.get? "7" = some (.ofRange "StateEnum") := by
  have hread : (parse threeSevens).map (·.root.length) = .ok 1 := by decide +kernel
  obtain ⟨d, hparse, -⟩ := map_eq_ok.1 hread
  obtain ⟨root, hroot, -, hslots, -⟩ := tables_of_parse hparse
  have hwritten := (hroot (.mapping threeSevensRoot)).1 writes_threeSevens
  obtain rfl := Value.mapping.inj hwritten
  refine ⟨d, hparse, (hslots.counted "7").trans ?_⟩
  decide +kernel

/-- The last entry that reads as the name is not the one that counts. -/
theorem last_entry_does_not_count :
    ∃ d root, parse threeSevens = .ok d ∧ Yaml.Writes threeSevens.toList (.mapping root) ∧
      d.slots.get? "7" = some (.ofRange "StateEnum") ∧
      (lastNamed? (written root "slots") "7").map SlotDef.ofValue = some (.ofRange "float") := by
  have hslots : (parse threeSevens).map (fun d => d.slots.get? "7") =
      .ok (some (.ofRange "StateEnum")) := by decide +kernel
  obtain ⟨d, hparse, hslots⟩ := map_eq_ok.1 hslots
  exact ⟨d, threeSevensRoot, hparse, writes_threeSevens, hslots, by decide +kernel⟩

end Document

end SchemaTidy.Schema
