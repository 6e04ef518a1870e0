import SchemaTidy.Proofs.Yaml.Mapping
import SchemaTidy.Proofs.Yaml.Repeats

/-! # Values as they are written

A text spells one value with all the entries of its mappings, repeated keys and all
(`Writes.unique`). What is read is this value with the entries of each mapping set one after the
other (`writes_of_read`). -/

namespace SchemaTidy.Yaml

/-! ## Setting the entries of all mappings -/

namespace Value

/-- A value under the local tag that stands before it. -/
def under (tag : Option (List Char)) (v : Value) : Value :=
  match localTag? tag with
  | none => v
  | some name => .tagged (String.ofList name) v

mutual

/-- A value with the entries of all its mappings set one after the other. -/
def merged : Value → Value
  | .sequence items => .sequence (mergedItems items)
  | .mapping es => .mapping (mergedEach es).merge
  | .tagged tag v => .tagged tag v.merged
  | v => v

def mergedItems : List Value → List Value
  | [] => []
  | v :: rest => v.merged :: mergedItems rest

/-- Some entries, with keys and values that are merged. -/
def mergedEach : Entries → Entries
  | [] => []
  | (key, value) :: rest => (key.merged, value.merged) :: mergedEach rest

end

variable {v : Value} {es : Entries} {name : String}

theorem merged_sequence (items : List Value) :
    (sequence items).merged = .sequence (mergedItems items) := rfl

theorem merged_mapping (es : Entries) : (mapping es).merged = .mapping (mergedEach es).merge := rfl

theorem merged_under (tag : Option (List Char)) (v : Value) :
    (v.under tag).merged = v.merged.under tag := by
  unfold under
  split
  · rfl
  · rw [merged]

theorem mergedItems_eq_map (items : List Value) : mergedItems items = items.map merged := by
  induction items with
  | nil => rfl
  | cons v rest ih => rw [mergedItems, ih, List.map_cons]

theorem mergedEach_eq_map (es : Entries) :
    mergedEach es = es.map fun e => (e.1.merged, e.2.merged) := by
  induction es with
  | nil => rfl
  | cons e rest ih => rw [mergedEach, ih, List.map_cons]

/-- Where no key is repeated, there is nothing to merge. -/
theorem Unrepeated.merged_eq (h : v.Unrepeated) : v.merged = v := by
  induction h with
  | null | bool | number | string => rfl
  | sequence hitems ih =>
    rw [merged, mergedItems_eq_map, List.map_congr_left ih, List.map_id']
  | @mapping es hdistinct _ _ ihkeys ihvalues =>
    have heach : ∀ e ∈ es, (e.1.merged, e.2.merged) = e := fun e he =>
      Prod.ext (ihkeys e he) (ihvalues e he)
    rw [merged, mergedEach_eq_map, List.map_congr_left heach, List.map_id', hdistinct.merge_eq]
  | tagged tag _ ih => rw [merged, ih]

theorem merged_eq_mapping {es : Entries} (h : v.merged = .mapping es) :
    ∃ written, v = .mapping written ∧ es = (mergedEach written).merge := by
  cases v with
  | mapping written => exact ⟨written, rfl, (mapping.inj h).symm⟩
  | null | bool | number | string | sequence | tagged => simp [merged] at h

theorem isString_merged (v : Value) (name : String) :
    v.merged.isString name = v.isString name := by
  cases v <;> rfl

theorem lastValue?_mergedEach (es : Entries) (name : String) :
    (mergedEach es).lastValue? name = (es.lastValue? name).map merged := by
  have hkey : ((fun e : Value × Value => e.1.isString name) ∘
      fun e : Value × Value => (e.1.merged, e.2.merged)) = fun e => e.1.isString name :=
    funext fun e => isString_merged e.1 name
  rw [Entries.lastValue?, mergedEach_eq_map, List.filter_map, hkey, List.getLast?_map,
    Option.map_map, Entries.lastValue?, Option.map_map]
  rfl

end Value

/-! ## What items spell -/

/-- A value, what is left of a sequence, or what is left of a mapping. -/
inductive Portion where
  | value
  | items
  | entries

abbrev Portion.Content : Portion → Type
  | .value => Value
  | .items => List Value
  | .entries => Entries

/-- What items of a document spell, and the items behind it. An alias spells what stands at its
anchor. -/
inductive Document.Spells (d : Document) :
    (portion : Portion) → List ItemKind → portion.Content → List ItemKind → Prop where
  | anchored {anchor : Nat} {v : Value} {rest inner : List ItemKind}
      (h : Spells d .value ((d.target anchor).map (·.kind)) v inner) :
      Spells d .value (.alias anchor :: rest) v rest
  | scalar {tag : Option (List Char)} {style : ScalarStyle} {text : List Char} {v : Value}
      {rest : List ItemKind} (h : scalarValue tag style text = .ok v) :
      Spells d .value (.scalar tag style text :: rest) (v.under tag) rest
  | sequence {tag : Option (List Char)} {items : List Value} {inner rest : List ItemKind}
      (h : Spells d .items inner items rest) :
      Spells d .value (.sequenceStart tag :: inner) ((Value.sequence items).under tag) rest
  | mapping {tag : Option (List Char)} {es : Entries} {inner rest : List ItemKind}
      (h : Spells d .entries inner es rest) :
      Spells d .value (.mappingStart tag :: inner) ((Value.mapping es).under tag) rest
  | noItem {rest : List ItemKind} : Spells d .items (.sequenceEnd :: rest) [] rest
  | item {v : Value} {items : List Value} {here more rest : List ItemKind}
      (hfirst : Spells d .value here v more) (hmore : Spells d .items more items rest) :
      Spells d .items here (v :: items) rest
  | noEntry {rest : List ItemKind} : Spells d .entries (.mappingEnd :: rest) [] rest
  | entry {key value : Value} {es : Entries} {here between more rest : List ItemKind}
      (hkey : Spells d .value here key between) (hvalue : Spells d .value between value more)
      (hmore : Spells d .entries more es rest) :
      Spells d .entries here ((key, value) :: es) rest

namespace Document.Spells

variable {d : Document} {portion : Portion} {here rest rest' : List ItemKind} {x y : portion.Content}

/-- Items spell one thing only. -/
theorem unique (h : d.Spells portion here x rest) (h' : d.Spells portion here y rest') :
    x = y ∧ rest = rest' := by
  induction h generalizing rest' with
  | anchored _ ih =>
    cases h' with
    | anchored h => exact ⟨(ih h).1, rfl⟩
  | scalar h =>
    cases h' with
    | scalar h' =>
      obtain rfl := Except.ok.inj (h.symm.trans h')
      exact ⟨rfl, rfl⟩
  | sequence _ ih =>
    cases h' with
    | sequence h =>
      obtain ⟨rfl, rfl⟩ := ih h
      exact ⟨rfl, rfl⟩
  | mapping _ ih =>
    cases h' with
    | mapping h =>
      obtain ⟨rfl, rfl⟩ := ih h
      exact ⟨rfl, rfl⟩
  | noItem =>
    cases h' with
    | noItem => exact ⟨rfl, rfl⟩
    | item hfirst => cases hfirst
  | item hfirst _ ih ihmore =>
    cases h' with
    | noItem => cases hfirst
    | item hfirst' hmore' =>
      obtain ⟨rfl, rfl⟩ := ih hfirst'
      obtain ⟨rfl, rfl⟩ := ihmore hmore'
      exact ⟨rfl, rfl⟩
  | noEntry =>
    cases h' with
    | noEntry => exact ⟨rfl, rfl⟩
    | entry hkey => cases hkey
  | entry hkey _ _ ihkey ihvalue ihmore =>
    cases h' with
    | noEntry => cases hkey
    | entry hkey' hvalue' hmore' =>
      obtain ⟨rfl, rfl⟩ := ihkey hkey'
      obtain ⟨rfl, rfl⟩ := ihvalue hvalue'
      obtain ⟨rfl, rfl⟩ := ihmore hmore'
      exact ⟨rfl, rfl⟩

end Document.Spells

/-! ## What is read -/

variable {d : Document} {path : Path} {jumps : Nat} {items rest : List Item}

/-- All values that a composer makes are merged ones of what the items spell. -/
def Composer.Follows (child : Composer) (d : Document) : Prop :=
  ∀ path jumps items c, child path jumps items = .ok c →
    ∃ w : Value, d.Spells .value (items.map (·.kind)) w (c.rest.map (·.kind)) ∧ c.value = w.merged

theorem spells_of_composeItems {child : Composer} (hchild : child.Follows d) {fuel index : Nat}
    {c : Composed (List Value)} (h : composeItems d child path fuel index jumps items = .ok c) :
    ∃ ws : List Value, d.Spells .items (items.map (·.kind)) ws (c.rest.map (·.kind)) ∧
      c.value = Value.mergedItems ws := by
  induction fuel generalizing index jumps items c with
  | zero => cases h
  | succ fuel ih =>
    cases items with
    | nil => cases h
    | cons item rest =>
      rw [composeItems] at h
      split at h
      next hend =>
        cases h
        refine ⟨[], ?_, rfl⟩
        rw [List.map_cons, hend]
        exact .noItem
      · obtain ⟨first, hfirst, h⟩ := bind_eq_ok.1 h
        obtain ⟨more, hmore, h⟩ := bind_eq_ok.1 h
        cases h
        obtain ⟨w, hw, hvalue⟩ := hchild _ _ _ _ hfirst
        obtain ⟨ws, hws, hvalues⟩ := ih hmore
        exact ⟨w :: ws, .item hw hws, congrArg₂ List.cons hvalue hvalues⟩

theorem spells_of_composeEntries {child : Composer} (hchild : child.Follows d) {fuel : Nat}
    {es : Entries} {c : Composed Entries}
    (h : composeEntries d child path fuel es jumps items = .ok c) :
    ∃ ws : Entries, d.Spells .entries (items.map (·.kind)) ws (c.rest.map (·.kind)) ∧
      c.value = (Value.mergedEach ws).foldl
        (fun (entries : Entries) (key, value) => entries.insert key value) es := by
  induction fuel generalizing es jumps items with
  | zero => cases h
  | succ fuel ih =>
    cases items with
    | nil => cases h
    | cons item rest =>
      rw [composeEntries] at h
      split at h
      next hend =>
        cases h
        refine ⟨[], ?_, rfl⟩
        rw [List.map_cons, hend]
        exact .noEntry
      · obtain ⟨key, hkey, h⟩ := bind_eq_ok.1 h
        obtain ⟨value, hvalue, h⟩ := bind_eq_ok.1 h
        obtain ⟨k, hk, hkeyEq⟩ := hchild _ _ _ _ hkey
        obtain ⟨w, hw, hvalueEq⟩ := hchild _ _ _ _ hvalue
        obtain ⟨ws, hws, hes⟩ := ih h
        refine ⟨(k, w) :: ws, .entry hk hw hws, ?_⟩
        rw [hes, hkeyEq, hvalueEq]
        rfl

theorem withTag_eq_ok {tag : Option (List Char)} {read : Except ReadError (Composed Value)}
    {c : Composed Value} (h : withTag tag read = .ok c) :
    ∃ c', read = .ok c' ∧ c.value = c'.value.under tag ∧ c.rest = c'.rest := by
  unfold withTag at h
  cases htag : localTag? tag with
  | none =>
    rw [htag] at h
    exact ⟨c, h, by rw [Value.under, htag], rfl⟩
  | some name =>
    rw [htag] at h
    obtain ⟨c', hc', h⟩ := bind_eq_ok.1 h
    cases h
    exact ⟨c', hc', by rw [Value.under, htag], rfl⟩

theorem spells_of_composeNode {child : Option Composer} (hchild : ∀ f ∈ child, f.Follows d)
    {item : Item} {c : Composed Value} (h : composeNode d child path jumps item rest = .ok c) :
    ∃ w : Value, d.Spells .value (item.kind :: rest.map (·.kind)) w (c.rest.map (·.kind)) ∧
      c.value = w.merged := by
  unfold composeNode at h
  split at h
  next tag style text hkind =>
    obtain ⟨c', hc', hvalue, hrest⟩ := withTag_eq_ok h
    split at hc'
    next v hv =>
      cases hc'
      rw [hkind, hrest]
      refine ⟨v.under tag, .scalar hv, ?_⟩
      rw [hvalue, Value.merged_under, (unrepeated_of_scalarValue hv).merged_eq]
    · cases hc'
  next tag child hkind =>
    obtain ⟨c', hc', hvalue, hrest⟩ := withTag_eq_ok h
    obtain ⟨items, hitems, hc'⟩ := bind_eq_ok.1 hc'
    cases hc'
    obtain ⟨ws, hws, hvalues⟩ := spells_of_composeItems (hchild child rfl) hitems
    rw [hkind, hrest]
    refine ⟨(Value.sequence ws).under tag, .sequence hws, ?_⟩
    rw [Value.merged_under, Value.merged_sequence, ← hvalues]
    exact hvalue
  next tag child hkind =>
    obtain ⟨c', hc', hvalue, hrest⟩ := withTag_eq_ok h
    obtain ⟨entries, hentries, hc'⟩ := bind_eq_ok.1 hc'
    cases hc'
    obtain ⟨ws, hws, hvalues⟩ := spells_of_composeEntries (hchild child rfl) hentries
    rw [hkind, hrest]
    refine ⟨(Value.mapping ws).under tag, .mapping hws, ?_⟩
    rw [Value.merged_under, Value.merged_mapping, Entries.merge, ← hvalues]
    exact hvalue
  · cases h
  · cases h
  · cases h

theorem follows_composeHere {child : Option Composer} (hchild : ∀ f ∈ child, f.Follows d) :
    (composeHere d child).Follows d := by
  intro path jumps items c h
  unfold composeHere at h
  split at h
  · cases h
  next anchor _ _ =>
    split at h
    · cases h
    · split at h
      · cases h
      next item inner htarget =>
        obtain ⟨c', hnode, h⟩ := bind_eq_ok.1 h
        obtain ⟨w, hw, hvalue⟩ := spells_of_composeNode hchild hnode
        cases h
        have hspelled : d.Spells .value ((d.target anchor).map (·.kind)) w
            (c'.rest.map (·.kind)) := by
          rw [htarget]
          exact hw
        exact ⟨w, .anchored hspelled, hvalue⟩
  · exact spells_of_composeNode hchild h

theorem follows_compose (d : Document) (depth : Nat) : (compose d depth).Follows d := by
  induction depth with
  | zero => exact follows_composeHere nofun
  | succ depth ih =>
    refine follows_composeHere fun f hf => ?_
    cases hf
    exact ih

/-- The value that a text is as it is written. A text with nothing in it is null. -/
inductive Writes (text : List Char) : Value → Prop where
  | nothing (h : (Document.first text).1.items = []) : Writes text .null
  | value {w : Value} {kinds rest : List ItemKind}
      (hkinds : (Document.first text).1.items.map (·.kind) = kinds)
      (h : (Document.first text).1.Spells .value kinds w rest) : Writes text w

theorem Writes.unique {text : List Char} {w w' : Value} (h : Writes text w)
    (h' : Writes text w') : w = w' := by
  cases h with
  | nothing hnone =>
    cases h' with
    | nothing => rfl
    | value hkinds h' =>
      rw [hnone] at hkinds
      cases hkinds
      cases h'
  | value hkinds h =>
    subst hkinds
    cases h' with
    | nothing hnone =>
      rw [hnone] at h
      cases h
    | value hkinds' h' =>
      subst hkinds'
      exact (h.unique h').1

/-- **What is read is what is written**, with the entries of each mapping set one after the
other. -/
theorem writes_of_read {text : List Char} {v : Value} (h : read text = .ok v) :
    ∃ w, Writes text w ∧ v = w.merged := by
  rcases read_eq_ok h with ⟨hnone, rfl⟩ | ⟨c, hc, rfl⟩
  · exact ⟨.null, .nothing hnone, rfl⟩
  · obtain ⟨w, hw, hvalue⟩ := follows_compose _ maxDepth _ _ _ c hc
    exact ⟨w, .value rfl hw, hvalue⟩

end SchemaTidy.Yaml
