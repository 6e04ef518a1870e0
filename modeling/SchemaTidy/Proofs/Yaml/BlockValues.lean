import SchemaTidy.Proofs.Yaml.BlockEvents
import SchemaTidy.Yaml.Read

/-! # The value of a block

What a text in block style means, if it can be read: reading fails where a scalar spells a number
that is too large, or where blocks are nested too deep, and else it gives the value of the block. -/

namespace SchemaTidy.Yaml

/-! ## Values -/

/-- What a plain scalar means. -/
def plainValue (text : List Char) : Value :=
  match resolvePlain text with
  | .value v => v
  | .oversized n => .number (.whole n)

def Inline.value : Inline → Value
  | .plain w => plainValue w.text
  | .quoted _ body => .string (String.ofList body)
  | .list items => .sequence (items.words.map fun w => plainValue w.text)
  | .braces => .mapping []

def Leaf.value : Leaf → Value
  | .inline v => v.value
  | .text _ body => .string (String.ofList body)

/-- A value that is left out is null. -/
def valueOf (value : Option Leaf) : Value := (value.map (·.value)).getD .null

/-- What a block consists of: entries, or items. -/
abbrev Shape.Part : Shape → Type
  | .mapping => Value × Value
  | .sequence => Value

/-- The value with these parts. Of the entries with one key the last counts. -/
def Shape.whole : (s : Shape) → List s.Part → Value
  | .mapping, parts =>
    .mapping (parts.foldl (fun (entries : Entries) (key, value) => entries.insert key value) [])
  | .sequence, parts => .sequence parts

def Block.parts : {s : Shape} → Block s → List s.Part
  | _, .nil => []
  | _, .entry key value rest => (plainValue key.text, valueOf value) :: rest.parts
  | _, .nested key (s := s) inner rest => (plainValue key.text, s.whole inner.parts) :: rest.parts
  | _, .flush key inner rest => (plainValue key.text, Shape.sequence.whole inner.parts) :: rest.parts
  | _, .item value rest => valueOf value :: rest.parts
  | _, .nestedItem (s := s) inner rest => s.whole inner.parts :: rest.parts

def Block.value {s : Shape} (b : Block s) : Value := s.whole b.parts

/-! ## Items -/

/-- The item that an event stands for, anchors aside. -/
def EventKind.item? : EventKind → Option ItemKind
  | .scalar _ tag style text => some (.scalar tag style text)
  | .sequenceStart _ tag => some (.sequenceStart tag)
  | .sequenceEnd => some .sequenceEnd
  | .mappingStart _ tag => some (.mappingStart tag)
  | .mappingEnd => some .mappingEnd
  | _ => none

def itemKinds (kinds : List EventKind) : List ItemKind := kinds.filterMap (·.item?)

@[simp] theorem itemKinds_nil : itemKinds [] = [] := rfl

@[simp] theorem itemKinds_append (front back : List EventKind) :
    itemKinds (front ++ back) = itemKinds front ++ itemKinds back := List.filterMap_append

theorem itemKinds_cons {kind : EventKind} {item : ItemKind} (h : kind.item? = some item)
    (kinds : List EventKind) : itemKinds (kind :: kinds) = item :: itemKinds kinds :=
  List.filterMap_cons_some h

namespace Document

variable {d : Document} {depth fuel index jumps : Nat} {path : Path} {items : List Item}
  {kinds front back : List EventKind} {v : Value} {vs : List Value} {more : List ItemKind}

/-- If the items of these events are read as a value, it is this one. -/
def Reads (kinds : List EventKind) (v : Value) : Prop :=
  ∀ {d : Document} {depth jumps : Nat} {path : Path} {items : List Item} {more : List ItemKind}
    {c : Composed Value}, items.map (·.kind) = itemKinds kinds ++ more →
    compose d depth path jumps items = .ok c → c.value = v ∧ c.rest.map (·.kind) = more

/-- If the items of these events are read as the items of a list, they are these. -/
def ReadsItems (kinds : List EventKind) (vs : List Value) : Prop :=
  ∀ {d : Document} {depth fuel index jumps : Nat} {path : Path} {items : List Item}
    {more : List ItemKind} {c : Composed (List Value)},
    items.map (·.kind) = itemKinds kinds ++ .sequenceEnd :: more →
    composeItems d (compose d depth) path fuel index jumps items = .ok c →
      c.value = vs ∧ c.rest.map (·.kind) = more

/-- If the items of these events are read as entries, these are put to those read before. -/
def ReadsEntries (kinds : List EventKind) (parts : Entries) : Prop :=
  ∀ {d : Document} {depth fuel jumps : Nat} {path : Path} {entries : Entries} {items : List Item}
    {more : List ItemKind} {c : Composed Entries},
    items.map (·.kind) = itemKinds kinds ++ .mappingEnd :: more →
    composeEntries d (compose d depth) path fuel entries jumps items = .ok c →
      c.value = parts.foldl (fun (entries : Entries) (key, value) => entries.insert key value) entries ∧
        c.rest.map (·.kind) = more

/-- A value starts with one of these. -/
def startsValue : EventKind → Bool
  | .scalar .. | .sequenceStart .. | .mappingStart .. => true
  | _ => false

variable {kinds front back : List EventKind} {v w : Value} {vs : List Value} {parts : Entries}

/-- How values inside of a value are read. -/
def inside (d : Document) : Nat → Option Composer
  | 0 => none
  | depth + 1 => some (compose d depth)

theorem compose_cons {d : Document} {item : Item} (h : ∀ n, item.kind ≠ .alias n) (depth : Nat)
    (path : Path) (jumps : Nat) (rest : List Item) :
    compose d depth path jumps (item :: rest) =
      composeNode d (inside d depth) path jumps item rest := by
  have hhere (child : Option Composer) :
      composeHere d child path jumps (item :: rest) = composeNode d child path jumps item rest := by
    unfold composeHere
    split
    · rename_i heq; cases heq
    · rename_i heq
      rw [(List.cons.inj heq).1] at h
      exact absurd rfl (h _)
    · rename_i heq
      obtain ⟨rfl, rfl⟩ := List.cons.inj heq
      rfl
  cases depth <;> exact hhere _

theorem Reads.scalar {style : ScalarStyle} {text : List Char}
    (h : ∀ v', scalarValue none style text = .ok v' → v' = v) : Reads [bareScalar style text] v := by
  intro d depth jumps path items more c hitems hread
  obtain ⟨item, rest, rfl, hkind, hrest⟩ := List.map_eq_cons_iff.1 hitems
  rw [compose_cons (by simp [hkind])] at hread
  simp only [composeNode, hkind, withTag, localTag?] at hread
  split at hread
  · rename_i v' hv
    cases hread
    exact ⟨h v' hv, hrest⟩
  · cases hread

theorem Reads.plain (text : List Char) : Reads [bareScalar .plain text] (plainValue text) := by
  refine Reads.scalar fun v hv => ?_
  simp only [scalarValue, if_true] at hv
  rw [plainValue]
  cases hplain : resolvePlain text with
  | value v' =>
    rw [hplain] at hv
    exact (Except.ok.inj hv).symm
  | oversized n =>
    rw [hplain] at hv
    cases hv

theorem Reads.literal {style : ScalarStyle} (hstyle : style ≠ .plain) (text : List Char) :
    Reads [bareScalar style text] (.string (String.ofList text)) := by
  refine Reads.scalar fun v hv => ?_
  simp only [scalarValue, if_neg hstyle] at hv
  cases hv
  rfl

theorem Reads.sequence (h : ReadsItems kinds vs) :
    Reads (Shape.sequence.around kinds) (.sequence vs) := by
  intro d depth jumps path items more c hitems hread
  rw [Shape.around, itemKinds_cons rfl, itemKinds_append, List.cons_append, List.append_assoc] at hitems
  obtain ⟨item, rest, rfl, hkind, hrest⟩ := List.map_eq_cons_iff.1 hitems
  rw [compose_cons (by simp [hkind])] at hread
  cases depth with
  | zero => simp [composeNode, hkind, inside] at hread
  | succ depth =>
    simp only [composeNode, hkind, inside, withTag, localTag?, bind, Except.bind] at hread
    split at hread
    · cases hread
    · rename_i c' hc'
      cases hread
      obtain ⟨hvalue, hmore⟩ := h hrest hc'
      exact ⟨congrArg _ hvalue, hmore⟩

theorem Reads.mapping (h : ReadsEntries kinds parts) :
    Reads (Shape.mapping.around kinds) (Shape.mapping.whole parts) := by
  intro d depth jumps path items more c hitems hread
  rw [Shape.around, itemKinds_cons rfl, itemKinds_append, List.cons_append, List.append_assoc] at hitems
  obtain ⟨item, rest, rfl, hkind, hrest⟩ := List.map_eq_cons_iff.1 hitems
  rw [compose_cons (by simp [hkind])] at hread
  cases depth with
  | zero => simp [composeNode, hkind, inside] at hread
  | succ depth =>
    simp only [composeNode, hkind, inside, withTag, localTag?, bind, Except.bind] at hread
    split at hread
    · cases hread
    · rename_i c' hc'
      cases hread
      obtain ⟨hvalue, hmore⟩ := h hrest hc'
      exact ⟨congrArg _ hvalue, hmore⟩

theorem ReadsItems.nil : ReadsItems [] [] := by
  intro d depth fuel index jumps path items more c hitems hread
  obtain ⟨item, rest, rfl, hkind, hrest⟩ := List.map_eq_cons_iff.1 hitems
  cases fuel with
  | zero => cases hread
  | succ fuel =>
    simp only [composeItems, hkind, if_true] at hread
    cases hread
    exact ⟨rfl, hrest⟩

theorem ReadsEntries.nil : ReadsEntries [] [] := by
  intro d depth fuel jumps path entries items more c hitems hread
  obtain ⟨item, rest, rfl, hkind, hrest⟩ := List.map_eq_cons_iff.1 hitems
  cases fuel with
  | zero => cases hread
  | succ fuel =>
    simp only [composeEntries, hkind, if_true] at hread
    cases hread
    exact ⟨rfl, hrest⟩

/-- Events that start a value are read as an item that ends nothing. -/
theorem item_of_startsValue {kind : EventKind} (h : startsValue kind = true) :
    ∃ item, kind.item? = some item ∧ item ≠ .sequenceEnd ∧ item ≠ .mappingEnd := by
  cases kind with
  | scalar | sequenceStart | mappingStart => exact ⟨_, rfl, by simp, by simp⟩
  | _ => cases h

/-- The first item of a value ends nothing. -/
theorem exists_first (hstart : front.head?.any startsValue = true)
    (hitems : items.map (·.kind) = itemKinds front ++ more) :
    ∃ item rest, items = item :: rest ∧ item.kind ≠ .sequenceEnd ∧ item.kind ≠ .mappingEnd := by
  cases front with
  | nil => cases hstart
  | cons kind front =>
    obtain ⟨first, hfirst, hsequence, hmapping⟩ := item_of_startsValue hstart
    rw [itemKinds_cons hfirst] at hitems
    obtain ⟨item, rest, rfl, hkind, -⟩ := List.map_eq_cons_iff.1 hitems
    exact ⟨item, rest, rfl, hkind ▸ hsequence, hkind ▸ hmapping⟩

theorem ReadsItems.cons (hfront : Reads front v) (hstart : front.head?.any startsValue = true)
    (hback : ReadsItems back vs) : ReadsItems (front ++ back) (v :: vs) := by
  intro d depth fuel index jumps path items more c hitems hread
  rw [itemKinds_append, List.append_assoc] at hitems
  obtain ⟨item, rest, rfl, hopen, -⟩ := exists_first hstart hitems
  cases fuel with
  | zero => cases hread
  | succ fuel =>
    simp only [composeItems, if_neg hopen, bind, Except.bind] at hread
    split at hread
    · cases hread
    · rename_i c₁ hc₁
      split at hread
      · cases hread
      · rename_i c₂ hc₂
        cases hread
        obtain ⟨rfl, hmore⟩ := hfront hitems hc₁
        obtain ⟨rfl, hmore'⟩ := hback hmore hc₂
        exact ⟨rfl, hmore'⟩

theorem ReadsEntries.cons (hkey : Reads front v) (hstart : front.head?.any startsValue = true)
    {value : List EventKind} (hvalue : Reads value w) (hback : ReadsEntries back parts) :
    ReadsEntries (front ++ (value ++ back)) ((v, w) :: parts) := by
  intro d depth fuel jumps path entries items more c hitems hread
  rw [itemKinds_append, itemKinds_append, List.append_assoc, List.append_assoc] at hitems
  obtain ⟨item, rest, rfl, -, hopen⟩ := exists_first hstart hitems
  cases fuel with
  | zero => cases hread
  | succ fuel =>
    simp only [composeEntries, if_neg hopen, bind, Except.bind] at hread
    split at hread
    · cases hread
    · rename_i c₁ hc₁
      split at hread
      · cases hread
      · rename_i c₂ hc₂
        obtain ⟨rfl, hmore⟩ := hkey hitems hc₁
        obtain ⟨rfl, hmore'⟩ := hvalue hmore hc₂
        exact hback hmore' hread

/-! ## Blocks -/

theorem Reads.flowItems (ws : List Words) :
    ReadsItems (ws.map (·.event)) (ws.map fun w => plainValue w.text) := by
  induction ws with
  | nil => exact ReadsItems.nil
  | cons w ws ih => exact ReadsItems.cons (Reads.plain w.text) rfl ih

theorem Reads.inline (v : Inline) : Reads v.events v.value := by
  cases v with
  | plain w => exact Reads.plain w.text
  | quoted double body => exact Reads.literal (by cases double <;> simp [Inline.quoteStyle]) body
  | list items => exact Reads.sequence (Reads.flowItems items.words)
  | braces => exact Reads.mapping ReadsEntries.nil

theorem Reads.value (value : Option Leaf) : Reads (valueEvents value) (valueOf value) := by
  rcases value with - | (v | ⟨folded, body⟩)
  · exact Reads.plain []
  · exact Reads.inline v
  · exact Reads.literal (by cases folded <;> simp [Scalar.blockStyle]) body

theorem startsValue_valueEvents (value : Option Leaf) :
    (valueEvents value).head?.any startsValue = true := by
  rcases value with - | ((w | ⟨double, body⟩ | items | -) | ⟨folded, body⟩) <;> rfl

theorem startsValue_around (s : Shape) (inner : List EventKind) :
    (s.around inner).head?.any startsValue = true := by
  cases s <;> rfl

/-- If the items of these events are read as parts of a block, they are these. -/
def ReadsParts : (s : Shape) → List EventKind → List s.Part → Prop
  | .mapping, kinds, parts => ReadsEntries kinds parts
  | .sequence, kinds, parts => ReadsItems kinds parts

variable {s : Shape}

theorem ReadsParts.whole {parts : List s.Part} (h : ReadsParts s kinds parts) :
    Reads (s.around kinds) (s.whole parts) := by
  cases s with
  | mapping => exact Reads.mapping h
  | sequence => exact Reads.sequence h

theorem ReadsParts.block (b : Block s) : ReadsParts s b.events b.parts := by
  induction b with
  | @nil s =>
    cases s with
    | mapping => exact ReadsEntries.nil
    | sequence => exact ReadsItems.nil
  | entry key value rest ih => exact ReadsEntries.cons (Reads.plain key.text) rfl (Reads.value value) ih
  | nested key inner rest ihinner ih =>
    exact ReadsEntries.cons (Reads.plain key.text) rfl ihinner.whole ih
  | flush key inner rest ihinner ih =>
    exact ReadsEntries.cons (Reads.plain key.text) rfl ihinner.whole ih
  | item value rest ih => exact ReadsItems.cons (Reads.value value) (startsValue_valueEvents value) ih
  | nestedItem inner rest ihinner ih =>
    exact ReadsItems.cons ihinner.whole (startsValue_around _ _) ih

/-- What a block means, where it can be read. -/
theorem Reads.block (b : Block s) : Reads (s.around b.events) b.value := (ReadsParts.block b).whole

/-! ## The whole text -/

theorem isSome_item?_around {kinds : List EventKind} (s : Shape)
    (h : ∀ kind ∈ kinds, kind.item?.isSome = true) :
    ∀ kind ∈ s.around kinds, kind.item?.isSome = true := by
  intro kind hkind
  cases s <;> rcases List.mem_cons.1 hkind with rfl | hkind <;> try rfl
  all_goals
    rcases List.mem_append.1 hkind with hkind | hkind
    · exact h kind hkind
    · rw [List.mem_singleton.1 hkind]; rfl

theorem isSome_item?_inline (v : Inline) : ∀ kind ∈ v.events, kind.item?.isSome = true := by
  cases v with
  | plain w => simp [Inline.events, Words.event, bareScalar, EventKind.item?]
  | quoted double body => simp [Inline.events, bareScalar, EventKind.item?]
  | list items =>
    refine isSome_item?_around .sequence fun kind hkind => ?_
    obtain ⟨w, -, rfl⟩ := List.mem_map.1 hkind
    rfl
  | braces => simp [Inline.events, EventKind.item?]

theorem isSome_item?_valueEvents (value : Option Leaf) :
    ∀ kind ∈ valueEvents value, kind.item?.isSome = true := by
  rcases value with - | (v | ⟨folded, body⟩)
  · simp [valueEvents, bareScalar, EventKind.item?]
  · exact isSome_item?_inline v
  · simp [valueEvents, Leaf.events, bareScalar, EventKind.item?]

/-- Only items come up in a block. -/
theorem isSome_item?_block (b : Block s) : ∀ kind ∈ b.events, kind.item?.isSome = true := by
  induction b with
  | nil => simp [Block.events]
  | entry key value rest ih =>
    exact List.forall_mem_cons.2 ⟨rfl, List.forall_mem_append.2 ⟨isSome_item?_valueEvents value, ih⟩⟩
  | nested key inner rest ihinner ih =>
    exact List.forall_mem_cons.2
      ⟨rfl, List.forall_mem_append.2 ⟨isSome_item?_around _ ihinner, ih⟩⟩
  | flush key inner rest ihinner ih =>
    exact List.forall_mem_cons.2
      ⟨rfl, List.forall_mem_append.2 ⟨isSome_item?_around _ ihinner, ih⟩⟩
  | item value rest ih => exact List.forall_mem_append.2 ⟨isSome_item?_valueEvents value, ih⟩
  | nestedItem inner rest ihinner ih =>
    exact List.forall_mem_append.2 ⟨isSome_item?_around _ ihinner, ih⟩

/-- An event that is an item without an alias comes into the document. -/
theorem take_cons {e : Event} {item : ItemKind} (hitem : e.kind.item? = some item)
    (fault : Option Fault) (a : Anchors) (es : List Event) :
    ∃ a', take fault a (e :: es) = cons ⟨item, e.mark⟩ (take fault a' es) := by
  obtain ⟨kind, mark⟩ := e
  cases kind with
  | scalar | sequenceStart | sequenceEnd | mappingStart | mappingEnd =>
    obtain rfl := Option.some.inj hitem
    exact ⟨_, rfl⟩
  | _ => cases hitem

/-- The document before the first end of one. -/
theorem take_eq {fault : Option Fault} {kinds : List EventKind} {es : List Event}
    {more : List EventKind} (hes : es.map (·.kind) = kinds ++ .documentEnd :: more)
    (hkinds : ∀ kind ∈ kinds, kind.item?.isSome = true) (a : Anchors) :
    ∃ d rest, take fault a es = (d, rest) ∧ d.items.map (·.kind) = itemKinds kinds ∧
      d.broken = none ∧ rest.map (·.kind) = more := by
  induction kinds generalizing es a with
  | nil =>
    obtain ⟨e, rest, rfl, hkind, hrest⟩ := List.map_eq_cons_iff.1 hes
    exact ⟨⟨[], a.targets, none⟩, rest, by simp [take, hkind], rfl, rfl, hrest⟩
  | cons kind kinds ih =>
    obtain ⟨e, es, rfl, rfl, hmore⟩ := List.map_eq_cons_iff.1 hes
    obtain ⟨hhead, htail⟩ := List.forall_mem_cons.1 hkinds
    obtain ⟨item, hitem⟩ := Option.isSome_iff_exists.1 hhead
    obtain ⟨a', htake⟩ := take_cons hitem fault a es
    obtain ⟨d, rest, heq, hitems, hbroken, hrest⟩ := ih hmore htail a'
    refine ⟨{ d with items := ⟨item, e.mark⟩ :: d.items }, rest, by rw [htake, heq]; rfl, ?_,
      hbroken, hrest⟩
    rw [itemKinds_cons hitem, List.map_cons, hitems]

end Document

open Document

theorem forbiddenAt_of_read {text : List Char} {v : Value} (h : read text = .ok v) :
    forbiddenAt 0 text = none := by
  cases hforbidden : forbiddenAt 0 text with
  | none => rfl
  | some offset =>
    have hevents : events text = ([], some (.controlCharacter offset)) := by
      simp only [events, tokens, hforbidden]
      rfl
    simp only [read, Document.first, hevents, take, Option.map_some, bind, Except.bind] at h
    split at h <;> cases h

/-- A text that holds nothing is null. -/
theorem read_of_nil {text : List Char} {v : Value}
    (h : LaysText (Source.lines text) .nil) (hread : read text = .ok v) : v = .null := by
  obtain ⟨e, hevents, he⟩ := events_of_nil h (forbiddenAt_of_read hread)
  have hfirst : Document.first text = (⟨[], [], none⟩, false) := by
    rw [Document.first, hevents]
    simp [take, he]
  simp only [read, hfirst, bind, Except.bind] at hread
  cases hread
  rfl

/-- **The value of a text in block style is that of its block**, where it can be read. -/
theorem read_of_lays {text : List Char} {b : Block .mapping} {v : Value}
    (h : LaysText (Source.lines text) b) (hb : b ≠ .nil) (hread : read text = .ok v) :
    v = b.value := by
  obtain ⟨es, hevents, hes⟩ := events_of_lays h hb (forbiddenAt_of_read hread)
  obtain ⟨start, es, rfl, hstart, hes⟩ := List.map_eq_cons_iff.1 hes
  have hkinds := isSome_item?_around .mapping (isSome_item?_block b)
  obtain ⟨d, rest, htake, hitems, hbroken, hrest⟩ :=
    @take_eq none _ es [.streamEnd] hes hkinds ⟨[], [], 0⟩
  have hfirst : Document.first text = (d, false) := by
    obtain ⟨e, rest', rfl, hkind, -⟩ := List.map_eq_cons_iff.1 hrest
    rw [Document.first, hevents]
    simp [take, hstart, htake, hkind]
  have hsome : d.items.isEmpty = false := by
    obtain ⟨item, items, hcons, -⟩ := List.map_eq_cons_iff.1 hitems
    rw [hcons]
    rfl
  simp only [read, hfirst, hsome, hbroken, Bool.false_and, bind, Except.bind, Bool.false_eq_true,
    if_false] at hread
  split at hread
  · cases hread
  · rename_i c hc
    cases hread
    exact (Reads.block b (by rw [hitems, List.append_nil]) hc).1

end SchemaTidy.Yaml
