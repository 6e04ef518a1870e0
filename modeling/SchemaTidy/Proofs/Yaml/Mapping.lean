import SchemaTidy.Proofs.Yaml.Entries
import SchemaTidy.Yaml.Read

/-! # Mappings that are read

No mapping in a value that is read has two entries of one key, since entries are set one after the
other. Main statement: `unrepeated_of_read`. -/

namespace SchemaTidy

/-- A sequence of two steps succeeds when both do. -/
theorem bind_eq_ok {ε α β : Type} {x : Except ε α} {f : α → Except ε β} {b : β} :
    x >>= f = .ok b ↔ ∃ a, x = .ok a ∧ f a = .ok b := by
  cases x with
  | error e => simp [bind, Except.bind]
  | ok a => simp [bind, Except.bind]

theorem map_eq_ok {ε α β : Type} {x : Except ε α} {f : α → β} {b : β} :
    x.map f = .ok b ↔ ∃ a, x = .ok a ∧ f a = b := by
  cases x <;> simp [Except.map]

namespace Yaml

/-- No mapping in a value, however deep, has two entries of one key. -/
inductive Value.Unrepeated : Value → Prop where
  | null : Unrepeated .null
  | bool (b : Bool) : Unrepeated (.bool b)
  | number (n : Number) : Unrepeated (.number n)
  | string (s : String) : Unrepeated (.string s)
  | sequence {items : List Value} (hitems : ∀ v ∈ items, Unrepeated v) :
      Unrepeated (.sequence items)
  | mapping {es : Entries} (hdistinct : es.Distinct) (hkeys : ∀ e ∈ es, Unrepeated e.1)
      (hvalues : ∀ e ∈ es, Unrepeated e.2) : Unrepeated (.mapping es)
  | tagged (tag : String) {v : Value} (hvalue : Unrepeated v) : Unrepeated (.tagged tag v)

variable {d : Document} {path : Path} {jumps : Nat} {items rest : List Item} {es : Entries}
  {v : Value} {c : Composed Value}

theorem Value.Unrepeated.of_get? {name : String} (h : (Value.mapping es).Unrepeated)
    (hget : es.get? name = some v) : v.Unrepeated := by
  obtain ⟨e, he, rfl⟩ := Option.map_eq_some_iff.1 hget
  cases h with
  | mapping _ _ hvalues => exact hvalues e (List.mem_of_find?_eq_some he)

/-! ## Scalars -/

theorem Resolved.unrepeated_of_ofWhole {n : WholeNumber} (h : ofWhole n = .value v) :
    v.Unrepeated := by
  cases n with
  | fits n =>
    cases h
    exact .number _
  | oversized n => cases h

theorem unrepeated_of_resolvePlain {cs : List Char} (h : resolvePlain cs = .value v) :
    v.Unrepeated := by
  unfold resolvePlain at h
  split at h
  · cases h
    exact .null
  · cases hbool : boolOf? cs with
    | some b =>
      rw [hbool] at h
      cases h
      exact .bool b
    | none =>
      rw [hbool] at h
      cases hwhole : wholeNumber? cs with
      | some n =>
        rw [hwhole] at h
        exact Resolved.unrepeated_of_ofWhole h
      | none =>
        rw [hwhole] at h
        dsimp only at h
        cases hreal : (if isZeroPadded cs then none else real? cs) with
        | some x =>
          rw [hreal] at h
          cases h
          exact .number _
        | none =>
          rw [hreal] at h
          cases h
          exact .string _

theorem ForcedType.unrepeated_of_read {type : ForcedType} {text : List Char}
    (h : type.read text = .ok v) : v.Unrepeated := by
  cases type with
  | bool =>
    cases hb : boolOf? text with
    | none => simp [ForcedType.read, hb] at h
    | some b =>
      obtain rfl : Value.bool b = v := by simpa [ForcedType.read, hb] using h
      exact .bool b
  | whole =>
    cases hn : wholeNumber? text with
    | none => simp [ForcedType.read, hn] at h
    | some n =>
      refine Resolved.unrepeated_of_ofWhole (n := n) ?_
      cases hwhole : Resolved.ofWhole n <;> simp_all [ForcedType.read]
  | real =>
    cases hx : real? text with
    | none => simp [ForcedType.read, hx] at h
    | some x =>
      obtain rfl : Value.number (.real x) = v := by simpa [ForcedType.read, hx] using h
      exact .number _
  | null =>
    cases hnull : isNullText text with
    | false => simp [ForcedType.read, hnull] at h
    | true =>
      obtain rfl : Value.null = v := by simpa [ForcedType.read, hnull] using h
      exact .null

theorem unrepeated_of_untagged {style : ScalarStyle} {text : List Char}
    (h : scalarValue none style text = .ok v) : v.Unrepeated := by
  unfold scalarValue at h
  dsimp only at h
  split at h
  · split at h
    next v' hv' =>
      cases h
      exact unrepeated_of_resolvePlain hv'
    · cases h
  · cases h
    exact .string _

theorem unrepeated_of_scalarValue {tag : Option (List Char)} {style : ScalarStyle}
    {text : List Char} (h : scalarValue tag style text = .ok v) : v.Unrepeated := by
  cases tag with
  | none => exact unrepeated_of_untagged h
  | some tag =>
    unfold scalarValue at h
    dsimp only at h
    split at h
    next type _ => exact type.unrepeated_of_read h
    · split at h
      · exact unrepeated_of_untagged h
      · cases h
        exact .string _

/-! ## Collections -/

/-- All values that a composer makes are without repeated keys. -/
def Composer.Sound (child : Composer) : Prop :=
  ∀ path jumps items c, child path jumps items = .ok c → c.value.Unrepeated

theorem unrepeated_of_composeItems {child : Composer} (hchild : child.Sound) {fuel index : Nat}
    {c : Composed (List Value)}
    (h : composeItems d child path fuel index jumps items = .ok c) :
    ∀ v ∈ c.value, v.Unrepeated := by
  induction fuel generalizing index jumps items c with
  | zero => cases h
  | succ fuel ih =>
    cases items with
    | nil => cases h
    | cons item rest =>
      rw [composeItems] at h
      split at h
      · cases h
        exact nofun
      · obtain ⟨first, hfirst, h⟩ := bind_eq_ok.1 h
        obtain ⟨more, hmore, h⟩ := bind_eq_ok.1 h
        cases h
        exact List.forall_mem_cons.2 ⟨hchild _ _ _ _ hfirst, ih hmore⟩

theorem unrepeated_of_composeEntries {child : Composer} (hchild : child.Sound) {fuel : Nat}
    {c : Composed Entries}
    (h : composeEntries d child path fuel es jumps items = .ok c) (hdistinct : es.Distinct)
    (hes : ∀ e ∈ es, e.1.Unrepeated ∧ e.2.Unrepeated) :
    c.value.Distinct ∧ ∀ e ∈ c.value, e.1.Unrepeated ∧ e.2.Unrepeated := by
  induction fuel generalizing es jumps items with
  | zero => cases h
  | succ fuel ih =>
    cases items with
    | nil => cases h
    | cons item rest =>
      rw [composeEntries] at h
      split at h
      · cases h
        exact ⟨hdistinct, hes⟩
      · obtain ⟨key, hkey, h⟩ := bind_eq_ok.1 h
        obtain ⟨value, hvalue, h⟩ := bind_eq_ok.1 h
        exact ih h (hdistinct.insert _ _)
          (Entries.forall_insert hes (hchild _ _ _ _ hkey) (hchild _ _ _ _ hvalue))

theorem unrepeated_of_withTag {tag : Option (List Char)}
    {read : Except ReadError (Composed Value)} (h : withTag tag read = .ok c)
    (hread : ∀ c', read = .ok c' → c'.value.Unrepeated) : c.value.Unrepeated := by
  unfold withTag at h
  split at h
  · exact hread c h
  · obtain ⟨c', hc', h⟩ := bind_eq_ok.1 h
    cases h
    exact .tagged _ (hread c' hc')

theorem unrepeated_of_composeNode {child : Option Composer} (hchild : ∀ f ∈ child, f.Sound)
    {item : Item} (h : composeNode d child path jumps item rest = .ok c) :
    c.value.Unrepeated := by
  unfold composeNode at h
  split at h
  next tag style text _ =>
    refine unrepeated_of_withTag h fun c' hc' => ?_
    split at hc'
    next value hvalue =>
      cases hc'
      exact unrepeated_of_scalarValue hvalue
    · cases hc'
  next child _ =>
    refine unrepeated_of_withTag h fun c' hc' => ?_
    obtain ⟨items, hitems, hc'⟩ := bind_eq_ok.1 hc'
    cases hc'
    exact .sequence (unrepeated_of_composeItems (hchild child rfl) hitems)
  next child _ =>
    refine unrepeated_of_withTag h fun c' hc' => ?_
    obtain ⟨entries, hentries, hc'⟩ := bind_eq_ok.1 hc'
    cases hc'
    obtain ⟨hdistinct, hes⟩ :=
      unrepeated_of_composeEntries (hchild child rfl) hentries List.Pairwise.nil nofun
    exact .mapping hdistinct (fun e he => (hes e he).1) fun e he => (hes e he).2
  · cases h
  · cases h
  · cases h

theorem sound_composeHere {child : Option Composer} (hchild : ∀ f ∈ child, f.Sound) :
    (composeHere d child).Sound := by
  intro path jumps items c h
  unfold composeHere at h
  split at h
  · cases h
  · split at h
    · cases h
    · split at h
      · cases h
      · obtain ⟨c', hnode, h⟩ := bind_eq_ok.1 h
        have hvalue : c'.value.Unrepeated := unrepeated_of_composeNode hchild hnode
        cases h
        exact hvalue
  · exact unrepeated_of_composeNode hchild h

theorem sound_compose (d : Document) (depth : Nat) : (compose d depth).Sound := by
  induction depth with
  | zero => exact sound_composeHere nofun
  | succ depth ih =>
    refine sound_composeHere fun f hf => ?_
    cases hf
    exact ih

/-- What is left to do with a value only decides whether it is an answer. -/
theorem eq_of_whole {broken : Option Break} {more : Bool} {value : Value}
    (h : (match broken with
      | some b => .error b.error
      | none => if more then .error .severalDocuments else .ok value : Except ReadError Value) =
        .ok v) : v = value := by
  cases broken with
  | some b => cases h
  | none =>
    cases more with
    | true => cases h
    | false => exact (Except.ok.inj h).symm

/-- A value is read from the items of the first document. -/
theorem read_eq_ok {text : List Char} (h : read text = .ok v) :
    ((Document.first text).1.items = [] ∧ v = .null) ∨
      ∃ c, compose (Document.first text).1 maxDepth .root 0 (Document.first text).1.items = .ok c ∧
        v = c.value := by
  unfold read at h
  generalize hfirst : Document.first text = found at h
  obtain ⟨d, more⟩ := found
  dsimp only at h
  obtain rfl : (Document.first text).1 = d := congrArg Prod.fst hfirst
  split at h
  next hempty => exact .inl ⟨List.isEmpty_iff.1 (Bool.and_eq_true_iff.1 hempty).1, eq_of_whole h⟩
  · obtain ⟨c, hc, h⟩ := bind_eq_ok.1 h
    exact .inr ⟨c, hc, eq_of_whole h⟩

/-- **A value that is read has no mapping with two entries of one key.** -/
theorem unrepeated_of_read {text : List Char} (h : read text = .ok v) : v.Unrepeated := by
  rcases read_eq_ok h with ⟨-, rfl⟩ | ⟨c, hc, rfl⟩
  · exact .null
  · exact sound_compose _ maxDepth _ _ _ c hc

theorem distinct_of_read {text : List Char} (h : read text = .ok (.mapping es)) : es.Distinct := by
  cases unrepeated_of_read h with
  | mapping hdistinct => exact hdistinct

end Yaml

end SchemaTidy
