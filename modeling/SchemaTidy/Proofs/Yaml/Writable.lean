import SchemaTidy.Yaml.Write

/-! # What can be written

A mapping of one entry is not opened when its key is taken for its tag. Then one collection more is
closed than was opened, and nothing that comes later makes up for it, so the whole value is refused.
Main statement: `write_eq_ok_iff`, the values that are not refused. -/

namespace SchemaTidy.Yaml

/-- Values in which no tag stands right under a tag, and no mapping without a tag has as its only
key a tagged value or a mapping of one entry. `tagged` says whether the value has a tag. -/
inductive Value.Writable : Bool → Value → Prop where
  | null {tagged : Bool} : Writable tagged .null
  | bool {tagged : Bool} (b : Bool) : Writable tagged (.bool b)
  | number {tagged : Bool} (n : Number) : Writable tagged (.number n)
  | string {tagged : Bool} (s : String) : Writable tagged (.string s)
  | sequence {tagged : Bool} {items : List Value} (hitems : ∀ v ∈ items, Writable false v) :
      Writable tagged (.sequence items)
  | mapping {tagged : Bool} {es : Entries}
      (honly : tagged = false → ∀ e, es = [e] → swallowsStart e.1 = false)
      (hkeys : ∀ e ∈ es, Writable false e.1) (hvalues : ∀ e ∈ es, Writable false e.2) :
      Writable tagged (.mapping es)
  | tagged (tag : String) {v : Value} (hvalue : Writable true v) : Writable false (.tagged tag v)

variable {tagged : Bool} {v : Value} {items : List Value} {es : Entries} {frames : List Frame}
  {os : List Outline}

/-! ## Values that are passed -/

/-- What `checkNesting` makes of an outline, whatever is open: it is one node more. -/
def IsNode (os : List Outline) : Prop :=
  ∀ frames more, checkNesting frames (os ++ more) = checkNesting (Frame.passNode frames) more

theorem checkNesting_outlineItems (h : ∀ v ∈ items, IsNode (outline false v))
    (outer : List Frame) (more : List Outline) :
    checkNesting (.sequence :: outer) (outlineItems items ++ more) =
      checkNesting (.sequence :: outer) more := by
  induction items with
  | nil => rfl
  | cons v vs ih =>
    obtain ⟨hv, hvs⟩ := List.forall_mem_cons.1 h
    rw [outlineItems, List.append_assoc, hv]
    exact ih hvs

/-- A key and its value pass a mapping twice, so that it expects a key again. -/
theorem checkNesting_outlineEntries (hkeys : ∀ e ∈ es, IsNode (outline false e.1))
    (hvalues : ∀ e ∈ es, IsNode (outline false e.2)) (outer : List Frame) (more : List Outline) :
    checkNesting (.mapping true :: outer) (outlineEntries es ++ more) =
      checkNesting (.mapping true :: outer) more := by
  induction es with
  | nil => rfl
  | cons e rest ih =>
    obtain ⟨hkey, hkeys⟩ := List.forall_mem_cons.1 hkeys
    obtain ⟨hvalue, hvalues⟩ := List.forall_mem_cons.1 hvalues
    rw [outlineEntries, List.append_assoc, List.append_assoc, hkey, hvalue]
    exact ih hkeys hvalues

/-- The key of the only entry is not taken for the tag of its mapping. -/
def startsMapping (tagged : Bool) : Entries → Bool
  | [(key, _)] => tagged || !swallowsStart key
  | _ => true

theorem startsMapping_iff :
    startsMapping tagged es = true ↔ (tagged = false → ∀ e, es = [e] → swallowsStart e.1 = false) := by
  match es with
  | [] => simp [startsMapping]
  | [(key, value)] => cases tagged <;> simp [startsMapping]
  | _ :: _ :: _ => simp [startsMapping]

theorem outline_mapping (tagged : Bool) (es : Entries) :
    outline tagged (.mapping es) =
      (if startsMapping tagged es then [.openMapping] else []) ++ outlineEntries es ++ [.close] := by
  match es with
  | [] | [(_, _)] | _ :: _ :: _ => simp [outline, startsMapping]

/-- **A writable value is one node**, wherever it stands. -/
theorem Value.Writable.isNode (h : v.Writable tagged) : IsNode (outline tagged v) := by
  induction h with
  | null | bool | number | string =>
    intro frames more
    rfl
  | sequence _ ih =>
    intro frames more
    rw [outline, List.append_assoc, List.cons_append, checkNesting,
      checkNesting_outlineItems ih]
    rfl
  | mapping honly _ _ ihkeys ihvalues =>
    intro frames more
    rw [outline_mapping, if_pos (startsMapping_iff.2 honly), List.append_assoc,
      List.append_assoc, List.singleton_append, checkNesting,
      checkNesting_outlineEntries ihkeys ihvalues]
    rfl
  | tagged tag _ ih =>
    intro frames more
    rw [outline, if_neg Bool.false_ne_true]
    exact ih frames more

/-! ## Values that are refused -/

/-- By how much one step changes the number of open collections. -/
def Outline.gain : Outline → Int
  | .openSequence | .openMapping => 1
  | .close => -1
  | .leaf | .nestedTag => 0

def gain : List Outline → Int
  | [] => 0
  | o :: os => o.gain + gain os

@[simp] theorem gain_nil : gain [] = 0 := rfl

@[simp] theorem gain_cons (o : Outline) (os : List Outline) : gain (o :: os) = o.gain + gain os :=
  rfl

@[simp] theorem gain_close : gain [.close] = -1 := rfl

@[simp] theorem gain_append (os more : List Outline) : gain (os ++ more) = gain os + gain more := by
  induction os with
  | nil => simp
  | cons o os ih => rw [List.cons_append, gain_cons, gain_cons, ih, Int.add_assoc]

theorem length_passNode (frames : List Frame) :
    (Frame.passNode frames).length = frames.length := by
  unfold Frame.passNode
  split <;> rfl

/-- An outline that is passed closes no more than is open. -/
theorem gain_of_checkNesting (h : checkNesting frames os = .ok ()) :
    .nestedTag ∉ os ∧ 0 ≤ frames.length + gain os := by
  fun_induction checkNesting frames os with
  | case1 frames => exact ⟨List.not_mem_nil, by simp⟩
  | case2 frames more ih =>
    obtain ⟨hnot, hle⟩ := ih h
    rw [length_passNode] at hle
    exact ⟨by simp [hnot], by simpa [Outline.gain] using hle⟩
  | case3 frames more ih | case4 frames more ih =>
    obtain ⟨hnot, hle⟩ := ih h
    rw [List.length_cons, length_passNode] at hle
    refine ⟨by simp [hnot], ?_⟩
    rw [gain_cons, Outline.gain]
    omega
  | case5 outer more ih | case6 outer more ih =>
    obtain ⟨hnot, hle⟩ := ih h
    refine ⟨by simp [hnot], ?_⟩
    rw [gain_cons, Outline.gain, List.length_cons]
    omega
  | case7 | case8 | case9 => cases h

/-- What the outline of a value says about it: it closes at least what it opens, and if it closes
no more and no tag is nested in it, the value is writable. -/
structure Balances (os : List Outline) (writable : Prop) : Prop where
  gain_le : gain os ≤ 0
  writable_of : .nestedTag ∉ os → 0 ≤ gain os → writable

theorem Balances.append {p q : Prop} {more : List Outline} (h : Balances os p)
    (hmore : Balances more q) : Balances (os ++ more) (p ∧ q) where
  gain_le := by
    rw [gain_append]
    exact Int.add_nonpos h.gain_le hmore.gain_le
  writable_of hnot hgain := by
    have := h.gain_le
    have := hmore.gain_le
    rw [List.mem_append, not_or] at hnot
    rw [gain_append] at hgain
    exact ⟨h.writable_of hnot.1 (by omega), hmore.writable_of hnot.2 (by omega)⟩

theorem Balances.imp {p q : Prop} (h : Balances os p) (himp : p → q) : Balances os q where
  gain_le := h.gain_le
  writable_of hnot hgain := himp (h.writable_of hnot hgain)

/-- A collection that is opened and closed again. -/
theorem Balances.enclosed {p : Prop} {o : Outline} (h : Balances os p) (ho : o.gain = 1) :
    Balances (o :: os ++ [.close]) p where
  gain_le := by
    have := h.gain_le
    rw [gain_append, gain_cons, ho, gain_close]
    omega
  writable_of hnot hgain := by
    rw [gain_append, gain_cons, ho, gain_close] at hgain
    exact h.writable_of (fun hmem => hnot (by simp [hmem])) (by omega)

/-- A mapping that is not opened closes too much. -/
theorem Balances.unopened {p q : Prop} (h : Balances os p) : Balances (os ++ [.close]) q where
  gain_le := by
    have := h.gain_le
    rw [gain_append, gain_close]
    omega
  writable_of _ hgain := by
    have := h.gain_le
    rw [gain_append, gain_close] at hgain
    omega

mutual

theorem balances_outline (tagged : Bool) :
    ∀ v : Value, Balances (outline tagged v) (v.Writable tagged)
  | .null => ⟨Int.le_refl 0, fun _ _ => .null⟩
  | .bool b => ⟨Int.le_refl 0, fun _ _ => .bool b⟩
  | .number n => ⟨Int.le_refl 0, fun _ _ => .number n⟩
  | .string s => ⟨Int.le_refl 0, fun _ _ => .string s⟩
  | .sequence items => by
    rw [outline]
    exact ((balances_outlineItems items).enclosed rfl).imp .sequence
  | .mapping es => by
    have hentries := balances_outlineEntries es
    rw [outline_mapping]
    split
    next hstarts =>
      refine (hentries.enclosed rfl).imp fun hes => ?_
      exact .mapping (startsMapping_iff.1 hstarts) (fun e he => (hes e he).1) fun e he =>
        (hes e he).2
    next => exact hentries.unopened
  | .tagged tag v => by
    rw [outline]
    split
    next => exact ⟨Int.le_refl 0, fun hnot => absurd List.mem_cons_self hnot⟩
    next htagged =>
      rw [Bool.eq_false_iff.2 htagged]
      exact (balances_outline true v).imp (.tagged tag)

theorem balances_outlineItems :
    ∀ items : List Value, Balances (outlineItems items) (∀ v ∈ items, v.Writable false)
  | [] => ⟨Int.le_refl 0, fun _ _ => nofun⟩
  | v :: vs => by
    rw [outlineItems]
    exact ((balances_outline false v).append (balances_outlineItems vs)).imp
      fun h => List.forall_mem_cons.2 h

theorem balances_outlineEntries :
    ∀ es : Entries, Balances (outlineEntries es) (∀ e ∈ es, e.1.Writable false ∧ e.2.Writable false)
  | [] => ⟨Int.le_refl 0, fun _ _ => nofun⟩
  | (k, v) :: rest => by
    rw [outlineEntries]
    exact (((balances_outline false k).append (balances_outline false v)).append
      (balances_outlineEntries rest)).imp fun h => List.forall_mem_cons.2 h

end

/-- **The values that can be written** are the writable ones. -/
theorem write_eq_ok_iff {cs : List Char} :
    write v = .ok cs ↔ v.Writable false ∧ nodeText .root 0 none v = cs := by
  unfold write
  cases hcheck : checkNesting [] (outline false v) with
  | error e =>
    refine iff_of_false nofun fun h => ?_
    have hnode := h.1.isNode [] []
    rw [List.append_nil, hcheck] at hnode
    cases hnode
  | ok _ =>
    obtain ⟨hnot, hgain⟩ := gain_of_checkNesting hcheck
    have hwritable : v.Writable false :=
      (balances_outline false v).writable_of hnot (by simpa using hgain)
    exact ⟨fun h => ⟨hwritable, Except.ok.inj h⟩, fun h => congrArg Except.ok h.2⟩

end SchemaTidy.Yaml
