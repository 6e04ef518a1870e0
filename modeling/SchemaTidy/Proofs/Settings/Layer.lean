import SchemaTidy.Settings.Layer

/-! # What a layer sets

Main statement: `holds_overlay`. Whatever the settings were, after a layer they are as the layer
has them. A table that is empty sets nothing, so there may be none in the layer. -/

namespace SchemaTidy.Settings
open Toml (Value Table)

mutual

/-- Settings are as a layer has them: a table has at least the keys of the table in the layer, and
what is no table is the same. -/
def Holds (v : Value) : Value → Prop
  | .table entries => ∃ t, v = .table t ∧ HoldsAll t entries
  | value => v = value

def HoldsAll (t : Table) : List (String × Value) → Prop
  | [] => True
  | (key, value) :: rest => (∃ v, t.get? key = some v ∧ Holds v value) ∧ HoldsAll t rest

end

mutual

/-- No table of a layer is empty or has a key twice. -/
def Solid : Value → Prop
  | .table entries => entries ≠ [] ∧ (Schema.Table.names entries).Nodup ∧ AllSolid entries
  | _ => True

def AllSolid : List (String × Value) → Prop
  | [] => True
  | (_, value) :: rest => Solid value ∧ AllSolid rest

end

theorem holdsAll_iff {t : Table} {entries : List (String × Value)} :
    HoldsAll t entries ↔ ∀ e ∈ entries, ∃ v, t.get? e.1 = some v ∧ Holds v e.2 := by
  induction entries with
  | nil => simp [HoldsAll]
  | cons entry rest ih => rw [HoldsAll, ih, List.forall_mem_cons]

theorem allSolid_iff {entries : List (String × Value)} :
    AllSolid entries ↔ ∀ e ∈ entries, Solid e.2 := by
  induction entries with
  | nil => simp [AllSolid]
  | cons entry rest ih => rw [AllSolid, ih, List.forall_mem_cons]

theorem Holds.of_table {v : Value} {entries : Table} (h : Holds v (.table entries)) :
    ∃ t : Table, v = .table t ∧ ∀ e ∈ entries, ∃ w, t.get? e.1 = some w ∧ Holds w e.2 := by
  obtain ⟨t, rfl, hall⟩ := h
  exact ⟨t, rfl, holdsAll_iff.1 hall⟩

mutual

theorem Solid.holds : (value : Value) → Solid value → Holds value value
  | .table entries, h => ⟨entries, rfl, AllSolid.holds h.2.1 entries (fun _ he => he) h.2.2⟩
  | .bool _, _ | .integer _, _ | .real _, _ | .string _, _ | .dateTime _, _ | .array _, _ => rfl

theorem AllSolid.holds {t : Table} (hnodup : t.names.Nodup) :
    (entries : List (String × Value)) → (∀ e ∈ entries, e ∈ t) → AllSolid entries →
      HoldsAll t entries
  | [], _, _ => trivial
  | (_, value) :: rest, hmem, h =>
    ⟨⟨value, Schema.Table.get?_of_mem hnodup (hmem _ List.mem_cons_self), Solid.holds value h.1⟩,
      AllSolid.holds hnodup rest (fun e he => hmem e (List.mem_cons_of_mem _ he)) h.2⟩

end

mutual

theorem Holds.trans {u v : Value} (huv : Holds u v) :
    (value : Value) → Holds v value → Holds u value
  | .table entries, hv => by
    obtain ⟨tv, rfl, hv⟩ := hv
    obtain ⟨tu, rfl, hu⟩ := huv
    exact ⟨tu, rfl, HoldsAll.trans hu entries hv⟩
  | .bool _, hv | .integer _, hv | .real _, hv | .string _, hv | .dateTime _, hv
  | .array _, hv => hv ▸ huv

theorem HoldsAll.trans {tu tv : Table} (huv : HoldsAll tu tv) :
    (entries : List (String × Value)) → HoldsAll tv entries → HoldsAll tu entries
  | [], _ => trivial
  | (key, value) :: rest, hv => by
    obtain ⟨⟨v, hkey, hv⟩, hrest⟩ := hv
    obtain ⟨e, he, rfl⟩ := Option.map_eq_some_iff.1 hkey
    have hname : e.1 = key := by simpa using List.find?_some he
    obtain ⟨u, hu, hholds⟩ := holdsAll_iff.1 huv e (List.mem_of_find?_eq_some he)
    exact ⟨⟨u, hname ▸ hu, hholds.trans value hv⟩, HoldsAll.trans huv rest hrest⟩

end

mutual

theorem holds_overlay (lower : Option Value) :
    (value : Value) → Solid value → Holds (overlay lower value) value
  | .table [], h => absurd rfl h.1
  | .table ((key, value) :: rest), h => by
    obtain ⟨t, ht, hall, -⟩ := holdsAll_overlayEntries ((lower.bind Value.table?).getD [])
      ((key, value) :: rest) h.2.1 h.2.2
    exact ⟨t, ht, hall⟩
  | .bool _, _ | .integer _, _ | .real _, _ | .string _, _ | .dateTime _, _ | .array _, _ => rfl

/-- Entries that are set stay set: those behind them have other keys. -/
theorem holdsAll_overlayEntries (t : Table) :
    (entries : List (String × Value)) → (Schema.Table.names entries).Nodup → AllSolid entries →
      ∃ t' : Table, overlayEntries (some (.table t)) entries = .table t' ∧ HoldsAll t' entries ∧
        ∀ key ∉ Schema.Table.names entries, t'.get? key = t.get? key
  | [], _, _ => ⟨t, rfl, trivial, fun _ _ => rfl⟩
  | (key, value) :: rest, hnodup, hsolid => by
    obtain ⟨hnew, hnodup⟩ := List.nodup_cons.1 hnodup
    obtain ⟨t', ht', hall, hother⟩ :=
      holdsAll_overlayEntries (t.insert key (overlay (t.get? key) value)) rest hnodup hsolid.2
    refine ⟨t', ht', ⟨⟨_, ?_, holds_overlay (t.get? key) value hsolid.1⟩, hall⟩, fun k hk => ?_⟩
    · rw [hother key hnew, Schema.Table.get?_insert_self]
    · have hne : k ≠ key := fun h => hk (h ▸ List.mem_cons_self)
      rw [hother k fun h => hk (List.mem_cons_of_mem _ h), Schema.Table.get?_insert_of_ne _ _ hne]

end

/-! ## Layers with plain keys -/

/-- A layer whose keys are no paths is one table over the settings. -/
theorem layered_eq_overlay (settings : Value) (layer : Table)
    (h : ∀ e ∈ layer, pathOf e.1 = [e.1]) :
    layered settings layer = overlay (some settings) (.table layer) := by
  induction layer generalizing settings with
  | nil => rfl
  | cons entry rest ih =>
    rw [layered, List.foldl_cons, ← layered, ih _ fun e he => h e (List.mem_cons_of_mem _ he)]
    obtain ⟨key, value⟩ := entry
    dsimp only
    rw [h _ List.mem_cons_self]
    rfl

theorem ofLayers_concat (layers : List Table) (layer : Table) :
    ofLayers (layers ++ [layer]) = layered (ofLayers layers) layer :=
  List.foldl_append ..

end SchemaTidy.Settings
