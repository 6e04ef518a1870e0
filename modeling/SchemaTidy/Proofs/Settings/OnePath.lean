import SchemaTidy.Proofs.Settings.Layer

/-! # Settings with one value put in

`SetAt` relates settings to the same settings with a value at one path. A layer that sets the path
makes it hold (`setAt_overlay`), and layers that set nothing above, at or below the path keep it
(`SetAt.layered`), so that the value comes through all of them. -/

namespace SchemaTidy.Settings
open Toml (Value Table)

variable {v w a b : Value} {lower : Option Value} {path other : List String}

/-- The entries of settings. What is no table has none. -/
def entriesOf (settings : Option Value) : Table := (settings.bind Value.table?).getD []

/-- Settings `b` are those of `lower`, but for the value `v` at a path. -/
def SetAt (v : Value) : List String → Option Value → Value → Prop
  | [], _, b => b = v
  | key :: path, lower, b => ∃ t : Table, b = .table t ∧
      (∀ name ≠ key, t.get? name = (entriesOf lower).get? name) ∧
      ∃ c, t.get? key = some c ∧ SetAt v path ((entriesOf lower).get? key) c

theorem setAt_table {key : String} {t u : Table} :
    SetAt v (key :: path) (some (.table u)) (.table t) ↔
      (∀ name ≠ key, t.get? name = u.get? name) ∧
        ∃ c, t.get? key = some c ∧ SetAt v path (u.get? key) c := by
  constructor
  · rintro ⟨t', heq, hothers, hset⟩
    cases heq
    exact ⟨hothers, hset⟩
  · rintro ⟨hothers, hset⟩
    exact ⟨t, rfl, hothers, hset⟩

/-- No path is above the other one or the same. -/
def Apart (path other : List String) : Prop := ¬ path <+: other ∧ ¬ other <+: path

theorem Apart.tail {key : String} (h : Apart (key :: path) (key :: other)) : Apart path other := by
  simpa only [Apart, List.cons_prefix_cons, true_and] using h

theorem overlay_nested_cons (lower : Option Value) (key : String) (path : List String) (v : Value) :
    overlay lower (nested (key :: path) v) =
      .table ((entriesOf lower).insert key
        (overlay ((entriesOf lower).get? key) (nested path v))) := rfl

/-- What is put in over settings is in them. -/
theorem setAt_overlay (hv : v.table? = none) (path : List String) (lower : Option Value) :
    SetAt v path lower (overlay lower (nested path v)) := by
  induction path generalizing lower with
  | nil => exact overlay_eq_self hv
  | cons key path ih =>
    rw [overlay_nested_cons]
    exact ⟨_, rfl, fun name hne => Schema.Table.get?_insert_of_ne _ _ hne, _,
      Schema.Table.get?_insert_self .., ih _⟩

/-- It makes no difference what was put in at the same path before. -/
theorem setAt_overlay_overlay (hv : v.table? = none) (path : List String) (lower : Option Value) :
    SetAt v path (some (overlay lower (nested path w))) (overlay lower (nested path v)) := by
  induction path generalizing lower with
  | nil => exact overlay_eq_self hv
  | cons key path ih =>
    rw [overlay_nested_cons, overlay_nested_cons, setAt_table]
    refine ⟨fun name hne => ?_, _, Schema.Table.get?_insert_self .., ?_⟩
    · rw [Schema.Table.get?_insert_of_ne _ _ hne, Schema.Table.get?_insert_of_ne _ _ hne]
    · rw [Schema.Table.get?_insert_self]
      exact ih _

/-- What is set elsewhere is set in both. -/
theorem SetAt.overlay (hapart : Apart path other) (h : SetAt v path lower b) (w : Value) :
    SetAt v path (some (overlay lower (nested other w))) (overlay (some b) (nested other w)) := by
  induction path generalizing other lower b with
  | nil => exact absurd List.nil_prefix hapart.1
  | cons key path ih =>
    cases other with
    | nil => exact absurd List.nil_prefix hapart.2
    | cons first other =>
      obtain ⟨t, rfl, hothers, c, hc, hset⟩ := h
      rw [overlay_nested_cons, overlay_nested_cons, setAt_table]
      refine ⟨fun name hne => ?_, ?_⟩
      · by_cases hname : name = first
        · subst hname
          rw [Schema.Table.get?_insert_self, Schema.Table.get?_insert_self, ← hothers _ hne]
          rfl
        · rw [Schema.Table.get?_insert_of_ne _ _ hname, Schema.Table.get?_insert_of_ne _ _ hname]
          exact hothers _ hne
      · by_cases hkey : key = first
        · subst hkey
          rw [Schema.Table.get?_insert_self, Schema.Table.get?_insert_self]
          refine ⟨_, rfl, ?_⟩
          have hstep := ih hapart.tail hset
          rwa [← hc] at hstep
        · rw [Schema.Table.get?_insert_of_ne _ _ hkey, Schema.Table.get?_insert_of_ne _ _ hkey]
          exact ⟨c, hc, hset⟩

theorem SetAt.layered {layer : Table} (hapart : ∀ e ∈ layer, Apart path (pathOf e.1))
    (h : SetAt v path (some a) b) : SetAt v path (some (layered a layer)) (layered b layer) := by
  induction layer generalizing a b with
  | nil => exact h
  | cons entry rest ih =>
    exact ih (fun e he => hapart e (List.mem_cons_of_mem _ he))
      (h.overlay (hapart entry List.mem_cons_self) entry.2)

theorem layered_append (settings : Value) (front back : Table) :
    layered settings (front ++ back) = layered (layered settings front) back :=
  List.foldl_append ..

end SchemaTidy.Settings
