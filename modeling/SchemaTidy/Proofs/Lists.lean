import Mathlib.Data.List.Nodup

/-! # Lists without repetitions

Facts about lists that hold whatever is in them: the elements of a list each once, its positions
in order, and a list that is mapped to lists of which one alone is not empty. -/

namespace SchemaTidy

theorem nodup_eraseDups {α : Type} [BEq α] [LawfulBEq α] : ∀ xs : List α, xs.eraseDups.Nodup
  | [] => by simp
  | x :: xs => by
    have : (xs.filter fun y => !y == x).length < xs.length + 1 :=
      Nat.lt_succ_of_le (List.length_filter_le _ xs)
    rw [List.eraseDups_cons, List.nodup_cons]
    refine ⟨fun hm => ?_, nodup_eraseDups _⟩
    simpa using (List.mem_filter.1 (List.mem_eraseDups.1 hm)).2
termination_by xs => xs.length

theorem eraseDups_sublist {α : Type} [BEq α] [LawfulBEq α] : ∀ xs : List α, xs.eraseDups.Sublist xs
  | [] => .slnil
  | x :: xs => by
    have : (xs.filter fun y => !y == x).length < xs.length + 1 :=
      Nat.lt_succ_of_le (List.length_filter_le _ xs)
    rw [List.eraseDups_cons]
    exact ((eraseDups_sublist _).trans List.filter_sublist).cons_cons x
termination_by xs => xs.length

/-- A last element is kept when it did not come up before. -/
theorem eraseDups_concat {α : Type} [BEq α] [LawfulBEq α] (xs : List α) (x : α) :
    (xs ++ [x]).eraseDups =
      if xs.eraseDups.contains x then xs.eraseDups else xs.eraseDups ++ [x] := by
  have hcontains : xs.eraseDups.contains x = xs.contains x := by
    rw [Bool.eq_iff_iff, List.contains_iff_mem, List.mem_eraseDups, List.contains_iff_mem]
  rw [List.eraseDups_append, hcontains, List.removeAll]
  by_cases h : x ∈ xs <;> simp [h, List.eraseDups_cons]

theorem pairwise_zipIdx {α : Type} (xs : List α) : xs.zipIdx.Pairwise fun a b => a.2 < b.2 := by
  rw [← List.pairwise_map, List.zipIdx_map_snd]
  exact List.pairwise_lt_range' ..

/-- A list without repetitions of which one element alone gives something. -/
theorem flatMap_eq_of_nodup {α β : Type} {xs : List α} {f : α → List β} {x : α}
    (hnodup : xs.Nodup) (hx : x ∈ xs) (h : ∀ y ∈ xs, y ≠ x → f y = []) : xs.flatMap f = f x := by
  obtain ⟨as, bs, rfl⟩ := List.append_of_mem hx
  rw [List.nodup_append, List.nodup_cons] at hnodup
  obtain ⟨-, ⟨hnot, -⟩, hne⟩ := hnodup
  have has : as.flatMap f = [] := List.flatMap_eq_nil_iff.2 fun y hy =>
    h y (List.mem_append_left _ hy) (hne y hy x List.mem_cons_self)
  have hbs : bs.flatMap f = [] := List.flatMap_eq_nil_iff.2 fun y hy =>
    h y (by simp [hy]) fun heq => hnot (heq ▸ hy)
  rw [List.flatMap_append, List.flatMap_cons, has, hbs, List.append_nil, List.nil_append]

end SchemaTidy
