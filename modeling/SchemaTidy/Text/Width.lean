/-! Byte widths. A position in a text is the number of bytes that the characters before it
take in UTF-8. `cutAt` finds the position again, and refuses one inside a character. -/

namespace SchemaTidy.Text

/-- How many bytes the characters take in UTF-8. -/
def width : List Char → Nat
  | [] => 0
  | c :: cs => c.utf8Size + width cs

@[simp] theorem width_nil : width [] = 0 := rfl

@[simp] theorem width_cons (c : Char) (cs : List Char) : width (c :: cs) = c.utf8Size + width cs :=
  rfl

@[simp] theorem width_append (xs ys : List Char) : width (xs ++ ys) = width xs + width ys := by
  induction xs with
  | nil => simp
  | cons c cs ih => simp [ih, Nat.add_assoc]

/-- The two parts of a text at a byte position: none past the end or inside a character. -/
def cutAt : List Char → Nat → Option (List Char × List Char)
  | cs, 0 => some ([], cs)
  | [], _ + 1 => none
  | c :: cs, n + 1 =>
    if c.utf8Size ≤ n + 1 then
      (cutAt cs (n + 1 - c.utf8Size)).map fun (before, after) => (c :: before, after)
    else none

theorem cutAt_sound {cs before after : List Char} {n : Nat}
    (h : cutAt cs n = some (before, after)) : cs = before ++ after ∧ width before = n := by
  induction cs generalizing n before with
  | nil =>
    cases n with
    | zero => simp_all [cutAt]
    | succ n => simp [cutAt] at h
  | cons c cs ih =>
    cases n with
    | zero => simp_all [cutAt]
    | succ n =>
      simp only [cutAt] at h
      split at h
      · rename_i hle
        obtain ⟨⟨b, a⟩, hcut, heq⟩ := Option.map_eq_some_iff.1 h
        obtain ⟨rfl, rfl⟩ := Prod.mk.inj heq
        obtain ⟨hcs, hw⟩ := ih hcut
        exact ⟨by simp [hcs], by simp [hw]; omega⟩
      · contradiction

theorem cutAt_width (before after : List Char) :
    cutAt (before ++ after) (width before) = some (before, after) := by
  induction before with
  | nil => cases after <;> rfl
  | cons c cs ih =>
    have hpos : 0 < c.utf8Size := c.utf8Size_pos
    obtain ⟨k, hk⟩ : ∃ k, width (c :: cs) = k + 1 := ⟨c.utf8Size - 1 + width cs, by simp; omega⟩
    have hrest : k + 1 - c.utf8Size = width cs := by rw [← hk]; simp
    have hle : c.utf8Size ≤ k + 1 := by rw [← hk]; simp
    rw [hk, List.cons_append, cutAt, if_pos hle, hrest, ih]
    rfl

end SchemaTidy.Text
