/-! Blank characters. A character is blank when it has the Unicode property White_Space;
trimming a text removes the blanks at an end of it. -/

namespace SchemaTidy.Text

/-- The Unicode property White_Space. -/
def isBlank (c : Char) : Bool :=
  let n := c.toNat
  (9 ≤ n && n ≤ 13) || n == 0x20 || n == 0x85 || n == 0xA0 || n == 0x1680 ||
    (0x2000 ≤ n && n ≤ 0x200A) || n == 0x2028 || n == 0x2029 || n == 0x202F ||
    n == 0x205F || n == 0x3000

def trimStart (cs : List Char) : List Char := cs.dropWhile isBlank

/-- A character is kept when it is not blank or when something is kept after it. -/
def trimEnd : List Char → List Char
  | [] => []
  | c :: cs =>
    match trimEnd cs with
    | [] => if isBlank c then [] else [c]
    | kept => c :: kept

theorem trimEnd_append_blanks (cs : List Char) :
    ∃ blanks, cs = trimEnd cs ++ blanks ∧ blanks.all isBlank := by
  induction cs with
  | nil => exact ⟨[], rfl, rfl⟩
  | cons c cs ih =>
    obtain ⟨blanks, hcs, hb⟩ := ih
    simp only [trimEnd]
    split
    · rename_i hnil
      rw [hnil] at hcs
      split
      · rename_i hc
        exact ⟨c :: blanks, by simpa using hcs, by simp [hc, hb]⟩
      · exact ⟨blanks, by simpa using hcs, hb⟩
    · exact ⟨blanks, by simpa using hcs, hb⟩

end SchemaTidy.Text
