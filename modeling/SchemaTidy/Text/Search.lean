/-! Finding one text inside another. -/

namespace SchemaTidy.Text

/-- Whether `part` stands somewhere in the text; the empty part stands in every text. -/
def occursIn (part : List Char) : List Char → Bool
  | [] => part.isEmpty
  | c :: cs => part.isPrefixOf (c :: cs) || occursIn part cs

/-- The text before the first occurrence of `part`, and the text from there on. -/
def splitBefore (part : List Char) : List Char → Option (List Char × List Char)
  | [] => if part.isEmpty then some ([], []) else none
  | c :: cs =>
    if part.isPrefixOf (c :: cs) then some ([], c :: cs)
    else (splitBefore part cs).map fun (before, rest) => (c :: before, rest)

theorem splitBefore_sound {part cs before rest : List Char}
    (h : splitBefore part cs = some (before, rest)) :
    cs = before ++ rest ∧ part.isPrefixOf rest = true := by
  induction cs generalizing before with
  | nil =>
    simp only [splitBefore] at h
    split at h <;> simp_all
  | cons c cs ih =>
    simp only [splitBefore] at h
    split at h
    · obtain ⟨rfl, rfl⟩ := Prod.mk.inj (Option.some.inj h)
      exact ⟨rfl, ‹_›⟩
    · obtain ⟨⟨b, r⟩, hsplit, heq⟩ := Option.map_eq_some_iff.1 h
      obtain ⟨rfl, rfl⟩ := Prod.mk.inj heq
      obtain ⟨hcs, hp⟩ := ih hsplit
      exact ⟨by simp [hcs], hp⟩

/-- The parts of a text between the separators; a text without one is its own only part. -/
def splitOn (separator : Char) : List Char → List (List Char)
  | [] => [[]]
  | c :: cs =>
    if c = separator then [] :: splitOn separator cs
    else
      match splitOn separator cs with
      | [] => [[c]]
      | part :: parts => (c :: part) :: parts

end SchemaTidy.Text
