import SchemaTidy.Toml.Reader

/-! # What readers read

A reader applied to a text, for each way to build one from others. -/

namespace SchemaTidy.Toml.Reader

variable {α β : Type} {reader : Reader α} {cs rest : List Char}

@[simp] theorem pure_apply (a : α) (cs : List Char) : (pure a : Reader α) cs = some (a, cs) := rfl

@[simp] theorem bind_apply (reader : Reader α) (next : α → Reader β) (cs : List Char) :
    (reader >>= next) cs = (reader cs).bind fun x => next x.1 x.2 := rfl

@[simp] theorem map_apply (f : α → β) (reader : Reader α) (cs : List Char) :
    (f <$> reader) cs = (reader cs).map fun x => (f x.1, x.2) := by
  change (reader cs).bind _ = _
  cases reader cs <;> rfl

@[simp] theorem orElse_apply (reader other : Reader α) (cs : List Char) :
    (reader <|> other) cs = (reader cs).or (other cs) := by
  change (reader cs <|> other cs) = _
  cases reader cs <;> rfl

@[simp] theorem seqRight_apply (reader : Reader α) (next : Reader β) (cs : List Char) :
    (reader *> next) cs = (reader cs).bind fun x => next x.2 := rfl

@[simp] theorem seqLeft_apply (reader : Reader α) (next : Reader β) (cs : List Char) :
    (reader <* next) cs = (reader cs).bind fun x => (next x.2).map fun y => (x.1, y.2) := by
  change (reader cs).bind (fun x => (next x.2).bind fun y => some (x.1, y.2)) = _
  simp only [Option.map_eq_bind, Function.comp_def]

@[simp] theorem discard_apply (reader : Reader α) (cs : List Char) :
    (discard reader) cs = (reader cs).map fun x => ((), x.2) := map_apply _ _ _

@[simp] theorem get_apply (cs : List Char) : (get : Reader (List Char)) cs = some (cs, cs) := rfl

@[simp] theorem peek?_apply (cs : List Char) : peek? cs = some (cs.head?, cs) := rfl

@[simp] theorem optional_apply (reader : Reader α) (cs : List Char) :
    (optional reader) cs = some (match reader cs with
      | some x => (some x.1, x.2)
      | none => (none, cs)) := by
  rw [optional, orElse_apply, map_apply]
  cases reader cs <;> rfl

theorem char_eq_none {c : Char} (h : cs.head? ≠ some c) : char c cs = none := by
  cases cs with
  | nil => rfl
  | cons d cs => exact if_neg fun heq => h (congrArg some heq)

theorem oneOf_eq_none {chars : List Char} (h : ∀ c ∈ cs.head?, c ∉ chars) :
    oneOf chars cs = none := by
  cases cs with
  | nil => rfl
  | cons d cs => exact if_neg (h d rfl)

theorem literal_cons_eq_none {c : Char} (h : char c cs = none) (part : List Char) :
    literal (c :: part) cs = none := by
  change (char c cs).bind _ = none
  rw [h]
  rfl

@[simp] theorem literal_append (part rest : List Char) :
    literal part (part ++ rest) = some ((), rest) := by
  induction part with
  | nil => rfl
  | cons c part ih =>
    change (char c (c :: (part ++ rest))).bind (fun x => literal part x.2) = _
    rw [char_cons, Option.bind_some, ih]

theorem ne_of_passes {test : Char → Bool} {c d : Char} (hc : test c = true) (hd : test d = false) :
    c ≠ d := by
  rintro rfl
  rw [hd] at hc
  cases hc

/-- A run of characters that pass a test ends in front of one that does not. -/
theorem takeWhile_apply {test : Char → Bool} {run : List Char} (hrun : ∀ c ∈ run, test c = true)
    (hrest : ∀ c ∈ rest.head?, test c = false) :
    takeWhile test (run ++ rest) = some (run, rest) := by
  rw [takeWhile, List.takeWhile_append_of_pos hrun, List.dropWhile_append_of_pos hrun]
  cases rest with
  | nil => rw [List.takeWhile_nil, List.dropWhile_nil, List.append_nil]
  | cons c rest =>
    have hc : ¬ test c = true := by rw [hrest c rfl]; nofun
    rw [List.takeWhile_cons_of_neg hc, List.dropWhile_cons_of_neg hc, List.append_nil]

theorem takeSome_apply {test : Char → Bool} {run : List Char} (hrun : ∀ c ∈ run, test c = true)
    (hne : run ≠ []) (hrest : ∀ c ∈ rest.head?, test c = false) :
    takeSome test (run ++ rest) = some (run, rest) := by
  rw [takeSome, bind_apply, takeWhile_apply hrun hrest]
  cases run with
  | nil => exact absurd rfl hne
  | cons c run => rfl

theorem takeSome_eq_none {test : Char → Bool} (h : ∀ c ∈ cs.head?, test c = false) :
    takeSome test cs = none := by
  rw [takeSome, bind_apply, ← List.nil_append cs,
    takeWhile_apply (fun _ hc => absurd hc List.not_mem_nil) h]
  rfl

/-! ## Repetition -/

/-- A reader reads some things one after another, and then nothing more. -/
inductive Run (reader : Reader α) : List Char → List α → List Char → Prop where
  | stop {cs : List Char} (h : reader cs = none) : Run reader cs [] cs
  | step {cs more rest : List Char} {a : α} {as : List α} (h : reader cs = some (a, more))
    (hshorter : more.length < cs.length) (hmore : Run reader more as rest) :
    Run reader cs (a :: as) rest

theorem Run.length_le {as : List α} (h : Run reader cs as rest) : rest.length ≤ cs.length := by
  induction h with
  | stop => exact Nat.le_refl _
  | step _ hshorter _ ih => exact Nat.le_trans ih (Nat.le_of_lt hshorter)

theorem upTo_apply {as : List α} (h : Run reader cs as rest) {limit : Nat}
    (hlimit : cs.length ≤ limit) : upTo reader limit cs = some (as, rest) := by
  induction h generalizing limit with
  | @stop cs h =>
    cases limit with
    | zero => rfl
    | succ limit => rw [upTo, orElse_apply, bind_apply, h]; rfl
  | @step cs more rest a as h hshorter _ ih =>
    obtain ⟨limit, rfl⟩ := Nat.exists_eq_succ_of_ne_zero (n := limit) (by omega)
    rw [upTo, orElse_apply, bind_apply, h, Option.bind_some, bind_apply, ih (by omega)]
    rfl

theorem many_apply {as : List α} (h : Run reader cs as rest) :
    many reader cs = some (as, rest) :=
  upTo_apply h (Nat.le_refl _)

/-- Nothing that separates follows the first thing, so it is the only one. -/
theorem separated_apply {separator : Reader Unit} {a : α} (h : reader cs = some (a, rest))
    (hrest : separator rest = none) : separated separator reader cs = some ([a], rest) := by
  have hmany : many (separator *> reader) rest = some ([], rest) :=
    many_apply (.stop (by rw [seqRight_apply, hrest]; rfl))
  rw [separated, bind_apply, h, Option.bind_some, bind_apply, hmany]
  rfl

end SchemaTidy.Toml.Reader
