import SchemaTidy.Toml.Read
import SchemaTidy.Proofs.Toml.Value

/-! # Statements of TOML documents, written and read

Main statement: `read_sectionsText`. Statements with their values on a line each, in sections
with a blank line between them, read back as they were written. -/

namespace SchemaTidy.Toml
open Reader

variable {cs rest : List Char}

/-! ## Keys -/

theorem isInk_of_isBareKey {c : Char} (h : isBareKey c = true) : isInk c = true :=
  isInk_of_passes h (by decide)

/-- A key starts with one of its own characters or with a quote. -/
theorem exists_cons_keyText (key : String) :
    ∃ c more, keyText key = c :: more ∧ (isBareKey c = true ∨ c = '"') := by
  unfold keyText
  dsimp only
  split
  next h =>
    rw [Bool.and_eq_true, Bool.not_eq_true', List.isEmpty_eq_false_iff, List.all_eq_true] at h
    obtain ⟨c, more, hkey⟩ := List.exists_cons_of_ne_nil h.1
    exact ⟨c, more, hkey, .inl (h.2 c (hkey ▸ List.mem_cons_self))⟩
  · exact ⟨_, _, rfl, .inr rfl⟩

theorem readSimpleKey_keyText (key : String) (hrest : ∀ c ∈ rest.head?, isBareKey c = false) :
    readSimpleKey (keyText key ++ rest) = some (key, rest) := by
  unfold keyText
  dsimp only
  rw [readSimpleKey, orElse_apply, map_apply]
  split
  next h =>
    rw [Bool.and_eq_true, Bool.not_eq_true', List.isEmpty_eq_false_iff, List.all_eq_true] at h
    rw [takeSome_apply h.2 h.1 hrest, Option.map_some, String.ofList_toList]
    rfl
  next =>
    have hquote : takeSome isBareKey (basicText key.toList ++ rest) = none :=
      takeSome_eq_none fun c hc => by cases hc; rfl
    rw [hquote, readShort_basicText, String.ofList_toList]
    rfl

/-- A part of a key, with blanks around it. -/
def keyPart : Reader String := gap *> readSimpleKey <* gap

theorem gap_apply {n : Nat} (h : Inked cs) : gap (List.replicate n ' ' ++ cs) = some ((), cs) := by
  rw [gap, discard_apply, takeWhile_apply (fun c hc => by rw [List.eq_of_mem_replicate hc]; rfl)
    fun c hc => (isInk_iff.1 (h c hc)).1]
  rfl

theorem Inked.gap (h : Inked cs) : gap cs = some ((), cs) := gap_apply (n := 0) h

/-- What follows a key: blanks, if any, and then neither a blank nor a part of the key. -/
structure EndsKey (rest after : List Char) : Prop where
  not_bare : ∀ c ∈ rest.head?, isBareKey c = false
  gap : gap rest = some ((), after)
  not_dot : after.head? ≠ some '.'

theorem endsKey_of_inked (h : Inked rest) (hbare : ∀ c ∈ rest.head?, isBareKey c = false)
    (hdot : rest.head? ≠ some '.') : EndsKey rest rest := ⟨hbare, h.gap, hdot⟩

theorem inked_keyText (key : String) (rest : List Char) : Inked (keyText key ++ rest) := by
  obtain ⟨c, more, hkey, hc⟩ := exists_cons_keyText key
  rw [hkey]
  exact inked_cons (hc.elim isInk_of_isBareKey fun h => h ▸ rfl) _

theorem keyPart_apply (key : String) {after : List Char}
    (hbare : ∀ c ∈ rest.head?, isBareKey c = false) (hgap : gap rest = some ((), after)) :
    keyPart (keyText key ++ rest) = some (key, after) := by
  rw [keyPart, seqLeft_apply, seqRight_apply, (inked_keyText key rest).gap, Option.bind_some,
    readSimpleKey_keyText key hbare, Option.bind_some, hgap]
  rfl

/-- The parts of a key behind the first one, each with its point. -/
def dotted (path : List String) : List Char := path.flatMap fun key => '.' :: keyText key

theorem pathText_cons (key : String) (path : List String) :
    pathText (key :: path) = keyText key ++ dotted path := by
  induction path generalizing key with
  | nil => simp [pathText, dotted]
  | cons next path ih =>
    have hnext := ih next
    simp only [pathText, List.map_cons] at hnext ⊢
    rw [List.intercalate_cons_cons, hnext]
    simp [dotted]

theorem keyPart_dotted (key : String) (path : List String) (h : EndsKey rest rest) :
    keyPart (keyText key ++ (dotted path ++ rest)) = some (key, dotted path ++ rest) := by
  cases path with
  | nil => exact keyPart_apply key h.not_bare h.gap
  | cons next path =>
    refine keyPart_apply key (fun c hc => ?_) (inked_cons (c := '.') rfl _).gap
    cases hc
    rfl

theorem run_dotted (path : List String) (h : EndsKey rest rest) :
    Run (char '.' *> keyPart) (dotted path ++ rest) path rest := by
  induction path with
  | nil =>
    refine .stop ?_
    rw [dotted, List.flatMap_nil, List.nil_append, seqRight_apply, char_eq_none h.not_dot]
    rfl
  | cons key path ih =>
    have hdotted :
        dotted (key :: path) ++ rest = '.' :: (keyText key ++ (dotted path ++ rest)) := by
      simp [dotted]
    rw [hdotted]
    refine .step ?_ ?_ ih
    · rw [seqRight_apply, char_cons, Option.bind_some, keyPart_dotted key path h]
    · simp only [List.length_append, List.length_cons]
      omega

/-- A key that can be read: it has parts, and not too many. -/
def IsPath (path : List String) : Prop := path ≠ [] ∧ path.length < depthLimit

instance (path : List String) : Decidable (IsPath path) := inferInstanceAs (Decidable (_ ∧ _))

theorem readKey_pathText {path : List String} (hpath : IsPath path) (h : EndsKey rest rest) :
    readKey (pathText path ++ rest) = some (path, rest) := by
  obtain ⟨hne, hlength⟩ := hpath
  obtain ⟨key, path, rfl⟩ := List.exists_cons_of_ne_nil hne
  have hparts : separated (char '.') keyPart (pathText (key :: path) ++ rest) =
      some (key :: path, rest) := by
    rw [pathText_cons, List.append_assoc, separated, bind_apply, keyPart_dotted key path h,
      Option.bind_some, bind_apply, many_apply (run_dotted path h)]
    rfl
  rw [readKey, bind_apply]
  change (separated (char '.') keyPart _).bind _ = _
  rw [hparts, Option.bind_some, if_pos hlength]
  rfl

theorem readKey_keyText (key : String) {after : List Char} (h : EndsKey rest after) :
    readKey (keyText key ++ rest) = some ([key], after) := by
  have hsingle := separated_apply (keyPart_apply key h.not_bare h.gap) (char_eq_none h.not_dot)
  rw [readKey, bind_apply]
  change (separated (char '.') keyPart _).bind _ = _
  rw [hsingle]
  rfl

/-! ## Statements -/

def Statement.text : Statement → List Char
  | .header path => '[' :: pathText path ++ [']']
  | .element path => "[[".toList ++ pathText path ++ "]]".toList
  | .entry path value => pathText path ++ " = ".toList ++ value.text

/-- The statements that settings are written with. -/
inductive Statement.Legible : Statement → Prop where
  | header {path : List String} (h : IsPath path) : Legible (.header path)
  | element {path : List String} (h : IsPath path) : Legible (.element path)
  | entry (key : String) {v : Value} (h : Toml.Legible v) : Legible (.entry [key] v)

theorem exists_cons_pathText {path : List String} (h : path ≠ []) :
    ∃ c more, pathText path = c :: more ∧ (isBareKey c = true ∨ c = '"') := by
  obtain ⟨key, path, rfl⟩ := List.exists_cons_of_ne_nil h
  obtain ⟨c, more, hkey, hc⟩ := exists_cons_keyText key
  exact ⟨c, more ++ dotted path, by rw [pathText_cons, hkey]; rfl, hc⟩

/-- A key does not start with a bracket. -/
theorem char_pathText {path : List String} (h : path ≠ []) (rest : List Char) :
    char '[' (pathText path ++ rest) = none := by
  obtain ⟨c, more, hpath, hc⟩ := exists_cons_pathText h
  rw [hpath]
  refine char_eq_none fun heq => ?_
  cases heq
  revert hc
  decide

theorem endsKey_bracket (rest : List Char) : EndsKey (']' :: rest) (']' :: rest) :=
  endsKey_of_inked (inked_cons rfl _) (fun c hc => by cases hc; rfl) (by simp)

theorem readStatement_header {path : List String} (hpath : IsPath path) (rest : List Char) :
    readStatement ((Statement.header path).text ++ '\n' :: rest) =
      some (.header path, '\n' :: rest) := by
  have hkey := readKey_pathText hpath (endsKey_bracket ('\n' :: rest))
  -- one bracket is not taken for two
  have hopen : literal ['[', '['] ('[' :: (pathText path ++ ']' :: '\n' :: rest)) = none := by
    change (char '[' ('[' :: _)).bind (fun x => literal ['['] x.2) = none
    rw [char_cons, Option.bind_some]
    exact literal_cons_eq_none (char_pathText hpath.1 _) []
  have htext : (Statement.header path).text ++ '\n' :: rest =
      '[' :: (pathText path ++ ']' :: '\n' :: rest) := by
    simp [Statement.text]
  rw [htext, readStatement, orElse_apply, map_apply, seqLeft_apply, seqRight_apply, hopen,
    orElse_apply, map_apply, seqLeft_apply, seqRight_apply, char_cons, Option.bind_some, hkey,
    Option.bind_some, char_cons]
  rfl

theorem readStatement_element {path : List String} (hpath : IsPath path) (rest : List Char) :
    readStatement ((Statement.element path).text ++ '\n' :: rest) =
      some (.element path, '\n' :: rest) := by
  have hkey := readKey_pathText hpath (endsKey_bracket (']' :: '\n' :: rest))
  have hopen := literal_append ['[', '['] (pathText path ++ ']' :: ']' :: '\n' :: rest)
  have hclose := literal_append [']', ']'] ('\n' :: rest)
  have htext : (Statement.element path).text ++ '\n' :: rest =
      ['[', '['] ++ (pathText path ++ ']' :: ']' :: '\n' :: rest) := by
    simp [Statement.text]
  rw [htext, readStatement, orElse_apply, map_apply, seqLeft_apply, seqRight_apply, hopen,
    Option.bind_some, hkey, Option.bind_some]
  change (((literal [']', ']'] ([']', ']'] ++ '\n' :: rest)).map _).map _).or _ = _
  rw [hclose]
  rfl

theorem readStatement_entry (key : String) {v : Value} (hv : Toml.Legible v) (rest : List Char) :
    readStatement ((Statement.entry [key] v).text ++ '\n' :: rest) =
      some (.entry [key] v, '\n' :: rest) := by
  have hends : EndsValue ('\n' :: rest) := fun c hc => by cases hc; decide
  have hvalue : readValue depthLimit (v.text ++ '\n' :: rest) = some (v, '\n' :: rest) :=
    readValue_text hv hends 78
  have hgap : gap (' ' :: (v.text ++ '\n' :: rest)) = some ((), v.text ++ '\n' :: rest) :=
    gap_apply (n := 1) (hv.inked _)
  have hkey : readKey (keyText key ++ ' ' :: '=' :: ' ' :: (v.text ++ '\n' :: rest)) =
      some ([key], '=' :: ' ' :: (v.text ++ '\n' :: rest)) :=
    readKey_keyText key ⟨fun c hc => by cases hc; rfl,
      gap_apply (n := 1) (inked_cons (c := '=') rfl _), by simp⟩
  have htext : (Statement.entry [key] v).text ++ '\n' :: rest =
      keyText key ++ ' ' :: '=' :: ' ' :: (v.text ++ '\n' :: rest) := by
    simp [Statement.text, pathText]
  have hnot := char_pathText (List.cons_ne_nil key [])
    (' ' :: '=' :: ' ' :: (v.text ++ '\n' :: rest))
  rw [pathText_cons, dotted, List.flatMap_nil, List.append_nil] at hnot
  rw [htext, readStatement, orElse_apply, map_apply, seqLeft_apply, seqRight_apply,
    literal_cons_eq_none hnot, orElse_apply, map_apply, seqLeft_apply, seqRight_apply, hnot,
    bind_apply, hkey, Option.bind_some, bind_apply, char_cons, Option.bind_some, bind_apply, hgap,
    Option.bind_some, bind_apply, hvalue]
  rfl

theorem readStatement_text {s : Statement} (h : s.Legible) (rest : List Char) :
    readStatement (s.text ++ '\n' :: rest) = some (s, '\n' :: rest) := by
  cases h with
  | header hpath => exact readStatement_header hpath rest
  | element hpath => exact readStatement_element hpath rest
  | entry key hv => exact readStatement_entry key hv rest

/-- The characters that a statement may start with: a bracket, or the first one of a key. -/
def isOpening (c : Char) : Bool := c == '[' || isBareKey c || c == '"'

/-- A text goes on with a statement, or ends. -/
def Opens (cs : List Char) : Prop := ∀ c ∈ cs.head?, isOpening c = true

theorem Opens.inked (h : Opens cs) : Inked cs := fun c hc =>
  isInk_of_passes (h c hc) (by decide)

theorem Statement.Legible.opens {s : Statement} (h : s.Legible) (rest : List Char) :
    Opens (s.text ++ rest) := by
  cases h with
  | header | element => exact fun c hc => by cases hc; rfl
  | entry key =>
    obtain ⟨c, more, hpath, hc⟩ := exists_cons_pathText (List.cons_ne_nil key [])
    rw [text, hpath]
    intro d hd
    cases hd
    rcases hc with hc | rfl
    · rw [isOpening, hc, Bool.or_true, Bool.true_or]
    · rfl

/-! ## Sections -/

/-- A statement with the rest of its line and the blank lines behind it. -/
def statementLine : Reader Statement := readStatement <* endOfLine <* blankLines

theorem statementLine_text {s : Statement} (h : s.Legible) (hblanks : Blanks cs rest) :
    statementLine (s.text ++ '\n' :: cs) = some (s, rest) := by
  have hend : endOfLine ('\n' :: cs) = some ((), cs) := rfl
  rw [statementLine, seqLeft_apply, seqLeft_apply, readStatement_text h, Option.bind_some, hend,
    Option.map_some, Option.bind_some, hblanks.blankLines]
  rfl

/-- The text of statements, each on a line of its own. -/
def sectionText (statements : List Statement) : List Char :=
  statements.flatMap fun s => s.text ++ ['\n']

theorem sectionText_cons (s : Statement) (statements : List Statement) (rest : List Char) :
    sectionText (s :: statements) ++ rest = s.text ++ '\n' :: (sectionText statements ++ rest) := by
  simp [sectionText]

/-- Statements that can be read, at least one. -/
structure LegibleSection (statements : List Statement) : Prop where
  ne_nil : statements ≠ []
  legible : ∀ s ∈ statements, s.Legible

theorem LegibleSection.opens {statements : List Statement} (h : LegibleSection statements)
    (rest : List Char) : Opens (sectionText statements ++ rest) := by
  obtain ⟨s, more, rfl⟩ := List.exists_cons_of_ne_nil h.ne_nil
  rw [sectionText_cons]
  exact (h.legible s List.mem_cons_self).opens _

/-- What follows the last statement of a section is read behind the section. -/
theorem run_sectionText {statements more : List Statement} (h : LegibleSection statements)
    (hblanks : Blanks cs rest) (hmore : Run statementLine rest more []) :
    Run statementLine (sectionText statements ++ cs) (statements ++ more) [] := by
  obtain ⟨hne, hlegible⟩ := h
  induction statements with
  | nil => exact absurd rfl hne
  | cons s statements ih =>
    have hs := hlegible s List.mem_cons_self
    rw [sectionText_cons, List.cons_append]
    cases statements with
    | nil =>
      have hshorter : rest.length ≤ cs.length := hblanks.elim fun _ hus => hus.length_le
      refine .step (statementLine_text hs hblanks) ?_ hmore
      simp only [List.length_append, List.length_cons]
      omega
    | cons t statements =>
      have hrest : LegibleSection (t :: statements) :=
        ⟨List.cons_ne_nil _ _, fun s hs => hlegible s (List.mem_cons_of_mem _ hs)⟩
      refine .step (statementLine_text hs (hrest.opens cs).inked.blanks) ?_
        (ih hrest.ne_nil hrest.legible)
      simp only [List.length_append, List.length_cons]
      omega

/-- The text of a document: its sections, with blank lines between them. -/
def sectionsText (parts : List (List Statement)) : List Char :=
  ['\n'].intercalate (parts.map sectionText)

variable {parts : List (List Statement)}

theorem sectionsText_singleton (statements : List Statement) :
    sectionsText [statements] = sectionText statements ++ [] := by
  simp [sectionsText]

theorem sectionsText_cons_cons (statements next : List Statement) :
    sectionsText (statements :: next :: parts) =
      sectionText statements ++ '\n' :: sectionsText (next :: parts) := by
  rw [sectionsText, List.map_cons, List.map_cons, List.intercalate_cons_cons, List.append_assoc]
  rfl

theorem opens_sectionsText (h : ∀ statements ∈ parts, LegibleSection statements) :
    Opens (sectionsText parts) := by
  match parts with
  | [] => nofun
  | [statements] =>
    rw [sectionsText_singleton]
    exact (h statements List.mem_cons_self).opens _
  | statements :: next :: parts =>
    rw [sectionsText_cons_cons]
    exact (h statements List.mem_cons_self).opens _

theorem run_sectionsText (h : ∀ statements ∈ parts, LegibleSection statements) :
    Run statementLine (sectionsText parts) parts.flatten [] := by
  induction parts with
  | nil => exact .stop rfl
  | cons statements parts ih =>
    have hrest := fun s hs => h s (List.mem_cons_of_mem _ hs)
    have hhere := h statements List.mem_cons_self
    cases parts with
    | nil =>
      have hend : Blanks [] [] := Inked.blanks nofun
      rw [sectionsText_singleton]
      exact run_sectionText hhere hend (ih nofun)
    | cons next parts =>
      rw [sectionsText_cons_cons]
      exact run_sectionText hhere (opens_sectionsText hrest).inked.blanks.feed (ih hrest)

/-- **Sections of statements read back.** -/
theorem read_sectionsText (h : ∀ statements ∈ parts, LegibleSection statements) :
    read (String.ofList (sectionsText parts)) =
      (Outline.ofStatements parts.flatten).map (·.table) := by
  have hopens := opens_sectionsText h
  have hread : whole readStatements (sectionsText parts) = some parts.flatten := by
    have hrun : readStatements (sectionsText parts) = some (parts.flatten, []) := by
      rw [readStatements, bind_apply, hopens.inked.blanks.blankLines]
      exact many_apply (run_sectionsText h)
    change ((readStatements <* endOfText) (sectionsText parts)).map (·.1) = _
    rw [seqLeft_apply, hrun]
    rfl
  rw [read, String.toList_ofList]
  split
  next heq =>
    -- a statement does not start with a mark of the byte order
    rw [heq] at hopens
    exact absurd (hopens _ rfl) (by decide)
  next =>
    rw [hread, Option.map_eq_bind]
    rfl

/-! ## Tables without sections -/

/-- A table whose values all stand on the lines of their keys. -/
def Plain (t : Table) : Prop := ∀ e ∈ t, Legible e.2

/-- The statements for the entries of a table. -/
def entries (t : Table) : List Statement := t.map fun e => .entry [e.1] e.2

variable {t : Table}

theorem Legible.not_isSection {v : Value} (h : Legible v) : v.isSection = false := by
  cases h with
  | scalar h => cases h <;> rfl
  | @list items h =>
    cases items with
    | nil => rfl
    | cons v items => cases h v List.mem_cons_self <;> rfl

theorem Plain.ownEntries (h : Plain t) : ownEntries t = t :=
  List.filter_eq_self.2 fun e he => by rw [(h e he).not_isSection]; rfl

theorem Legible.sections {v : Value} (h : Legible v) (path : List String) :
    v.sections path = [] := by
  have hnot := h.not_isSection
  cases h with
  | scalar h => cases h <;> rfl
  | list h =>
    rw [Value.isSection, Bool.or_eq_false_iff] at hnot
    rw [Value.sections, hnot.2]
    rfl

theorem Plain.sections (h : Plain t) (path : List String) : sections path t = [] := by
  induction t with
  | nil => rfl
  | cons e t ih =>
    rw [Toml.sections, (h e List.mem_cons_self).sections,
      ih fun e he => h e (List.mem_cons_of_mem _ he)]
    rfl

theorem entryTexts_eq (t : Table) :
    entryTexts t = t.map fun e => (Statement.entry [e.1] e.2).text := by
  induction t with
  | nil => rfl
  | cons e t ih =>
    rw [entryTexts, ih, List.map_cons, Statement.text, pathText]
    simp

theorem bodyText_eq (t : Table) : bodyText t = sectionText (entries (ownEntries t)) := by
  rw [bodyText, entryTexts_eq, sectionText, entries, List.flatMap_map, List.flatMap_map]

/-- A table has a header when it has entries of its own. -/
theorem tableSection_eq (h : ownEntries t ≠ []) (path : List String) :
    tableSection path t = [sectionText (.header path :: entries (ownEntries t))] := by
  rw [tableSection, List.isEmpty_eq_false_iff.2 h, bodyText_eq]
  simp [sectionText, Statement.text]

theorem Plain.tableSection (h : Plain t) (hne : t ≠ []) (path : List String) :
    tableSection path t = [sectionText (.header path :: entries t)] := by
  have hown := h.ownEntries
  rw [tableSection_eq (hown.symm ▸ hne), hown]

theorem elementSection_eq (path : List String) (t : Table) :
    elementSection path t = sectionText (.element path :: entries (ownEntries t)) := by
  rw [elementSection, bodyText_eq]
  simp [sectionText, Statement.text]

theorem Plain.legible (h : Plain t) : ∀ s ∈ entries t, s.Legible := by
  intro s hs
  obtain ⟨e, he, rfl⟩ := List.mem_map.1 hs
  exact .entry e.1 (h e he)

/-- Counts have 63 bits, so that they can be written. -/
theorem Scalar.isWritable {v : Value} (h : Scalar v) : v.isWritable = true := by
  cases h with
  | count h => exact isInteger_natCast h
  | _ => rfl

theorem allWritable_iff {items : List Value} :
    allWritable items = true ↔ ∀ v ∈ items, v.isWritable = true := by
  induction items with
  | nil => simp [allWritable]
  | cons v items ih => rw [allWritable, Bool.and_eq_true, ih, List.forall_mem_cons]

theorem tableIsWritable_iff {t : Table} :
    tableIsWritable t = true ↔ ∀ e ∈ t, e.2.isWritable = true := by
  induction t with
  | nil => simp [tableIsWritable]
  | cons e t ih => rw [tableIsWritable, Bool.and_eq_true, ih, List.forall_mem_cons]

theorem Legible.isWritable {v : Value} (h : Legible v) : v.isWritable = true := by
  cases h with
  | scalar h => exact h.isWritable
  | list h => exact allWritable_iff.2 fun v hv => (h v hv).isWritable

theorem Plain.isWritable (h : Plain t) : (Value.table t).isWritable = true :=
  tableIsWritable_iff.2 fun e he => (h e he).isWritable

end SchemaTidy.Toml
