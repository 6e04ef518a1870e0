import SchemaTidy.Proofs.Dedupe.BlockLines

/-! # The outline of a block

The lines with structure of a block in block style: the header of each field, and what stands
under it. The scans for sections, class blocks and references follow this outline. -/

namespace SchemaTidy.Dedupe
open Source Text Yaml
open Yaml.Lexer (isBlankText LineEnd)

variable {s : Shape} {n k : Nat} {below ls after : List Line} {b : Block s} {indent : Nat}
  {value : Option Leaf} {cs : List Char}

/-! ## Columns -/

/-- The lines with structure, numbered from here on. -/
def structural (k : Nat) (ls : List Line) : List (Line × Nat) := (ls.zipIdx k).filter isStructural

theorem structural_append (front back : List Line) (k : Nat) :
    structural k (front ++ back) = structural k front ++ structural (k + front.length) back := by
  rw [structural, List.zipIdx_append, List.filter_append]
  rfl

theorem structural_cons_of_pos {l : Line} (h : l.isSignificant = true) (k : Nat) (ls : List Line) :
    structural k (l :: ls) = (l, k) :: structural (k + 1) ls := by
  have hyes : isStructural (l, k) = true := h
  rw [structural, List.zipIdx_cons, List.filter_cons_of_pos hyes]
  rfl

theorem structural_cons_of_blank {l : Line} (h : isBlankText l.content = true) (k : Nat)
    (ls : List Line) : structural k (l :: ls) = structural (k + 1) ls := by
  have hno : ¬ isStructural (l, k) = true := by
    rw [isStructural, Line.not_isSignificant_of_blankText h]
    exact Bool.false_ne_true
  rw [structural, List.zipIdx_cons, List.filter_cons_of_neg hno]
  rfl

theorem mem_structural {a : Line × Nat} (h : a ∈ structural k ls) :
    a.1 ∈ ls ∧ a.1.isSignificant = true := by
  obtain ⟨hmem, hstructural⟩ := List.mem_filter.1 h
  exact ⟨List.fst_mem_of_mem_zipIdx hmem, hstructural⟩

theorem indent_of_key {key : Words} (hkey : key.IsKey) {l : Line} {cs : List Char}
    (hl : Indented l n (key.text ++ ':' :: cs)) : l.indent = n := by
  obtain ⟨ch, ks, htext, hgap, -⟩ := hkey.exists_cons
  rw [htext] at hl
  exact (hl.cut (by rintro rfl; cases hgap)).1

theorem le_indent_of_textLine {l : Line} (h : Scalar.isTextLine n l = true)
    (hsignificant : l.isSignificant = true) : n ≤ l.indent := by
  rcases Scalar.isTextLine_cases h with ⟨j, -, hcontent, -⟩ | ⟨d, ds, hindented, -, -⟩
  · rw [Line.not_isSignificant_of_blankText (hcontent ▸ isBlankText_spaces j)] at hsignificant
    cases hsignificant
  · rw [Line.indent, hindented, List.takeWhile_append_of_pos (by simp), List.length_append,
      List.length_replicate]
    exact Nat.le_add_right _ _

theorem le_indent_of_holds (h : Holds n cs below after value) :
    ∀ l ∈ below, l.isSignificant = true → n + 2 ≤ l.indent := by
  cases h with
  | none | inline => exact fun l hl => absurd hl List.not_mem_nil
  | text k hheads => exact fun l hl => le_indent_of_textLine (hheads.lines l hl)

/-- No line of a block is indented less than the block. -/
theorem le_indent_of_lays (h : Lays n ls after b) : ∀ l ∈ ls, l.isSignificant = true → n ≤ l.indent := by
  have hdash {n : Nat} {l : Line} {cs : List Char} (hl : Indented l n ('-' :: cs)) :
      l.isSignificant = true → n ≤ l.indent := fun _ => (hl.cut (by decide)).1.ge
  have hdeeper {n : Nat} {inside : List Line}
      (h : ∀ l ∈ inside, l.isSignificant = true → n + 2 ≤ l.indent) :
      ∀ l ∈ inside, l.isSignificant = true → n ≤ l.indent := fun l hl hsignificant =>
    Nat.le_trans (Nat.le_add_right n 2) (h l hl hsignificant)
  induction h with
  | nil => exact fun l hl => absurd hl List.not_mem_nil
  | filler hl h ih =>
    refine List.forall_mem_cons.2 ⟨fun hsignificant => ?_, ih⟩
    rw [Line.not_isSignificant_of_blankText hl] at hsignificant
    cases hsignificant
  | entry hkey hl hcs h ih =>
    exact List.forall_mem_cons.2 ⟨fun _ => (indent_of_key hkey hl).ge,
      List.forall_mem_append.2 ⟨hdeeper (le_indent_of_holds hcs), ih⟩⟩
  | nested hkey hl htail hinside hinner h ihinside ih =>
    exact List.forall_mem_cons.2 ⟨fun _ => (indent_of_key hkey hl).ge,
      List.forall_mem_append.2 ⟨hdeeper ihinside, ih⟩⟩
  | flush hkey hl htail hinside hinner h ihinside ih =>
    exact List.forall_mem_cons.2 ⟨fun _ => (indent_of_key hkey hl).ge,
      List.forall_mem_append.2 ⟨ihinside, ih⟩⟩
  | item hl hcs h ih =>
    exact List.forall_mem_cons.2 ⟨hdash hl,
      List.forall_mem_append.2 ⟨hdeeper (le_indent_of_holds hcs), ih⟩⟩
  | itemBelow hl htail hinside hinner h ihinside ih =>
    exact List.forall_mem_cons.2 ⟨hdash hl, List.forall_mem_append.2 ⟨hdeeper ihinside, ih⟩⟩
  | itemBeside hl hfirst hterm hstart hinside h ihinside ih =>
    exact List.forall_mem_cons.2 ⟨hdash hl,
      List.forall_mem_append.2 ⟨hdeeper (List.forall_mem_cons.1 ihinside).2, ih⟩⟩

theorem keyAt_of_lt {l : Line} (h : l.isSignificant = true → n ≤ l.indent) (hlt : indent < n) :
    keyAt indent l = none := by
  cases hkey : keyAt indent l with
  | none => rfl
  | some key =>
    obtain ⟨hindent, hsome⟩ := keyAt_eq_some_iff.1 hkey
    have hle := h (Line.isSignificant_of_key hsome)
    omega

theorem keyAt_of_item {l : Line} {value : Option Piece} (h : l.kind = .item value) :
    keyAt indent l = none := by
  unfold keyAt Line.key
  rw [h]
  split <;> rfl

theorem keyAt_of_blankText {l : Line} (h : isBlankText l.content = true) : keyAt n l = none := by
  refine keyAt_of_not_structural (a := (l, 0)) ?_
  rw [isStructural, Line.not_isSignificant_of_blankText h]
  exact Bool.false_ne_true

theorem keyAt_of_key {l : Line} (h : l.key = none) : keyAt n l = none := by
  rw [keyAt, h, ite_self]

/-- The items of a list are no keys, and nothing inside of them stands at the column of the list. -/
theorem keyAt_of_list (h : Lays n ls after b) (hs : s = .sequence) : ∀ l ∈ ls, keyAt n l = none := by
  have hdash {n : Nat} {l : Line} {cs : List Char} (hl : Indented l n ('-' :: cs))
      (hcs : cs = [] ∨ ∃ rest, cs = ' ' :: rest) : keyAt n l = none :=
    keyAt_of_item (Line.kind_of_dash hl hcs).2
  have hdeeper {n : Nat} {inside : List Line}
      (h : ∀ l ∈ inside, l.isSignificant = true → n + 2 ≤ l.indent) :
      ∀ l ∈ inside, keyAt n l = none := fun l hl => keyAt_of_lt (h l hl) (by omega)
  induction h with
  | nil => exact fun l hl => absurd hl List.not_mem_nil
  | filler hl h ih => exact List.forall_mem_cons.2 ⟨keyAt_of_blankText hl, ih hs⟩
  | entry | nested | flush => cases hs
  | item hl hcs h ih =>
    exact List.forall_mem_cons.2 ⟨hdash hl (head_of_holds hcs),
      List.forall_mem_append.2 ⟨hdeeper (le_indent_of_holds hcs), ih hs⟩⟩
  | itemBelow hl htail hinside hinner h ihinside ih =>
    exact List.forall_mem_cons.2 ⟨hdash hl (head_of_lineEnd htail),
      List.forall_mem_append.2 ⟨hdeeper (le_indent_of_lays hinside), ih hs⟩⟩
  | itemBeside hl hfirst hterm hstart hinside h ihinside ih =>
    exact List.forall_mem_cons.2 ⟨hdash hl (.inr ⟨_, rfl⟩),
      List.forall_mem_append.2
        ⟨(List.forall_mem_cons.1 (hdeeper (le_indent_of_lays hinside))).2, ih hs⟩⟩

theorem isSignificant_of_item {l : Line} {value : Option Piece} (h : l.kind = .item value) :
    l.isSignificant = true := by
  rw [Line.isSignificant, h]

/-- A list starts at its column. -/
theorem structural_list (h : Lays n ls after b) (hs : s = .sequence) (k : Nat) :
    structural k ls = [] ∨ ∃ a rest, structural k ls = a :: rest ∧ a.1.closes n = true := by
  have hdash {n k : Nat} {l : Line} {cs : List Char} {ls : List Line}
      (hl : Indented l n ('-' :: cs)) (hcs : cs = [] ∨ ∃ rest, cs = ' ' :: rest) :
      ∃ a rest, structural k (l :: ls) = a :: rest ∧ a.1.closes n = true := by
    obtain ⟨hindent, hkind⟩ := Line.kind_of_dash hl hcs
    have hsignificant := isSignificant_of_item hkind
    exact ⟨_, _, structural_cons_of_pos hsignificant k ls, by
      rw [Line.closes, hsignificant, hindent]; simp⟩
  induction h generalizing k with
  | nil => exact .inl rfl
  | filler hl h ih =>
    rw [structural_cons_of_blank hl]
    exact ih hs (k + 1)
  | entry | nested | flush => cases hs
  | item hl hcs h ih => exact .inr (hdash hl (head_of_holds hcs))
  | itemBelow hl htail hinside hinner h ihinside ih => exact .inr (hdash hl (head_of_lineEnd htail))
  | itemBeside hl hfirst hterm hstart hinside h ihinside ih => exact .inr (hdash hl (.inr ⟨_, rfl⟩))

/-! ## Outlines -/

/-- The lines under the header of a field at a column. -/
inductive Under (n : Nat) (l : Line) : List (Line × Nat) → Content → Prop where
  | leaf {value : Option Leaf} {cs : List Char} {start k : Nat} {below after : List Line}
    (hcs : Holds n cs below after value) (hvalue : l.value = scalar? start cs) :
    Under n l (structural k below) (.leaf value)
  | nested {s : Shape} {k : Nat} {inside after : List Line} {inner : Block s}
    (hvalue : l.value = none) (h : Lays (n + 2) inside after inner) :
    Under n l (structural k inside) (.nested inner)
  | flush {k : Nat} {inside after : List Line} {inner : Block .sequence} (hvalue : l.value = none)
    (h : Lays n inside after inner) : Under n l (structural k inside) (.flush inner)

/-- The lines of fields at a column: the header of each, and what is under it. -/
inductive Outline (n : Nat) : List (Line × Nat) → List Field → Prop where
  | nil : Outline n [] []
  | field {l : Line} {i : Nat} {xs ys : List (Line × Nat)} {f : Field} {fs : List Field}
    {key : Piece} (hkey : keyAt n l = some key) (htext : key.text = f.key.text)
    (hunder : Under n l xs f.content) (h : Outline n ys fs) :
    Outline n ((l, i) :: (xs ++ ys)) (f :: fs)

/-- A line with a name and a colon is a header at its column. -/
theorem header_of_name {l : Line} {key : Words} (hname : IsName key.text)
    (hl : Indented l n (key.text ++ ':' :: cs)) (hcs : cs = [] ∨ ∃ rest, cs = ' ' :: rest) :
    l.isSignificant = true ∧ keyAt n l = some ⟨n, key.text⟩ ∧
      l.value = scalar? (n + width key.text + 1) cs := by
  obtain ⟨hindent, hkind⟩ := Line.kind_of_name hname hl (separates_of_head hcs)
  refine ⟨by rw [Line.isSignificant, hkind], ?_, by rw [Line.value, hkind]⟩
  rw [keyAt, if_pos hindent, Line.key, hkind]

theorem outline_of_lays (h : Lays n ls after b) (hs : s = .mapping)
    (hnames : ∀ f ∈ b.fields, IsName f.key.text) (k : Nat) : Outline n (structural k ls) b.fields := by
  induction h generalizing k with
  | @nil s n =>
    cases s with
    | mapping => exact .nil
    | sequence => cases hs
  | filler hl h ih =>
    rw [structural_cons_of_blank hl]
    exact ih hs hnames (k + 1)
  | entry hkey hl hcs h ih =>
    obtain ⟨hname, hnames⟩ := List.forall_mem_cons.1 hnames
    obtain ⟨hsignificant, hheader, hvalue⟩ := header_of_name hname hl (head_of_holds hcs)
    rw [structural_cons_of_pos hsignificant, structural_append]
    exact .field hheader rfl (.leaf hcs hvalue) (ih hs hnames _)
  | nested hkey hl htail hinside hinner h ihinside ih =>
    obtain ⟨hname, hnames⟩ := List.forall_mem_cons.1 hnames
    obtain ⟨hsignificant, hheader, hvalue⟩ := header_of_name hname hl (head_of_lineEnd htail)
    rw [scalar?_blankText htail.blank] at hvalue
    rw [structural_cons_of_pos hsignificant, structural_append]
    exact .field hheader rfl (.nested hvalue hinside) (ih hs hnames _)
  | flush hkey hl htail hinside hinner h ihinside ih =>
    obtain ⟨hname, hnames⟩ := List.forall_mem_cons.1 hnames
    obtain ⟨hsignificant, hheader, hvalue⟩ := header_of_name hname hl (head_of_lineEnd htail)
    rw [scalar?_blankText htail.blank] at hvalue
    rw [structural_cons_of_pos hsignificant, structural_append]
    exact .field hheader rfl (.flush hvalue hinside) (ih hs hnames _)
  | item | itemBelow | itemBeside => cases hs

/-! ## Scans -/

variable {xs ys : List (Line × Nat)} {fs : List Field} {l : Line} {c : Content}

/-- What is under a field is its body, but for items that are flush with it. -/
def Content.body (c : Content) (xs : List (Line × Nat)) : List (Line × Nat) :=
  match c with
  | .leaf _ | .nested _ => xs
  | .flush _ => []

theorem Outline.closes (h : Outline n xs fs) :
    xs = [] ∨ ∃ a rest, xs = a :: rest ∧ a.1.closes n = true := by
  cases h with
  | nil => exact .inl rfl
  | field hkey _ _ _ =>
    obtain ⟨hindent, hsome⟩ := keyAt_eq_some_iff.1 hkey
    exact .inr ⟨_, _, rfl, Line.closes_of_key hsome hindent.le⟩

theorem bodyOf_of_closes (h : xs = [] ∨ ∃ a rest, xs = a :: rest ∧ a.1.closes n = true) :
    bodyOf n xs = [] := by
  rcases h with rfl | ⟨a, rest, rfl, ha⟩
  · rfl
  · exact List.takeWhile_cons_of_neg (by simpa using ha)

theorem not_closes_of_deep (h : ∀ l ∈ ls, l.isSignificant = true → n + 2 ≤ l.indent)
    {a : Line × Nat} (ha : a ∈ structural k ls) : a.1.closes n = false := by
  obtain ⟨hmem, hsignificant⟩ := mem_structural ha
  have hle := h a.1 hmem hsignificant
  rw [Line.closes, hsignificant, Bool.true_and, decide_eq_false_iff_not]
  omega

/-- The body of a field is what is nested under it. -/
theorem Outline.bodyOf (hunder : Under n l xs c) (h : Outline n ys fs) :
    bodyOf n (xs ++ ys) = Content.body c xs := by
  have hdeep (hxs : ∀ a ∈ xs, a.1.closes n = false) : Dedupe.bodyOf n (xs ++ ys) = xs := by
    have hrest := bodyOf_of_closes h.closes
    unfold Dedupe.bodyOf at hrest ⊢
    rw [List.takeWhile_append_of_pos fun a ha => by rw [hxs a ha]; rfl, hrest, List.append_nil]
  cases hunder with
  | leaf hcs => exact hdeep fun a ha => not_closes_of_deep (le_indent_of_holds hcs) ha
  | nested _ hinside => exact hdeep fun a ha => not_closes_of_deep (le_indent_of_lays hinside) ha
  | @flush k inside after inner _ hinside =>
    refine bodyOf_of_closes ?_
    rcases structural_list hinside rfl k with hnil | ⟨a, rest, hcons, ha⟩
    · rw [hnil]
      exact h.closes
    · exact .inr ⟨a, rest ++ ys, by rw [hcons]; rfl, ha⟩

/-- Nothing under a field is a key at its column. -/
theorem Under.keyAt_eq_none (h : Under n l xs c) : ∀ a ∈ xs, keyAt n a.1 = none := by
  cases h with
  | leaf hcs =>
    intro a ha
    exact keyAt_of_lt (le_indent_of_holds hcs a.1 (mem_structural ha).1) (by omega)
  | nested _ hinside =>
    intro a ha
    exact keyAt_of_lt (le_indent_of_lays hinside a.1 (mem_structural ha).1) (by omega)
  | flush _ hinside => exact fun a ha => keyAt_of_list hinside rfl a.1 (mem_structural ha).1

theorem blocksIn_append (h : ∀ a ∈ xs, keyAt n a.1 = none) (ys : List (Line × Nat)) :
    blocksIn n (xs ++ ys) = blocksIn n ys := by
  induction xs with
  | nil => rfl
  | cons a xs ih =>
    obtain ⟨ha, hxs⟩ := List.forall_mem_cons.1 h
    rw [List.cons_append, blocksIn_cons, ha]
    exact ih hxs

theorem referencesIn_append (h : ∀ a ∈ xs, keyAt n a.1 = none) (ys : List (Line × Nat)) :
    referencesIn n (xs ++ ys) = referencesIn n ys := by
  induction xs with
  | nil => rfl
  | cons a xs ih =>
    obtain ⟨ha, hxs⟩ := List.forall_mem_cons.1 h
    have hnot : ¬ (a.1.indent = n ∧ a.1.hasKey slotsName = true) := by
      rintro ⟨hindent, hhas⟩
      obtain ⟨key, hkey, -⟩ := Line.hasKey_iff.1 hhas
      rw [keyAt_eq_some_iff.2 ⟨hindent, hkey⟩] at ha
      cases ha
    rw [List.cons_append, referencesIn, if_neg hnot, ih hxs, List.nil_append]

theorem referencesIn_eq_nil (h : ∀ a ∈ xs, keyAt n a.1 = none) : referencesIn n xs = [] := by
  have happend := referencesIn_append h []
  rwa [List.append_nil] at happend

/-! ## Sections

The section of a name is what is under the first field of that name. -/

theorem sectionOf_cons (name : List Char) (a : Line × Nat) (rest : List (Line × Nat)) :
    sectionOf name (a :: rest) =
      if opensSection name a then bodyOf 0 rest else sectionOf name rest := by
  unfold sectionOf
  by_cases h : opensSection name a = true
  · rw [List.dropWhile_cons_of_neg (by simpa using h), if_pos h]
    rfl
  · rw [List.dropWhile_cons_of_pos (by simpa using h), if_neg h]

theorem opensSection_iff {name : List Char} {a : Line × Nat} :
    opensSection name a = true ↔ ∃ key, keyAt 0 a.1 = some key ∧ key.text = name := by
  simp only [opensSection, Bool.and_eq_true, beq_iff_eq, Line.hasKey_iff, keyAt_eq_some_iff]
  exact ⟨fun ⟨hindent, key, hkey, htext⟩ => ⟨key, ⟨hindent, hkey⟩, htext⟩,
    fun ⟨key, ⟨hindent, hkey⟩, htext⟩ => ⟨hindent, key, hkey, htext⟩⟩

theorem sectionOf_append {name : List Char} (h : ∀ a ∈ xs, keyAt 0 a.1 = none)
    (ys : List (Line × Nat)) : sectionOf name (xs ++ ys) = sectionOf name ys := by
  induction xs with
  | nil => rfl
  | cons a xs ih =>
    obtain ⟨ha, hxs⟩ := List.forall_mem_cons.1 h
    have hnot : ¬ opensSection name a = true := fun hopens => by
      obtain ⟨key, hkey, -⟩ := opensSection_iff.1 hopens
      rw [ha] at hkey
      cases hkey
    rw [List.cons_append, sectionOf_cons, if_neg hnot, ih hxs]

/-- A section is the body of the first field of that name. -/
theorem section_of_outline (h : Outline 0 xs fs) (name : List Char) :
    fs.find? (·.key.text == name) = none ∧ sectionOf name xs = [] ∨
      ∃ f l ys, fs.find? (·.key.text == name) = some f ∧ Under 0 l ys f.content ∧
        sectionOf name xs = Content.body f.content ys := by
  induction h with
  | nil => exact .inl ⟨rfl, rfl⟩
  | @field l i xs ys f fs key hkey htext hunder h ih =>
    have hopens : opensSection name (l, i) = true ↔ f.key.text = name := by
      rw [opensSection_iff, hkey, ← htext]
      simp
    by_cases hname : f.key.text = name
    · refine .inr ⟨f, l, xs, List.find?_cons_of_pos (by simpa using hname), hunder, ?_⟩
      rw [sectionOf_cons, if_pos (hopens.2 hname), h.bodyOf hunder]
    · rw [sectionOf_cons, if_neg (mt hopens.1 hname), sectionOf_append hunder.keyAt_eq_none,
        List.find?_cons_of_neg (by simpa using hname)]
      exact ih

/-- What stands before the block of a text opens no section. -/
theorem sectionOf_of_laysText {b : Block .mapping} (h : LaysText ls b) (name : List Char) :
    ∃ k inside, Lays 0 inside [] b ∧
      sectionOf name (structural 0 ls) = sectionOf name (structural k inside) := by
  cases h with
  | bare h => exact ⟨0, ls, h, rfl⟩
  | @marked front ls l tail _ hfront hl htail h =>
    refine ⟨(front ++ [l]).length, ls, h, ?_⟩
    rw [List.append_cons, structural_append, Nat.zero_add]
    refine sectionOf_append (fun a ha => ?_) _
    rcases List.mem_append.1 (mem_structural ha).1 with hmem | hmem
    · exact keyAt_of_blankText (hfront a.1 hmem)
    · rw [List.mem_singleton.1 hmem]
      exact keyAt_of_key (Line.key_of_marker hl htail)

end SchemaTidy.Dedupe
