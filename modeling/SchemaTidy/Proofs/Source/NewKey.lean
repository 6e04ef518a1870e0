import SchemaTidy.Proofs.Dedupe.Sections

/-! # Which texts are read as a key in the place of another key

Not every text can be a key: quotes, colons, hashes and dashes have a meaning of their own. Whether
a text is one does not depend on the line that it is put into, but on whether the key there is
quoted: `isEntryAt_replaced_iff` reduces each line to one that holds the key and its colon only. -/

namespace SchemaTidy.Source
open Text

/-- The line is an entry with this key, indented by `indent`. -/
def Line.IsEntryAt (l : Line) (indent : Nat) (name : List Char) : Prop :=
  l.indent = indent ∧ l.hasKey name = true

instance (l : Line) (indent : Nat) (name : List Char) : Decidable (l.IsEntryAt indent name) :=
  inferInstanceAs (Decidable (_ ∧ _))

/-- The quote that opens the key of a line, if one does. -/
def Line.keyQuote (l : Line) : List Char :=
  (l.body.head?.filter fun c => c == '"' || c == '\'').toList

/-- A line that holds a name, in these quotes, and a colon after it has this name as its key. -/
def ReadsAsKey (quote name : List Char) : Prop :=
  (⟨quote ++ name ++ quote ++ [':'], .none⟩ : Line).IsEntryAt 0 name

instance (quote name : List Char) : Decidable (ReadsAsKey quote name) :=
  inferInstanceAs (Decidable (Line.IsEntryAt _ _ _))

/-! ## Keys and the text after them -/

/-- The key ends at the first colon that can end one. -/
theorem splitColon_first {gap : Bool} {cs before after : List Char}
    (h : splitColon gap cs = some (before, after)) {xs ys : List Char}
    (hbefore : before = xs ++ ':' :: ys) : separates (ys ++ ':' :: after) = false := by
  fun_induction splitColon gap cs generalizing before xs with
  | case1 => cases h
  | case2 => cases h
  | case3 => simp_all
  | case4 gap c cs _ hcolon ih =>
    obtain ⟨⟨b, a⟩, hsplit, heq⟩ := Option.map_eq_some_iff.1 h
    obtain ⟨rfl, rfl⟩ := Prod.mk.inj heq
    cases xs with
    | nil =>
      obtain ⟨rfl, rfl⟩ := List.cons.inj hbefore
      rw [(splitColon_exchange hsplit).1] at hcolon
      simpa using hcolon
    | cons x xs => exact ih hsplit (List.cons.inj hbefore).2

/-- What stands between a name and its colon, and what stands after it, decides nothing, unless
the name ends in a colon and the blanks after it would end it there. -/
theorem splitColon_append_iff {name blanks after : List Char} (hb : blanks.all isBlank = true)
    (hafter : separates after = true)
    (hend : name.getLast? = some ':' → separates (blanks ++ ':' :: after) = false) (gap : Bool) :
    splitColon gap (name ++ (blanks ++ ':' :: after)) = some (name ++ blanks, after) ↔
      splitColon gap (name ++ [':']) = some (name, []) := by
  induction name generalizing gap with
  | nil =>
    have hcolon : splitColon gap ([] ++ [':']) = some ([], []) := by simp [splitColon, separates]
    exact iff_of_true (splitColon_blanks hb hafter gap) hcolon
  | cons c cs ih =>
    have hsep : (c = ':' && separates (cs ++ (blanks ++ ':' :: after))) =
        (c = ':' && separates (cs ++ [':'])) := by
      cases cs with
      | nil =>
        by_cases hc : c = ':'
        · simp only [hc, List.nil_append, hend (by simp [hc])]
          rfl
        · simp [hc]
      | cons d ds => rfl
    have hend' : cs.getLast? = some ':' → separates (blanks ++ ':' :: after) = false := by
      intro hlast
      refine hend ?_
      rw [List.getLast?_cons, hlast]
      rfl
    have hcons : ∀ (o : Option (List Char × List Char)) (x y : List Char),
        (o.map fun p => (c :: p.1, p.2)) = some (c :: x, y) ↔ o = some (x, y) := by
      intro o x y
      cases o <;> simp [Prod.ext_iff]
    rw [List.cons_append, List.cons_append, List.cons_append, splitColon, splitColon, hsep]
    split
    · simp
    · split
      · simp
      · rw [hcons, hcons]
        exact ih hend' _

/-- A name is found as the key of a text just when the text is split behind it. -/
theorem plainKey?_text_iff {start : Nat} {name blanks after : List Char} (hne : name ≠ [])
    (hlast : ∀ c, name.getLast? = some c → isBlank c = false) (hb : blanks.all isBlank = true) :
    (∃ cut, plainKey? start (name ++ (blanks ++ ':' :: after)) = some cut ∧ cut.key.text = name) ↔
      splitColon false (name ++ (blanks ++ ':' :: after)) = some (name ++ blanks, after) := by
  constructor
  · rintro ⟨cut, hcut, rfl⟩
    obtain ⟨blanks', hsplit, hb', -⟩ := plainKey?_eq_some hcut
    -- both cuts leave blanks and a colon behind the name, so they are the same
    have htail : blanks ++ ':' :: after = blanks' ++ ':' :: cut.after := by
      have hcs := (splitColon_exchange hsplit).1
      rw [List.append_assoc] at hcs
      exact List.append_cancel_left hcs
    have htake (bs tail : List Char) (hbs : bs.all isBlank = true) :
        (bs ++ ':' :: tail).takeWhile isBlank = bs := by
      rw [List.takeWhile_append_of_pos (List.all_eq_true.1 hbs), List.takeWhile_cons_of_neg (by decide),
        List.append_nil]
    obtain rfl : blanks = blanks' := by
      rw [← htake blanks after hb, htail, htake blanks' cut.after hb']
    obtain rfl : after = cut.after := (List.cons.inj (List.append_cancel_left htail)).2
    exact hsplit
  · intro hsplit
    exact ⟨_, plainKey?_of_split hne hlast hb hsplit, rfl⟩

/-- How a key stands in a text that starts at byte `start`: between quotes, or without them and
with blanks after it. -/
inductive KeyForm (start : Nat) (cs : List Char) (key : Piece) : Prop where
  | quoted (q : Char) (after : List Char) (hq : q = '"' ∨ q = '\'')
    (hcs : cs = q :: (key.text ++ q :: ':' :: after)) (hstart : key.start = start + 1)
    (hafter : separates after = true)
  | plain (blanks after : List Char) (hcs : cs = key.text ++ (blanks ++ ':' :: after))
    (hstart : key.start = start) (hne : key.text ≠ [])
    (hunquoted : ∀ c, key.text.head? = some c → c ≠ '"' ∧ c ≠ '\'')
    (hlast : ∀ c, key.text.getLast? = some c → isBlank c = false) (hb : blanks.all isBlank = true)
    (hafter : separates after = true)
    (hsplit : splitColon false cs = some (key.text ++ blanks, after))

theorem keyForm_of_key? {start : Nat} {cs : List Char} {cut : KeyCut}
    (h : key? start cs = some cut) : KeyForm start cs cut.key := by
  cases cs with
  | nil => cases h
  | cons c cs =>
    rw [key?] at h
    split at h
    · rename_i hc
      obtain ⟨-, hcs, hafter, hstart, -⟩ := quotedKey?_eq_some h
      exact .quoted c cut.after hc (by rw [← hcs]) hstart hafter
    · rename_i hc
      obtain ⟨blanks, hsplit, hb, hkey, hlast, hstart, -⟩ := plainKey?_eq_some h
      obtain ⟨hcs, hafter, -⟩ := splitColon_exchange hsplit
      have hcs' : c :: cs = cut.key.text ++ (blanks ++ ':' :: cut.after) := by rw [hcs]; simp
      refine .plain blanks cut.after hcs' hstart hkey (fun d hd => ?_) hlast hb hafter hsplit
      obtain ⟨ds, hds⟩ := List.head?_eq_some_iff.1 hd
      rw [hds] at hcs'
      obtain rfl : c = d := (List.cons.inj hcs').1
      exact not_or.1 hc

/-! ## Lines -/

/-- Two characters decide, and so does one that is no dash. -/
theorem MayOpenKey.of_append_of_ne {name xs : List Char} (h : MayOpenKey (name ++ xs))
    (hne : name ≠ []) (hdash : name ≠ ['-']) (ys : List Char) : MayOpenKey (name ++ ys) := by
  match name with
  | [c] =>
    refine mayOpenKey_of_head ⟨?_, ?_, fun hc => hdash (by rw [hc])⟩
    · simpa using h.not_space
    · simpa using h.not_comment
  | _ :: _ :: _ => exact h.of_append (by simp) ys

namespace Line

theorem isEntryAt_iff {l : Line} {indent : Nat} {name : List Char} :
    l.IsEntryAt indent name ↔ l.indent = indent ∧ MayOpenKey l.body ∧
      ∃ cut, Source.key? indent l.body = some cut ∧ cut.key.text = name := by
  rw [IsEntryAt]
  refine and_congr_right ?_
  rintro rfl
  rw [hasKey_iff]
  constructor
  · rintro ⟨key, hkey, rfl⟩
    obtain ⟨value, hkind⟩ := kind_of_key hkey
    obtain ⟨cut, hcut, hopen, rfl, -⟩ := key?_of_kind hkind
    exact ⟨hopen, cut, hcut, rfl⟩
  · rintro ⟨hopen, cut, hcut, rfl⟩
    exact ⟨cut.key, by rw [Line.key, kind_of_key? hopen hcut], rfl⟩

/-- A line made of the spaces of another one and of more text is read from where that begins, if
it is indented alike. -/
theorem body_eq_of_indent_eq {l l' : Line} {rest : List Char} (hc : l'.content = l.spaces ++ rest)
    (hindent : l'.indent = l.indent) : l'.body = rest := by
  rw [l'.content_eq] at hc
  exact (List.append_inj hc hindent).2

variable {l l' : Line} {name after : List Char}

theorem isEntryAt_quoted_iff {q : Char} (hq : q = '"' ∨ q = '\'') (hafter : separates after = true)
    (hc : l'.content = l.spaces ++ (q :: (name ++ q :: ':' :: after))) :
    l'.IsEntryAt l.indent name ↔ q ∉ name := by
  rw [isEntryAt_iff]
  constructor
  · rintro ⟨hindent, -, cut, hcut, htext⟩
    rw [body_eq_of_indent_eq hc hindent, key?, if_pos hq] at hcut
    exact htext ▸ (quotedKey?_eq_some hcut).1
  · intro hname
    have hopen : MayOpenKey (q :: (name ++ q :: ':' :: after)) :=
      mayOpenKey_of_head (by rcases hq with rfl | rfl <;> decide)
    obtain ⟨hbody, hindent⟩ := body_of_content hc hopen.not_space
    have hcut : Source.key? l.indent l'.body =
        some ⟨⟨l.indent + 1, name⟩, l.indent + width name + 3, after⟩ := by
      rw [hbody, key?, if_pos hq, quotedKey?_of_quote hname hafter]
    exact ⟨hindent, hbody ▸ hopen, _, hcut, rfl⟩

/-- A text that is read as a key without quotes. -/
structure PlainKey (name : List Char) : Prop where
  opens : MayOpenKey (name ++ [':'])
  unquoted : ∀ c, name.head? = some c → c ≠ '"' ∧ c ≠ '\''
  split : splitColon false (name ++ [':']) = some (name, [])

theorem isEntryAt_plain_iff {blanks : List Char} (hne : name ≠ []) (hdash : name ≠ ['-'])
    (hlast : ∀ c, name.getLast? = some c → isBlank c = false) (hb : blanks.all isBlank = true)
    (hafter : separates after = true)
    (hend : name.getLast? = some ':' → separates (blanks ++ ':' :: after) = false)
    (hc : l'.content = l.spaces ++ (name ++ (blanks ++ ':' :: after))) :
    l'.IsEntryAt l.indent name ↔ PlainKey name := by
  obtain ⟨c, cs, rfl⟩ := List.exists_cons_of_ne_nil hne
  rw [isEntryAt_iff]
  constructor
  · rintro ⟨hindent, hopen, cut, hcut, htext⟩
    rw [body_eq_of_indent_eq hc hindent] at hopen hcut
    rw [List.cons_append, key?] at hcut
    split at hcut
    · -- the text between quotes does not hold one
      exact absurd List.mem_cons_self (htext ▸ (quotedKey?_eq_some hcut).1)
    · rename_i hq
      have hsplit := (plainKey?_text_iff hne hlast hb).1 ⟨cut, hcut, htext⟩
      exact ⟨hopen.of_append_of_ne hne hdash _, by simpa using not_or.1 hq,
        (splitColon_append_iff hb hafter hend _).1 hsplit⟩
  · rintro ⟨hopen, hq, hsplit⟩
    have hopen' := hopen.of_append_of_ne hne hdash (blanks ++ ':' :: after)
    obtain ⟨hbody, hindent⟩ := body_of_content hc hopen'.not_space
    refine ⟨hindent, hbody ▸ hopen', ?_⟩
    rw [hbody, List.cons_append, key?, if_neg (not_or.2 (hq c rfl)), ← List.cons_append]
    exact (plainKey?_text_iff hne hlast hb).2 ((splitColon_append_iff hb hafter hend _).2 hsplit)

theorem keyQuote_cases (l : Line) :
    l.keyQuote = [] ∨ ∃ q, (q = '"' ∨ q = '\'') ∧ l.keyQuote = [q] := by
  unfold keyQuote
  cases h : l.body.head?.filter fun c => c == '"' || c == '\'' with
  | none => exact .inl rfl
  | some q =>
    rw [Option.filter_eq_some_iff] at h
    exact .inr ⟨q, by simpa using h.2, rfl⟩

end Line

theorem readsAsKey_quoted_iff {q : Char} {name : List Char} (hq : q = '"' ∨ q = '\'') :
    ReadsAsKey [q] name ↔ q ∉ name := by
  have hafter : separates [] = true := rfl
  have hindent : Line.indent ⟨[], .none⟩ = 0 := rfl
  rw [ReadsAsKey, ← hindent]
  exact Line.isEntryAt_quoted_iff hq hafter (by simp [Line.spaces])

theorem readsAsKey_plain_iff {name : List Char} (hne : name ≠ []) (hdash : name ≠ ['-'])
    (hlast : ∀ c, name.getLast? = some c → isBlank c = false) :
    ReadsAsKey [] name ↔ Line.PlainKey name := by
  have hblanks : ([] : List Char).all isBlank = true := rfl
  have hafter : separates [] = true := rfl
  have hindent : Line.indent ⟨[], .none⟩ = 0 := rfl
  rw [ReadsAsKey, ← hindent]
  exact Line.isEntryAt_plain_iff hne hdash hlast hblanks hafter (fun _ => rfl)
    (by simp [Line.spaces])

/-- Letters, digits and underscores are read as a key wherever there was one. -/
theorem readsAsKey_of_isName {name : List Char} (hname : IsName name) (l : Line) :
    ReadsAsKey l.keyQuote name := by
  obtain ⟨c, cs, rfl, hc⟩ := hname.exists_cons
  rcases l.keyQuote_cases with hquote | ⟨q, hq, hquote⟩
  · have hplain : Line.PlainKey (c :: cs) := by
      refine ⟨mayOpenKey_of_head ⟨?_, ?_, ?_⟩, fun d hd => ?_, ?_⟩
      · rintro rfl; exact absurd hc (by decide)
      · rintro rfl; exact absurd hc (by decide)
      · rintro rfl; exact absurd hc (by decide)
      · obtain rfl : c = d := Option.some.inj hd
        constructor <;> rintro rfl <;> exact absurd hc (by decide)
      · rw [splitColon_name hname]
        simp [splitColon, separates]
    have hlast : ∀ d, (c :: cs).getLast? = some d → isBlank d = false := fun d hd =>
      hname.not_isBlank (List.mem_of_getLast? hd)
    have hdash : c :: cs ≠ ['-'] := by
      intro he
      exact absurd (show '-' ∈ c :: cs by simp [he]) (hname.not_mem (by decide))
    rw [hquote]
    exact (readsAsKey_plain_iff hname.1 hdash hlast).2 hplain
  · rw [hquote]
    refine (readsAsKey_quoted_iff hq).2 (hname.not_mem ?_)
    rcases hq with rfl | rfl <;> decide

/-- A text that may come in the place of a key, but for how it is read: it holds an underscore,
and ends as the key does or in a letter, a digit or an underscore. -/
structure Replaces (key name : List Char) : Prop where
  underscore : '_' ∈ name
  ending : key <:+ name ∨ ∃ c, name.getLast? = some c ∧ isNameChar c = true

/-- It ends in no blank, and in a colon only where the key does. -/
theorem Replaces.ending_of_plain {key name : List Char} {P : Prop} (h : Replaces key name)
    (hne : key ≠ []) (hlast : ∀ c, key.getLast? = some c → isBlank c = false)
    (hcolon : ∀ ys, key = ys ++ [':'] → P) :
    ∀ c, name.getLast? = some c → isBlank c = false ∧ (c = ':' → P) := by
  intro c hc
  rcases h.ending with ⟨xs, rfl⟩ | ⟨d, hd, hchar⟩
  · rw [List.getLast?_append_of_ne_nil _ hne] at hc
    refine ⟨hlast c hc, ?_⟩
    rintro rfl
    obtain ⟨ys, hys⟩ := List.getLast?_eq_some_iff.1 hc
    exact hcolon ys hys
  · obtain rfl : d = c := Option.some.inj (hd.symm.trans hc)
    have hname : IsName [d] := ⟨by simp, by simpa using hchar⟩
    exact ⟨hname.not_isBlank (by simp), fun he => by rw [he] at hchar; exact absurd hchar (by decide)⟩

/-- **A text in the place of a key is read as the key just when it is so alone on a line**, in the
quotes of that key. -/
theorem isEntryAt_replaced_iff {l : Line} {key : Piece} (h : l.key = some key) :
    ∃ before after, l.content = before ++ key.text ++ after ∧ key.start = width before ∧
      ∀ name, Replaces key.text name → ∀ l' : Line, l'.content = before ++ name ++ after →
        (l'.IsEntryAt l.indent name ↔ ReadsAsKey l.keyQuote name) := by
  obtain ⟨value, hkind⟩ := Line.kind_of_key h
  obtain ⟨cut, hcut, -, rfl, -⟩ := Line.key?_of_kind hkind
  cases keyForm_of_key? hcut with
  | quoted q after hq hcs hstart hafter =>
    have hquote : l.keyQuote = [q] := by
      rw [Line.keyQuote, hcs]
      rcases hq with rfl | rfl <;> rfl
    refine ⟨l.spaces ++ [q], q :: ':' :: after, by rw [l.content_eq, hcs]; simp, ?_, ?_⟩
    · rw [hstart, width_append, l.width_spaces_eq]
      rcases hq with rfl | rfl <;> rfl
    · intro name _ l' hc
      rw [Line.isEntryAt_quoted_iff hq hafter (by rw [hc]; simp), hquote]
      exact (readsAsKey_quoted_iff hq).symm
  | plain blanks after hcs hstart hne hunquoted hlast hb hafter hsplit =>
    have hquote : l.keyQuote = [] := by
      obtain ⟨c, cs, hkey⟩ := List.exists_cons_of_ne_nil hne
      have hc := hunquoted c (by rw [hkey]; rfl)
      simp [Line.keyQuote, hcs, hkey, hc.1, hc.2]
    refine ⟨l.spaces, blanks ++ ':' :: after, by rw [l.content_eq, hcs]; simp, ?_, ?_⟩
    · rw [hstart, l.width_spaces_eq]
    · intro name hname l' hc
      have hne' : name ≠ [] := List.ne_nil_of_mem hname.underscore
      have hdash : name ≠ ['-'] := by
        rintro rfl
        exact absurd hname.underscore (by decide)
      have hend := hname.ending_of_plain hne hlast fun ys hys => by
        have hcolon : cut.key.text ++ blanks = ys ++ ':' :: blanks := by rw [hys]; simp
        exact splitColon_first hsplit hcolon
      rw [Line.isEntryAt_plain_iff hne' hdash (fun c hc => (hend c hc).1) hb hafter
        (fun hc => (hend ':' hc).2 rfl) (by rw [hc]; simp), hquote]
      exact (readsAsKey_plain_iff hne' hdash fun c hc => (hend c hc).1).symm

end SchemaTidy.Source
