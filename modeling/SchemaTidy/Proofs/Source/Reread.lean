import SchemaTidy.Proofs.Source.Scalar

/-! # Reading a line again after a part of it was exchanged

The line keeps its indentation and its kind when its key becomes another name, when its value
becomes a text that fits there, and when an item of its list becomes another name. The parts to
the left of the change keep their positions. -/

namespace SchemaTidy.Source
open Text

/-! ## Indentation and kind -/

theorem width_spaces {spaces : List Char} (h : spaces.all (· == ' ') = true) :
    width spaces = spaces.length := by
  induction spaces with
  | nil => rfl
  | cons c cs ih =>
    simp only [List.all_cons, Bool.and_eq_true, beq_iff_eq] at h
    rw [width_cons, ih h.2, h.1, List.length_cons, Nat.add_comm]
    rfl

namespace Line

/-- What follows the leading spaces. -/
def body (l : Line) : List Char := l.content.dropWhile (· == ' ')

/-- The leading spaces. -/
def spaces (l : Line) : List Char := l.content.takeWhile (· == ' ')

theorem content_eq (l : Line) : l.content = l.spaces ++ l.body :=
  List.takeWhile_append_dropWhile.symm

theorem width_spaces_eq (l : Line) : width l.spaces = l.indent :=
  width_spaces List.all_takeWhile

theorem body_head (l : Line) : l.body.head? ≠ some ' ' := by
  intro h
  have := List.head?_dropWhile_not (· == ' ') l.content
  rw [← body, h] at this
  simp at this

theorem body_of_content {l : Line} {l' : Line} {rest : List Char}
    (hc : l'.content = l.spaces ++ rest) (hrest : rest.head? ≠ some ' ') :
    l'.body = rest ∧ l'.indent = l.indent := by
  have hall : ∀ c ∈ l.spaces, (c == ' ') = true := List.all_eq_true.1 List.all_takeWhile
  have htake : rest.takeWhile (· == ' ') = [] ∧ rest.dropWhile (· == ' ') = rest := by
    cases rest with
    | nil => exact ⟨rfl, rfl⟩
    | cons c cs =>
      have hne : (c == ' ') = false := by simpa using hrest
      simp [hne]
  rw [body, indent, hc, List.dropWhile_append_of_pos hall, List.takeWhile_append_of_pos hall,
    htake.1, htake.2, List.append_nil]
  exact ⟨rfl, rfl⟩

end Line

/-- A text that opens neither a comment nor an item, so that it is looked at for a key. -/
structure MayOpenKey (rest : List Char) : Prop where
  not_space : rest.head? ≠ some ' '
  not_comment : rest.head? ≠ some '#'
  not_item : ∀ t, rest = '-' :: t → t ≠ [] ∧ t.head? ≠ some ' '

theorem mayOpenKey_of_head {c : Char} {cs : List Char} (hc : c ≠ ' ' ∧ c ≠ '#' ∧ c ≠ '-') :
    MayOpenKey (c :: cs) where
  not_space := by simpa using hc.1
  not_comment := by simpa using hc.2.1
  not_item t ht := absurd (List.cons.inj ht).1 hc.2.2

/-- Two characters decide. -/
theorem MayOpenKey.of_append {xs ys : List Char} (h : MayOpenKey (xs ++ ys)) (hxs : 2 ≤ xs.length)
    (zs : List Char) : MayOpenKey (xs ++ zs) := by
  match xs, hxs with
  | c :: d :: xs, _ =>
    refine ⟨h.not_space, h.not_comment, fun t ht => ?_⟩
    obtain ⟨rfl, rfl⟩ := List.cons.inj ht
    exact ⟨by simp, (h.not_item _ rfl).2⟩

namespace Line

theorem kind_of_key? {l : Line} {cut : KeyCut} (hopen : MayOpenKey l.body)
    (hkey : Source.key? l.indent l.body = some cut) :
    l.kind = .entry cut.key (scalar? cut.valueStart cut.after) := by
  obtain ⟨before, colon, hsits⟩ := key?_sits hkey
  have hblank : l.body.all isBlank = false := by
    rw [List.all_eq_false]
    exact ⟨':', by rw [hsits.text_eq]; simp [hsits.colon_mem], by decide⟩
  unfold kind
  split
  · rename_i rest hrest
    exact absurd (by rw [body, hrest]; rfl) hopen.not_comment
  · rename_i hrest
    exact absurd rfl (hopen.not_item [] hrest).1
  · rename_i rest hrest
    exact absurd rfl (hopen.not_item _ hrest).2
  · rw [body] at hblank hkey
    rw [hblank, hkey]
    rfl

theorem key?_of_kind {l : Line} {key : Piece} {value : Option Piece}
    (h : l.kind = .entry key value) :
    ∃ cut, Source.key? l.indent l.body = some cut ∧ MayOpenKey l.body ∧ cut.key = key ∧
      scalar? cut.valueStart cut.after = value := by
  unfold kind at h
  split at h
  · cases h
  · cases h
  · cases h
  · rename_i rest hcomment hdash hitem
    split at h
    · cases h
    · split at h
      · rename_i cut hcut
        obtain ⟨rfl, rfl⟩ := Kind.entry.inj h
        refine ⟨cut, hcut, ⟨l.body_head, fun hh => ?_, fun t ht => ⟨?_, fun hh => ?_⟩⟩, rfl, rfl⟩
        · obtain ⟨t, ht⟩ := List.head?_eq_some_iff.1 hh
          exact hcomment t ht
        · rintro rfl; exact hdash ht
        · obtain ⟨r, rfl⟩ := List.head?_eq_some_iff.1 hh
          exact hitem r ht
      · cases h

theorem scalar?_of_item {l : Line} {value : Option Piece} (h : l.kind = .item value) :
    l.body = ['-'] ∧ value = none ∨
      ∃ rest, l.body = '-' :: ' ' :: rest ∧ scalar? (l.indent + 1) (' ' :: rest) = value := by
  unfold kind at h
  split at h
  · cases h
  · rename_i hdash
    exact .inl ⟨hdash, (Kind.item.inj h).symm⟩
  · rename_i rest hitem
    exact .inr ⟨rest, hitem, Kind.item.inj h⟩
  · split at h
    · cases h
    · split at h <;> cases h

theorem kind_of_key {l : Line} {key : Piece} (h : l.key = some key) :
    ∃ value, l.kind = .entry key value := by
  unfold Line.key at h
  split at h
  · rename_i k value hkind
    obtain rfl := Option.some.inj h
    exact ⟨value, hkind⟩
  · cases h

/-! ## Another key, another value -/

/-- The entry read from the same layout with another key, another text after the colon, or
both. -/
theorem kind_of_sits {l l' : Line} {cut : KeyCut} {before colon name after : List Char}
    (hsits : cut.Sits l.indent l.body before colon) (hopen : MayOpenKey l.body)
    (hname : name = cut.key.text ∨ IsName name) (hafter : separates after = true)
    (hc : l'.content = l.spaces ++ (before ++ name ++ colon ++ after)) :
    l'.indent = l.indent ∧ l'.kind = .entry ⟨cut.key.start, name⟩
      (scalar? (l.indent + width (before ++ name ++ colon)) after) := by
  have hopen' : MayOpenKey (before ++ name ++ colon ++ after) := by
    rcases hsits.opening with ⟨rfl, hne⟩ | rfl | rfl
    · rcases hname with rfl | hname
      · rw [hsits.text_eq] at hopen
        refine hopen.of_append ?_ after
        have := List.length_pos_of_ne_nil hne
        have := List.length_pos_of_mem hsits.colon_mem
        simp only [List.nil_append, List.length_append]
        omega
      · obtain ⟨c, cs, rfl, hchar⟩ := hname.exists_cons
        refine mayOpenKey_of_head ⟨?_, ?_, ?_⟩ <;> rintro rfl <;> exact absurd hchar (by decide)
    · exact mayOpenKey_of_head (by decide)
    · exact mayOpenKey_of_head (by decide)
  obtain ⟨hbody, hindent⟩ := body_of_content hc hopen'.not_space
  refine ⟨hindent, ?_⟩
  rw [kind_of_key? (hbody ▸ hopen') (by rw [hbody, hindent]; exact hsits.exchange _ _ hname hafter)]

/-- **A line of which the key becomes another name** is an entry with that key, at the same
indentation and with the same value. -/
theorem key_exchange {l : Line} {key : Piece} {value : Option Piece}
    (h : l.kind = .entry key value) :
    ∃ before after, l.content = before ++ key.text ++ after ∧ key.start = width before ∧
      ∀ name, IsName name → ∀ l' : Line, l'.content = before ++ name ++ after →
        l'.indent = l.indent ∧ ∃ value', l'.kind = .entry ⟨key.start, name⟩ value' ∧
          value'.map (·.text) = value.map (·.text) := by
  obtain ⟨cut, hcut, hopen, rfl, rfl⟩ := key?_of_kind h
  obtain ⟨before, colon, hsits⟩ := key?_sits hcut
  refine ⟨l.spaces ++ before, colon ++ cut.after, ?_, ?_, fun name hname l' hc => ?_⟩
  · rw [l.content_eq, hsits.text_eq]; simp
  · rw [hsits.start_eq, width_append, width_spaces_eq]
  · have hc' : l'.content = l.spaces ++ (before ++ name ++ colon ++ cut.after) := by
      rw [hc]; simp
    obtain ⟨hindent, hkind⟩ := kind_of_sits hsits hopen (.inr hname) hsits.separates_after hc'
    refine ⟨hindent, _, hkind, ?_⟩
    have htext : ∀ start, (scalar? start cut.after).map (·.text) =
        (scalar? 0 cut.after).map (·.text) := by
      intro start
      rw [← Nat.zero_add start, scalar?_move, Option.map_map]; rfl
    rw [htext, htext cut.valueStart]

end Line

/-- The kind of a line of which the value becomes another one. -/
def Kind.withValue (value : Piece) : Kind → Kind
  | .entry key _ => .entry key (some value)
  | .item _ => .item (some value)
  | kind => kind

namespace Line

theorem separates_exchange {before old after : List Char}
    (h : separates (before ++ old ++ after) = true)
    (hblank : (before ++ old ++ after).takeWhile isBlank <+: before)
    (hne : before ++ old ++ after ≠ []) (new : List Char) :
    separates (before ++ new ++ after) = true := by
  obtain ⟨c, cs, hcs⟩ := List.exists_cons_of_ne_nil hne
  rw [hcs] at h hblank
  have hc : isBlank c = true := by
    simp only [separates, Bool.or_eq_true, beq_iff_eq] at h
    rcases h with rfl | rfl <;> rfl
  obtain ⟨rest, hrest⟩ := hblank
  rw [List.takeWhile_cons_of_pos hc] at hrest
  rw [← hrest]
  exact h

theorem entry_exchange {l : Line} {key p : Piece} (hkind : l.kind = .entry key (some p)) :
    ∃ before after, l.content = before ++ p.text ++ after ∧ p.start = width before ∧
      ∀ new, Fits p.text new → ∀ l' : Line, l'.content = before ++ new ++ after →
        l'.indent = l.indent ∧ l'.kind = .entry key (some ⟨p.start, new⟩) := by
  obtain ⟨cut, hcut, hopen, rfl, hscalar⟩ := key?_of_kind hkind
  obtain ⟨before, colon, hsits⟩ := key?_sits hcut
  obtain ⟨vbefore, vafter, hafter, hstart, hblank, hnew⟩ := scalar?_exchange hscalar
  refine ⟨l.spaces ++ (before ++ cut.key.text ++ colon) ++ vbefore, vafter, ?_, ?_, ?_⟩
  · rw [l.content_eq, hsits.text_eq, hafter]; simp
  · rw [hstart, hsits.valueStart_eq, width_append _ vbefore, width_append l.spaces,
      width_spaces_eq]
  · intro new hfit l' hc
    have hne : vbefore ++ p.text ++ vafter ≠ [] := by
      rw [← hafter]; rintro hnil; rw [hnil] at hscalar; cases hscalar
    have hsep := separates_exchange (hafter ▸ hsits.separates_after) (hafter ▸ hblank) hne new
    have hc' : l'.content =
        l.spaces ++ (before ++ cut.key.text ++ colon ++ (vbefore ++ new ++ vafter)) := by
      rw [hc]; simp
    obtain ⟨hindent, hkind'⟩ := kind_of_sits hsits hopen (.inl rfl) hsep hc'
    refine ⟨hindent, ?_⟩
    rw [hkind', ← hsits.valueStart_eq, hnew new hfit]

theorem item_exchange {l : Line} {p : Piece} (hkind : l.kind = .item (some p)) :
    ∃ before after, l.content = before ++ p.text ++ after ∧ p.start = width before ∧
      ∀ new, Fits p.text new → ∀ l' : Line, l'.content = before ++ new ++ after →
        l'.indent = l.indent ∧ l'.kind = .item (some ⟨p.start, new⟩) := by
  rcases scalar?_of_item hkind with ⟨-, hnone⟩ | ⟨rest, hbody, hscalar⟩
  · cases hnone
  · obtain ⟨vbefore, vafter, hafter, hstart, hblank, hnew⟩ := scalar?_exchange hscalar
    obtain ⟨blanks, rfl⟩ : ∃ blanks, vbefore = ' ' :: blanks := by
      obtain ⟨more, hmore⟩ := hblank
      exact ⟨_, by rw [← hmore, List.takeWhile_cons_of_pos (by decide)]; rfl⟩
    refine ⟨l.spaces ++ '-' :: ' ' :: blanks, vafter, ?_, ?_, ?_⟩
    · rw [l.content_eq, hbody, hafter]; simp
    · rw [hstart, width_append, width_spaces_eq, width_cons]
      simp [Nat.add_assoc, show Char.utf8Size '-' = 1 from rfl]
    · intro new hfit l' hc
      have hc' : l'.content = l.spaces ++ ('-' :: ' ' :: (blanks ++ new ++ vafter)) := by
        rw [hc]; simp
      obtain ⟨hbody', hindent⟩ := body_of_content hc' (by simp)
      have hnew' := hnew new hfit
      rw [← hindent] at hnew'
      refine ⟨hindent, ?_⟩
      rw [← hnew']
      unfold kind
      rw [show l'.content.dropWhile (· == ' ') = _ from hbody']
      rfl

/-- **A line of which the value becomes a text that fits there** has that value, and is
otherwise read as before. -/
theorem value_exchange {l : Line} {p : Piece} (h : l.value = some p) :
    ∃ before after, l.content = before ++ p.text ++ after ∧ p.start = width before ∧
      ∀ new, Fits p.text new → ∀ l' : Line, l'.content = before ++ new ++ after →
        l'.indent = l.indent ∧ l'.kind = l.kind.withValue ⟨p.start, new⟩ := by
  unfold value at h
  split at h
  · rename_i key v hkind
    subst h
    rw [hkind]
    exact entry_exchange hkind
  · rename_i v hkind
    subst h
    rw [hkind]
    exact item_exchange hkind
  · cases h

end Line
end SchemaTidy.Source
