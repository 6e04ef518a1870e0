import SchemaTidy.Proofs.Source.Frame

/-! # Pieces of a line that was edited

`Piece.moved` is a piece once the edits of its line are made: other text when it is the one
replaced, and further right by what the edits before it have put in. Edits that put names in place
of keys, values and list items are read back as exactly that. -/

namespace SchemaTidy.Source
open Text

/-- How far edits push what stands at byte `n` of their line. -/
def push (n : Nat) : List Edit → Nat
  | [] => 0
  | e :: es =>
    (if e.span.start < n then width e.replacement - (e.span.stop - e.span.start) else 0) +
      push n es

/-- What a piece reads once the edits of its line are made. -/
def Piece.rewritten (es : List Edit) (p : Piece) : List Char :=
  match es.find? (·.span == p.span) with
  | some e => e.replacement
  | none => p.text

/-- A piece once the edits of its line are made. -/
def Piece.moved (es : List Edit) (p : Piece) : Piece :=
  ⟨p.start + push p.start es, p.rewritten es⟩

theorem push_eq_zero {es : List Edit} {n : Nat} (h : ∀ e ∈ es, n ≤ e.span.start) :
    push n es = 0 := by
  induction es with
  | nil => rfl
  | cons e es ih =>
    have hright := h e List.mem_cons_self
    rw [push, if_neg (by omega), ih fun e' he' => h e' (List.mem_cons_of_mem _ he')]

@[simp] theorem Piece.moved_nil (p : Piece) : p.moved [] = p := rfl

/-- Edits to the right of a piece leave it alone. -/
theorem Piece.moved_of_left {es : List Edit} {p : Piece}
    (h : ∀ e ∈ es, p.span.stop < e.span.start) : p.moved es = p := by
  have hstart : ∀ e ∈ es, p.start < e.span.start := fun e he =>
    Nat.lt_of_le_of_lt (Nat.le_add_right _ _) (h e he)
  have hfind : es.find? (·.span == p.span) = none := List.find?_eq_none.2 fun e he heq => by
    have := hstart e he
    rw [beq_iff_eq.1 heq] at this
    exact Nat.lt_irrefl _ this
  rw [moved, rewritten, hfind, push_eq_zero fun e he => (hstart e he).le]
  rfl

/-- The edit puts a name that is no shorter in place of the piece. -/
structure Edit.Renames (e : Edit) (p : Piece) : Prop where
  span_eq : e.span = p.span
  isName : IsName e.replacement
  width_le : width p.text ≤ width e.replacement

theorem Piece.moved_cons_self {e : Edit} {es : List Edit} {p : Piece} (he : e.span = p.span)
    (h : ∀ e' ∈ es, p.span.stop < e'.span.start) :
    p.moved (e :: es) = ⟨p.start, e.replacement⟩ := by
  have hstart : ∀ e' ∈ es, p.start ≤ e'.span.start := fun e' he' =>
    Nat.le_trans (Nat.le_add_right _ _) (h e' he').le
  have hself : ¬ e.span.start < p.start := by rw [he]; exact Nat.lt_irrefl _
  rw [moved, rewritten, List.find?_cons_of_pos (by simpa using he), push, if_neg hself,
    push_eq_zero hstart]
  rfl

theorem Piece.moved_cons_right {e : Edit} {es : List Edit} {p q : Piece} (he : e.Renames q)
    (h : q.span.stop < p.span.start) :
    p.moved (e :: es) =
      ⟨(p.moved es).start + width e.replacement - width q.text, (p.moved es).text⟩ := by
  have hlt : q.start < p.start := Nat.lt_of_le_of_lt (Nat.le_add_right _ _) h
  have hne : (e.span == p.span) = false := by
    rw [he.span_eq, beq_eq_false_iff_ne]
    intro heq
    exact hlt.ne (congrArg Span.start heq)
  have hpush : push p.start (e :: es) =
      (width e.replacement - width q.text) + push p.start es := by
    rw [push, he.span_eq, if_pos (show q.span.start < p.start from hlt)]
    simp [Piece.span]
  have hle := he.width_le
  have hsum : p.start + (width e.replacement - width q.text + push p.start es) =
      p.start + push p.start es + width e.replacement - width q.text := by omega
  rw [moved, rewritten, List.find?_cons_of_neg (by simp [hne]), hpush, hsum]
  rfl

/-! ## Reading an edited line -/

theorem Edit.Renames.onLine {e : Edit} {p : Piece} (he : e.Renames p) {l : Line}
    {before after : List Char} (hcontent : l.content = before ++ p.text ++ after)
    (hstart : p.start = width before) :
    (e.onLine l).content = before ++ e.replacement ++ after := by
  have hbreaks : breaksLine e.replacement = false := by
    rw [breaksLine, List.any_eq_false]
    intro c hc hbreak
    rw [Bool.or_eq_true, beq_iff_eq, beq_iff_eq] at hbreak
    rcases hbreak with rfl | rfl <;> exact absurd hc (he.isName.not_mem (by decide))
  exact Edit.onLine_content hbreaks he.span_eq hcontent hstart

/-- The kind of a line, without its value. -/
def Kind.bare : Kind → Kind
  | .entry key _ => .entry key none
  | .item _ => .item none
  | kind => kind

@[simp] theorem Kind.bare_withValue (value : Piece) (k : Kind) :
    (k.withValue value).bare = k.bare := by
  cases k <;> rfl

namespace Line

theorem key_eq_of_bare {l l' : Line} (h : l'.kind.bare = l.kind.bare) : l'.key = l.key := by
  unfold key
  cases hl : l.kind <;> cases hl' : l'.kind <;> simp_all [Kind.bare]

theorem isSignificant_eq_of_bare {l l' : Line} (h : l'.kind.bare = l.kind.bare) :
    l'.isSignificant = l.isSignificant := by
  unfold isSignificant
  cases hl : l.kind <;> cases hl' : l'.kind <;> simp_all [Kind.bare]

/-- Edits of one piece of a line are at most one edit. -/
theorem edits_of_piece {es : List Edit} {p : Piece}
    (hpair : es.Pairwise fun a b => a.span.stop < b.span.start)
    (hes : ∀ e ∈ es, e.Renames p) : es = [] ∨ ∃ e, e.Renames p ∧ es = [e] := by
  match es with
  | [] => exact .inl rfl
  | [e] => exact .inr ⟨e, hes e List.mem_cons_self, rfl⟩
  | e :: e' :: es =>
    have hlt := (List.pairwise_cons.1 hpair).1 e' List.mem_cons_self
    rw [(hes e (by simp)).span_eq, (hes e' (by simp)).span_eq] at hlt
    exact absurd hlt (Nat.not_lt.2 (Nat.le_add_right _ _))

variable {l : Line} {es : List Edit}

/-- Edits of the key are read back as the key. -/
theorem key_edited {key : Piece} (hkey : l.key = some key)
    (hpair : es.Pairwise fun a b => a.span.stop < b.span.start)
    (hes : ∀ e ∈ es, e.Renames key) :
    (l.edited es).indent = l.indent ∧
      (l.edited es).key = some (key.moved es) := by
  obtain rfl | ⟨e, he, rfl⟩ := edits_of_piece hpair hes
  · exact ⟨rfl, hkey⟩
  · obtain ⟨value, hkind⟩ := kind_of_key hkey
    obtain ⟨before, after, hcontent, hstart, hnew⟩ := key_exchange hkind
    obtain ⟨hindent, value', hkind', -⟩ := hnew _ he.isName _ (he.onLine hcontent hstart)
    refine ⟨hindent, ?_⟩
    rw [key.moved_cons_self he.span_eq (by simp), edited_cons, edited_nil, Line.key, hkind']

/-- Edits of the value are read back as the value. -/
theorem value_edited {value : Piece} (hvalue : l.value = some value)
    (hpair : es.Pairwise fun a b => a.span.stop < b.span.start)
    (hes : ∀ e ∈ es, e.Renames value) :
    (l.edited es).indent = l.indent ∧
      (l.edited es).kind.bare = l.kind.bare ∧
      (l.edited es).value = some (value.moved es) := by
  obtain rfl | ⟨e, he, rfl⟩ := edits_of_piece hpair hes
  · exact ⟨rfl, rfl, hvalue⟩
  · obtain ⟨before, after, hcontent, hstart, hnew⟩ := value_exchange hvalue
    obtain ⟨hindent, hkind⟩ := hnew _ (fits_of_isName he.isName _) _ (he.onLine hcontent hstart)
    refine ⟨hindent, ?_, ?_⟩
    · rw [edited_cons, edited_nil, hkind, Kind.bare_withValue]
    · rw [value.moved_cons_self he.span_eq (by simp), edited_cons, edited_nil,
        value_of_withValue hvalue hkind]

/-- Edits of items of a one-line list are read back as items, one by one. -/
theorem flowItems_edited {items : List Piece} (hitems : l.flowItems = some items)
    (hpair : es.Pairwise fun a b => a.span.stop < b.span.start)
    (hes : ∀ e ∈ es, ∃ p ∈ items, e.Renames p) :
    (l.edited es).indent = l.indent ∧
      (l.edited es).kind.bare = l.kind.bare ∧
      (l.edited es).flowItems = some (items.map (Piece.moved es)) := by
  induction es with
  | nil =>
    refine ⟨rfl, rfl, ?_⟩
    rw [List.map_congr_left fun p _ => p.moved_nil, List.map_id']
    exact hitems
  | cons e es ih =>
    obtain ⟨hfirst, hpair⟩ := List.pairwise_cons.1 hpair
    obtain ⟨hindent, hbare, hmoved⟩ := ih hpair fun e' he' => hes e' (List.mem_cons_of_mem _ he')
    obtain ⟨q, hq, he⟩ := hes e List.mem_cons_self
    obtain ⟨ps, qs, rfl⟩ := List.append_of_mem hq
    have hapart := flowItems_pairwise hitems
    rw [List.pairwise_append, List.pairwise_cons] at hapart
    obtain ⟨-, ⟨hright, -⟩, hleft⟩ := hapart
    -- the edits right of `q` are made first, so `q` and all before it still stand where they stood
    have hes_right : ∀ e' ∈ es, q.span.stop < e'.span.start := by
      intro e' he'
      rw [← he.span_eq]; exact hfirst e' he'
    have hps : ∀ p ∈ ps, p.moved es = p ∧ p.moved (e :: es) = p := by
      intro p hp
      have hpq := hleft p hp q List.mem_cons_self
      have hes_p : ∀ e' ∈ es, p.span.stop < e'.span.start := by
        intro e' he'
        have h1 := hes_right e' he'
        have h2 : q.span.start ≤ q.span.stop := Nat.le_add_right _ _
        omega
      refine ⟨Piece.moved_of_left hes_p, Piece.moved_of_left fun e' he' => ?_⟩
      rcases List.mem_cons.1 he' with rfl | he'
      · rw [he.span_eq]; exact hpq
      · exact hes_p e' he'
    rw [List.map_append, List.map_cons, List.map_congr_left fun p hp => (hps p hp).1, List.map_id',
      Piece.moved_of_left hes_right] at hmoved
    obtain ⟨before, after, hcontent, hstart, hnew⟩ := flowItems_exchange hmoved
    obtain ⟨hindent', ⟨v, hkind⟩, hitems'⟩ := hnew _ he.isName _ (he.onLine hcontent hstart)
    refine ⟨hindent'.trans hindent, ?_, ?_⟩
    · rw [edited_cons, hkind, Kind.bare_withValue, hbare]
    · rw [edited_cons, hitems', List.map_append, List.map_cons,
        List.map_congr_left fun p hp => (hps p hp).2, List.map_id',
        Piece.moved_cons_self he.span_eq hes_right, List.map_map]
      congr 3
      exact List.map_congr_left fun p hp => (Piece.moved_cons_right he (hright p hp)).symm

end Line
end SchemaTidy.Source
