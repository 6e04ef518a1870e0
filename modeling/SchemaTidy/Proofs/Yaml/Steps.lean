import SchemaTidy.Proofs.Yaml.Passing

/-! # Token by token

Between two tokens no key waits for its colon. `Ready` says which token the lexer reads next and
what it has read before; each sign takes it to the next such state. -/

namespace SchemaTidy.Yaml.Lexer
open Source (Line)

/-! ## Between two tokens -/

/-- All tokens are still there, of these kinds, and no key must get its colon. `stack` holds the
columns of the open blocks, innermost first; `brackets` counts the open brackets. -/
structure At (lx : Lexer) (kinds : List TokenKind) (stack : List Nat) (brackets : Nat) (c : Cursor)
    (allowed : Bool) : Prop where
  handedOn_eq : lx.handedOn = 0
  kinds_eq : lx.queue.map (·.kind) = kinds
  running : .streamEnd ∉ kinds
  stack_eq : lx.indent :: lx.indents = stack.map Int.ofNat ++ [-1]
  brackets_eq : lx.keys.length = brackets + 1
  not_required : ∀ key ∈ lx.keys, ∀ k, key = some k → k.required = false
  cursor_eq : lx.cursor = c
  allowed_eq : lx.keyAllowed = allowed

/-- It falls by one at least with each token, and is never negative. -/
def potential (lx : Lexer) : Nat :=
  5 * lx.cursor.rest.length + lx.queue.length + lx.indents.length

/-- The second lexer comes from the first by reading tokens. -/
def Advances (lx lx' : Lexer) : Prop := ∃ n, Reads n lx lx' ∧ n + lx'.potential ≤ lx.potential

theorem Advances.refl (lx : Lexer) : Advances lx lx := ⟨0, .refl lx, by simp⟩

theorem Advances.trans {a b c : Lexer} (hab : Advances a b) (hbc : Advances b c) :
    Advances a c := by
  obtain ⟨m, hm, hle⟩ := hab
  obtain ⟨n, hn, hle'⟩ := hbc
  exact ⟨m + n, hm.trans hn, by omega⟩

/-- The column of the innermost block. -/
def floor : List Nat → Int
  | [] => -1
  | top :: _ => top

/-- The next token is read at this column of this text. Blocks that are indented deeper are
closed before. -/
def Ready (lx : Lexer) (kinds : List TokenKind) (stack : List Nat) (brackets : Nat) (column : Nat)
    (rest : List Char) (allowed : Bool) : Prop :=
  (∀ t ∈ lx.queue, t.kind ≠ .streamEnd) ∧
    ∃ here c, At here kinds stack brackets c allowed ∧ c.rest = rest ∧ c.mark.column = column ∧
      lx.next = (here.unroll column).readToken ∧ here.potential ≤ lx.potential

variable {lx : Lexer} {kinds : List TokenKind} {stack outer : List Nat} {brackets column : Nat}
  {c c' : Cursor} {rest : List Char} {allowed allowed' : Bool}

theorem At.open (h : At lx kinds stack brackets c allowed) : ∀ t ∈ lx.queue, t.kind ≠ .streamEnd :=
  fun t ht hkind => h.running (h.kinds_eq ▸ List.mem_map.2 ⟨t, ht, hkind⟩)

theorem At.inFlow_eq (h : At lx kinds stack brackets c allowed) :
    lx.inFlow = decide (0 < brackets) := by
  simp [inFlow, h.brackets_eq]

theorem length_passBlanks (inFlow : Bool) (fuel : Nat) (allowed : Bool) (c : Cursor) :
    (passBlanks inFlow fuel allowed c).2.rest.length ≤ c.rest.length := by
  induction fuel generalizing allowed c with
  | zero => exact Nat.le_refl _
  | succ fuel ih =>
    have hcomment := length_afterComment (inFlow || !allowed) c
    rw [passBlanks_succ]
    dsimp only
    split
    · rename_i hbreak
      exact (ih _ _).trans ((length_skipBreak hbreak).le.trans hcomment)
    · exact hcomment

theorem At.ready (h : At lx kinds stack brackets c allowed)
    (hpasses : Passes (decide (0 < brackets)) allowed c allowed' c') :
    Ready lx kinds stack brackets c'.mark.column c'.rest allowed' := by
  have hblanks := hpasses (c.rest.length + 1) (Nat.lt_succ_self _)
  have hskip : lx.skipBlanks (lx.cursor.rest.length + 1) =
      { lx with cursor := c', keyAllowed := allowed' } := by
    rw [skipBlanks_eq, h.inFlow_eq, h.allowed_eq, h.cursor_eq, hblanks]
  have hdrop : ({ lx with cursor := c', keyAllowed := allowed' } : Lexer).dropStale =
      .ok { lx with
        cursor := c', keyAllowed := allowed'
        keys := lx.keys.map fun key => key.filter
          (!({ lx with cursor := c', keyAllowed := allowed' } : Lexer).isStale ·) } := by
    rw [dropStale_eq]
    split
    · rename_i k hfind
      have hrequired := List.find?_some hfind
      obtain ⟨key, hmem, hkey⟩ := List.mem_filterMap.1 (List.mem_of_find?_eq_some hfind)
      rw [h.not_required key hmem k (Option.filter_eq_some_iff.1 hkey).1] at hrequired
      cases hrequired
    · rfl
  refine ⟨h.open, { lx with
    cursor := c', keyAllowed := allowed'
    keys := lx.keys.map fun key => key.filter
      (!({ lx with cursor := c', keyAllowed := allowed' } : Lexer).isStale ·) }, c',
    ⟨h.handedOn_eq, h.kinds_eq, h.running, h.stack_eq, ?_, ?_, rfl, rfl⟩, rfl, rfl, ?_, ?_⟩
  · rw [List.length_map, h.brackets_eq]
  · intro key hmem k hk
    obtain ⟨key', hmem', rfl⟩ := List.mem_map.1 hmem
    exact h.not_required key' hmem' k (Option.filter_eq_some_iff.1 hk).1
  · rw [next_eq, hskip, hdrop]
    rfl
  · have hlength : c'.rest.length ≤ c.rest.length := by
      have hle := length_passBlanks (decide (0 < brackets)) (c.rest.length + 1) allowed c
      rwa [hblanks] at hle
    simp only [potential, h.cursor_eq]
    omega

/-- The lexer behind the end of the innermost block. -/
def blockClosed (lx : Lexer) (outer : Int) (more : List Int) : Lexer :=
  { lx.push ⟨.blockEnd, lx.cursor.mark, lx.cursor.mark⟩ with indent := outer, indents := more }

theorem closeBlocks_indents (lx : Lexer) (column : Int) (open_ indents : List Int) :
    ({ lx with indents } : Lexer).closeBlocks column open_ = lx.closeBlocks column open_ := by
  induction open_ generalizing lx with
  | nil => rfl
  | cons outer more ih =>
    rw [closeBlocks, closeBlocks]
    split
    · exact ih { lx.push ⟨.blockEnd, lx.cursor.mark, lx.cursor.mark⟩ with indent := outer }
    · rfl

theorem indent_eq_floor (h : lx.indent :: lx.indents = stack.map Int.ofNat ++ [-1]) :
    lx.indent = floor stack := by
  cases stack <;> exact (List.cons.inj h).1

theorem At.indent_eq (h : At lx kinds stack brackets c allowed) : lx.indent = floor stack :=
  indent_eq_floor h.stack_eq

theorem unroll_of_le {column : Int} (h : lx.indent ≤ column) : lx.unroll column = lx := by
  unfold Lexer.unroll
  split
  · rfl
  · cases hindents : lx.indents with
    | nil => rw [closeBlocks, ← hindents]
    | cons outer more => rw [closeBlocks, if_neg (Int.not_lt.2 h), ← hindents]

theorem At.unroll_eq_self (h : At lx kinds stack 0 c allowed) {column : Int}
    (hfloor : floor stack ≤ column) : lx.unroll column = lx :=
  unroll_of_le (h.indent_eq ▸ hfloor)

theorem At.unroll_of_deep {top : Nat} (h : At lx kinds (top :: outer) 0 c allowed) {column : Int}
    (hdeep : column < top) : ∃ closed : Lexer, lx.unroll column = closed.unroll column ∧
      At closed (kinds ++ [.blockEnd]) outer 0 c allowed ∧ closed.potential = lx.potential := by
  obtain ⟨next, more, hnext⟩ : ∃ next more, lx.indents = next :: more ∧
      next :: more = outer.map Int.ofNat ++ [-1] := by
    have hindents := (List.cons.inj h.stack_eq).2
    cases hlx : lx.indents with
    | nil => rw [hlx] at hindents; cases outer <;> cases hindents
    | cons next more => exact ⟨next, more, rfl, hlx ▸ hindents⟩
  refine ⟨lx.blockClosed next more, ?_, ⟨h.handedOn_eq, ?_, ?_, hnext.2, h.brackets_eq,
    h.not_required, h.cursor_eq, h.allowed_eq⟩, ?_⟩
  · have hflow : lx.inFlow = false := h.inFlow_eq
    have hflow' : (lx.blockClosed next more).inFlow = false := hflow
    have hindent : column < lx.indent := h.indent_eq ▸ hdeep
    rw [unroll, unroll, hflow, hflow', if_neg Bool.false_ne_true, if_neg Bool.false_ne_true,
      hnext.1, closeBlocks, if_pos hindent]
    exact (closeBlocks_indents _ column more more).symm
  · simp [blockClosed, push, h.kinds_eq]
  · simp [h.running]
  · simp only [potential, blockClosed, push, hnext.1, List.length_append, List.length_cons,
      List.length_nil]
    omega

/-- A block that is indented deeper than the next token is closed. -/
theorem Ready.pop {top : Nat} (h : Ready lx kinds (top :: outer) 0 column rest allowed)
    (hdeep : column < top) : Ready lx (kinds ++ [.blockEnd]) outer 0 column rest allowed := by
  obtain ⟨hopen, here, c, hat, hrest, hcolumn, hnext, hpotential⟩ := h
  obtain ⟨closed, hunroll, hclosed, heq⟩ := hat.unroll_of_deep (Int.ofNat_lt.2 hdeep)
  exact ⟨hopen, closed, c, hclosed, hrest, hcolumn, by rw [hnext, hunroll], heq ▸ hpotential⟩

/-- One token is read. Blocks are not closed by it: they are open at a column up to here. -/
theorem Ready.step {P : Lexer → Prop} (h : Ready lx kinds stack brackets column rest allowed)
    (hstack : brackets = 0 → floor stack ≤ column)
    (hread : ∀ here c, At here kinds stack brackets c allowed → c.rest = rest →
      c.mark.column = column →
      ∃ lx', here.readToken = .ok lx' ∧ 1 + lx'.potential ≤ here.potential ∧ P lx') :
    ∃ lx', Advances lx lx' ∧ P lx' := by
  obtain ⟨hopen, here, c, hat, hrest, hcolumn, hnext, hpotential⟩ := h
  have hunroll : here.unroll column = here := by
    rcases Nat.eq_zero_or_pos brackets with rfl | hpos
    · exact hat.unroll_eq_self (hstack rfl)
    · rw [unroll, hat.inFlow_eq, if_pos (decide_eq_true hpos)]
  obtain ⟨lx', hok, hle, hP⟩ := hread here c hat hrest hcolumn
  exact ⟨lx', ⟨1, .step hopen (by rw [hnext, hunroll, hok]) (.refl lx'), by omega⟩, hP⟩

/-! ## Parts of a token -/

variable {here : Lexer} {ch : Char} {more : List Char} {kind : TokenKind}

theorem atDocumentIndicator_eq_false (hrest : c.rest = ch :: more) (hpoint : ch ≠ '.')
    (hdash : ch = '-' → more.head? ≠ some '-') : c.atDocumentIndicator = false := by
  have hpoints : c.startsWith ['.', '.', '.'] = false := by
    simp [Cursor.startsWith, hrest, List.isPrefixOf, hpoint.symm]
  have hdashes : c.startsWith ['-', '-', '-'] = false := by
    rw [Cursor.startsWith, hrest, Bool.eq_false_iff, ne_eq, List.isPrefixOf_iff_prefix]
    rintro ⟨after, hafter⟩
    obtain ⟨hfirst, hsecond⟩ := List.cons.inj hafter
    exact hdash hfirst.symm (by rw [← hsecond]; rfl)
  simp [Cursor.atDocumentIndicator, hpoints, hdashes]

theorem At.readToken_eq (h : At here kinds stack brackets c allowed) (hrest : c.rest = ch :: more)
    (hdirective : ch ≠ '%') (hmarker : c.atDocumentIndicator = false) :
    here.readToken = here.token ch more := by
  have hrest' : here.cursor.rest = ch :: more := h.cursor_eq ▸ hrest
  have hmarker' : here.cursor.atDocumentIndicator = false := h.cursor_eq ▸ hmarker
  rw [readToken, hrest']
  simp [hdirective, hmarker']

theorem At.dropKey (h : At here kinds stack brackets c allowed) :
    ∃ lx, here.dropKey = .ok lx ∧ At lx kinds stack brackets c allowed ∧
      lx.potential = here.potential := by
  unfold Lexer.dropKey
  split
  · rename_i key outer hkeys
    have hkey := h.not_required (some key) (by rw [hkeys]; exact List.mem_cons_self) key rfl
    refine ⟨{ here with keys := none :: outer }, if_neg (by simp [hkey]), ⟨h.handedOn_eq, h.kinds_eq,
      h.running, h.stack_eq, ?_, fun k hmem => ?_, h.cursor_eq, h.allowed_eq⟩, rfl⟩
    · rw [← h.brackets_eq, hkeys]
      rfl
    · rcases List.mem_cons.1 hmem with rfl | hmem
      · simp
      · exact h.not_required k (hkeys ▸ List.mem_cons_of_mem _ hmem)
  · exact ⟨here, rfl, h, rfl⟩

/-- A key may start here, but not one that must get its colon. -/
theorem At.saveKey (h : At here kinds stack brackets c allowed)
    (hfree : allowed = true → brackets = 0 → floor stack ≠ c.mark.column) :
    ∃ lx, here.saveKey = .ok lx ∧ At lx kinds stack brackets c allowed ∧
      lx.potential = here.potential := by
  rw [saveKey_eq, h.allowed_eq]
  cases hallowed : allowed with
  | false => exact ⟨here, rfl, hallowed ▸ h, rfl⟩
  | true =>
    obtain ⟨lx, hdrop, hat, hpotential⟩ := h.dropKey
    rw [hdrop]
    refine ⟨_, rfl, ⟨hat.handedOn_eq, hat.kinds_eq, hat.running, hat.stack_eq, ?_, fun k hmem => ?_,
      hat.cursor_eq, hallowed ▸ hat.allowed_eq⟩, hpotential⟩
    · rw [List.length_cons, List.length_drop, hat.brackets_eq, Nat.add_sub_cancel]
    · rcases List.mem_cons.1 hmem with rfl | hmem
      · intro k hk
        rw [← Option.some.inj hk, h.inFlow_eq]
        rcases Nat.eq_zero_or_pos brackets with hzero | hpos
        · rw [column, h.cursor_eq, h.indent_eq]
          simp [hfree hallowed hzero]
        · simp [hpos]
      · exact hat.not_required k (List.mem_of_mem_drop hmem)

theorem At.pushSign (h : At here kinds stack brackets c allowed) {count : Nat} (hcount : 0 < count)
    (hlong : count ≤ c.rest.length) (hkind : kind ≠ .streamEnd) (allowed' : Bool) :
    At ((here.allowKey allowed').pushSign kind count) (kinds ++ [kind]) stack brackets
        (c.advance count) allowed' ∧
      ((here.allowKey allowed').pushSign kind count).potential + 4 ≤ here.potential := by
  refine ⟨⟨h.handedOn_eq, ?_, ?_, h.stack_eq, h.brackets_eq, h.not_required, ?_, rfl⟩, ?_⟩
  · simp [Lexer.pushSign, push, allowKey, h.kinds_eq]
  · simp [h.running, hkind.symm]
  · simp [Lexer.pushSign, push, allowKey, h.cursor_eq]
  · simp only [potential, Lexer.pushSign, push, allowKey, h.cursor_eq, Cursor.advance,
      List.length_drop, List.length_append, List.length_cons, List.length_nil]
    omega

theorem At.pushScalar (h : At here kinds stack brackets c allowed) (style : ScalarStyle)
    {read : Except Fault Scalar.Scanned} {s : Scalar.Scanned} (hread : read = .ok s)
    (hlength : s.cursor.rest.length < c.rest.length) :
    ∃ lx, here.pushScalar style read = .ok lx ∧
      At lx (kinds ++ [.scalar style s.text]) stack brackets s.cursor (allowed || s.broken) ∧
      1 + lx.potential ≤ here.potential := by
  subst hread
  refine ⟨_, rfl, ⟨h.handedOn_eq, ?_, ?_, h.stack_eq, h.brackets_eq, h.not_required, rfl, ?_⟩, ?_⟩
  · simp [push, h.kinds_eq]
  · simp [h.running]
  · simp [h.allowed_eq]
  · simp only [potential, push, h.cursor_eq, List.length_append, List.length_cons, List.length_nil]
    omega

theorem At.allowKey (h : At here kinds stack brackets c allowed) (allowed' : Bool) :
    At (here.allowKey allowed') kinds stack brackets c allowed' :=
  ⟨h.handedOn_eq, h.kinds_eq, h.running, h.stack_eq, h.brackets_eq, h.not_required, h.cursor_eq, rfl⟩

/-- The open blocks, with one at this column. -/
def entered (stack : List Nat) (column : Nat) : List Nat :=
  if floor stack < column then column :: stack else stack

/-- The sign that a block starts at this column. -/
def opening (stack : List Nat) (column : Nat) (kind : TokenKind) : List TokenKind :=
  if floor stack < column then [kind] else []

theorem At.roll (h : At here kinds stack 0 c allowed) (hkind : kind ≠ .streamEnd)
    (mark : Mark) (column : Nat) :
    At (here.roll column none kind mark) (kinds ++ opening stack column kind)
        (entered stack column) 0 c allowed ∧
      (here.roll column none kind mark).potential ≤ here.potential + 2 := by
  rw [roll_eq, h.inFlow_eq, h.indent_eq, opening, entered]
  by_cases hdeep : floor stack < column
  · rw [if_neg (by simpa using hdeep), if_pos hdeep, if_pos hdeep]
    refine ⟨⟨h.handedOn_eq, ?_, ?_, ?_, h.brackets_eq, h.not_required, h.cursor_eq, h.allowed_eq⟩, ?_⟩
    · simp [push, opened, h.kinds_eq]
    · simp [h.running, hkind.symm]
    · rw [List.map_cons, List.cons_append, ← h.stack_eq]
      rfl
    · simp only [potential, push, opened, List.length_append, List.length_cons, List.length_nil]
      omega
  · rw [if_pos (by simpa using Int.not_lt.1 hdeep), if_neg hdeep, if_neg hdeep, List.append_nil]
    exact ⟨h, Nat.le_add_right _ _⟩

/-! ## Signs -/

/-- The token before is read, and the text goes on at this column. -/
def Stands (lx : Lexer) (kinds : List TokenKind) (stack : List Nat) (brackets column : Nat)
    (rest : List Char) (allowed : Bool) : Prop :=
  ∃ c, At lx kinds stack brackets c allowed ∧ c.rest = rest ∧ c.mark.column = column

theorem Stands.spaces {n : Nat}
    (h : Stands lx kinds stack brackets column (List.replicate n ' ' ++ rest) allowed)
    (hpos : 0 < column) (hrest : startsToken rest = true) :
    Ready lx kinds stack brackets (column + n) rest allowed := by
  obtain ⟨c, hat, hspaces, hcolumn⟩ := h
  have hafter : (c.advance n).rest = rest := by simp [Cursor.advance, hspaces]
  have hmark : (c.advance n).Unmarked := .of_column (Nat.add_pos_left (hcolumn ▸ hpos) n)
  have hready := hat.ready (.spaces hspaces (.here (by rwa [hafter]) hmark))
  rw [hafter] at hready
  simpa [Cursor.advance, hcolumn] using hready

theorem Stands.ready (h : Stands lx kinds stack brackets column rest allowed) (hpos : 0 < column)
    (hrest : startsToken rest = true) : Ready lx kinds stack brackets column rest allowed :=
  h.spaces (n := 0) hpos hrest

/-- A sign: what comes before it in the same token, and then the character itself. -/
theorem Ready.sign {kinds' : List TokenKind} {stack' : List Nat} {brackets' : Nat}
    {allowed' : Bool} (h : Ready lx kinds stack brackets column (ch :: more) allowed)
    (hstack : brackets = 0 → floor stack ≤ column) (hch : ch ≠ '%')
    (hmarker : ch = '-' → endsWord more = true) (hpoint : ch ≠ '.') (hkind : kind ≠ .streamEnd)
    (htoken : ∀ here c, At here kinds stack brackets c allowed → c.mark.column = column →
      ∃ before : Lexer, here.token ch more = .ok ((before.allowKey allowed').pushSign kind 1) ∧
        At before kinds' stack' brackets' c allowed ∧ before.potential ≤ here.potential + 3) :
    ∃ lx', Advances lx lx' ∧
      Stands lx' (kinds' ++ [kind]) stack' brackets' (column + 1) more allowed' := by
  refine h.step hstack fun here c hat hrest hcolumn => ?_
  have hno : c.atDocumentIndicator = false := by
    refine atDocumentIndicator_eq_false hrest hpoint fun hdash hhead => ?_
    cases more with
    | nil => cases hhead
    | cons d ds =>
      rw [Option.some.inj hhead] at hmarker
      exact absurd (hmarker hdash) (by simp [endsWord, isGap, isBreak])
  obtain ⟨before, hok, hbefore, hle⟩ := htoken here c hat hcolumn
  obtain ⟨hat', hpotential⟩ := hbefore.pushSign Nat.one_pos (by simp [hrest]) hkind allowed'
  refine ⟨_, by rw [hat.readToken_eq hrest hch hno, hok], by omega, _, hat', ?_, ?_⟩
  · simp [Cursor.advance, hrest]
  · simp [Cursor.advance, hcolumn]

/-- The dash before an item of a block. -/
theorem Ready.dash (h : Ready lx kinds stack 0 column ('-' :: more) true)
    (hmore : endsWord more = true) (hstack : floor stack ≤ column) :
    ∃ lx', Advances lx lx' ∧
      Stands lx' (kinds ++ opening stack column .blockSequenceStart ++ [.blockEntry])
        (entered stack column) 0 (column + 1) more true := by
  refine h.sign (fun _ => hstack) (by decide) (fun _ => hmore) (by decide) (by simp)
    fun here c hat hcolumn => ?_
  have hkind : TokenKind.blockSequenceStart ≠ .streamEnd := by simp
  obtain ⟨hrolled, hle⟩ := hat.roll hkind here.cursor.mark column
  obtain ⟨before, hdrop, hbefore, heq⟩ := hrolled.dropKey
  refine ⟨before, ?_, hbefore, by omega⟩
  have htoken : here.token '-' more = here.blockEntry := by simp [token, hmore]
  have hcol : here.column = (column : Int) := by rw [Lexer.column, hat.cursor_eq, hcolumn]
  rw [htoken, blockEntry, hat.inFlow_eq, hat.allowed_eq, hcol, hdrop]
  rfl

/-- An opening bracket. -/
theorem Ready.bracket (h : Ready lx kinds stack brackets column (ch :: more) allowed)
    (hch : ch = '[' ∧ kind = .flowSequenceStart ∨ ch = '\x7b' ∧ kind = .flowMappingStart)
    (hstack : brackets = 0 → floor stack < column) :
    ∃ lx', Advances lx lx' ∧
      Stands lx' (kinds ++ [kind]) stack (brackets + 1) (column + 1) more true := by
  have htoken : ∀ here : Lexer, here.token ch more = here.flowStart kind := by
    rcases hch with ⟨rfl, rfl⟩ | ⟨rfl, rfl⟩ <;> intro here <;> rfl
  have hsign : ch ≠ '%' ∧ ch ≠ '-' ∧ ch ≠ '.' ∧ kind ≠ .streamEnd := by
    rcases hch with ⟨rfl, rfl⟩ | ⟨rfl, rfl⟩ <;> simp
  refine h.sign (fun hb => Int.le_of_lt (hstack hb)) hsign.1 (fun h => absurd h hsign.2.1) hsign.2.2.1 hsign.2.2.2
    fun here c hat hcolumn => ?_
  obtain ⟨saved, hsave, hsaved, heq⟩ := hat.saveKey fun _ hb =>
    Int.ne_of_lt (hcolumn ▸ hstack hb)
  refine ⟨{ saved with keys := none :: saved.keys }, ?_, ⟨hsaved.handedOn_eq, hsaved.kinds_eq,
    hsaved.running, hsaved.stack_eq, ?_, fun key hmem => ?_, hsaved.cursor_eq, hsaved.allowed_eq⟩, ?_⟩
  · rw [htoken, flowStart, hsave]
    rfl
  · rw [List.length_cons, hsaved.brackets_eq]
  · rcases List.mem_cons.1 hmem with rfl | hmem
    · simp
    · exact hsaved.not_required key hmem
  · simpa [potential] using heq.le.trans (Nat.le_add_right _ 3)

/-- A closing bracket. -/
theorem Ready.closingBracket
    (h : Ready lx kinds stack (brackets + 1) column (ch :: more) allowed)
    (hch : ch = ']' ∧ kind = .flowSequenceEnd ∨ ch = '\x7d' ∧ kind = .flowMappingEnd) :
    ∃ lx', Advances lx lx' ∧
      Stands lx' (kinds ++ [kind]) stack brackets (column + 1) more false := by
  have htoken : ∀ here : Lexer, here.token ch more = here.flowEnd kind := by
    rcases hch with ⟨rfl, rfl⟩ | ⟨rfl, rfl⟩ <;> intro here <;> rfl
  have hsign : ch ≠ '%' ∧ ch ≠ '-' ∧ ch ≠ '.' ∧ kind ≠ .streamEnd := by
    rcases hch with ⟨rfl, rfl⟩ | ⟨rfl, rfl⟩ <;> simp
  refine h.sign (by simp) hsign.1 (fun h => absurd h hsign.2.1) hsign.2.2.1 hsign.2.2.2
    fun here c hat hcolumn => ?_
  obtain ⟨dropped, hdrop, hdropped, heq⟩ := hat.dropKey
  have hflow : dropped.inFlow = true := by simp [hdropped.inFlow_eq]
  refine ⟨{ dropped with keys := dropped.keys.drop 1 }, ?_, ⟨hdropped.handedOn_eq,
    hdropped.kinds_eq, hdropped.running, hdropped.stack_eq, ?_, fun key hmem => ?_,
    hdropped.cursor_eq, hdropped.allowed_eq⟩, ?_⟩
  · rw [htoken, flowEnd, hdrop]
    simp only [bind, Except.bind, hflow, if_true]
  · simp [hdropped.brackets_eq]
  · exact hdropped.not_required key (List.mem_of_mem_drop hmem)
  · simpa [potential] using heq.le.trans (Nat.le_add_right _ 3)

/-- The comma between two items of a list. -/
theorem Ready.comma (h : Ready lx kinds stack (brackets + 1) column (',' :: more) allowed) :
    ∃ lx', Advances lx lx' ∧
      Stands lx' (kinds ++ [.flowEntry]) stack (brackets + 1) (column + 1) more true := by
  refine h.sign (by simp) (by decide) (fun h => absurd h (by decide)) (by decide) (by simp)
    fun here c hat hcolumn => ?_
  obtain ⟨dropped, hdrop, hdropped, heq⟩ := hat.dropKey
  refine ⟨dropped, ?_, hdropped, by omega⟩
  have htoken : here.token ',' more = here.flowEntry := rfl
  rw [htoken, flowEntry, hdrop]
  rfl

/-- Three dashes that stand before the blocks of a text. -/
theorem Ready.marker (h : Ready lx kinds [] 0 0 ('-' :: '-' :: '-' :: more) allowed)
    (hmore : endsWord more = true) :
    ∃ lx', Advances lx lx' ∧ Stands lx' (kinds ++ [.documentStart]) [] 0 3 more false := by
  refine h.step (fun _ => by decide) fun here c hat hrest hcolumn => ?_
  have hmarker : c.atDocumentIndicator = true := by
    simp [Cursor.atDocumentIndicator, Cursor.startsWith, hrest, hcolumn, hmore]
  obtain ⟨dropped, hdrop, hdropped, heq⟩ := hat.dropKey
  have hkind : TokenKind.documentStart ≠ .streamEnd := by simp
  have hlong : 3 ≤ c.rest.length := by simp [hrest]
  obtain ⟨hat', hpotential⟩ := hdropped.pushSign (by decide) hlong hkind false
  refine ⟨_, ?_, by omega, _, hat', by simp [Cursor.advance, hrest], by simp [Cursor.advance, hcolumn]⟩
  have hunroll : here.unroll (-1) = here := hat.unroll_eq_self (Int.le_refl _)
  rw [readToken, hat.cursor_eq, hrest]
  simp [hmarker, documentIndicator, hunroll, hdrop, bind, Except.bind]

/-! ## The end of the text -/

theorem At.unroll (h : At lx kinds stack 0 c allowed) (column : Int) :
    ∃ n, n ≤ stack.length ∧ (column < 0 → n = stack.length) ∧
      At (lx.unroll column) (kinds ++ List.replicate n .blockEnd) (stack.drop n) 0 c allowed ∧
      (lx.unroll column).potential = lx.potential := by
  induction stack generalizing lx kinds with
  | nil =>
    refine ⟨0, Nat.le_refl _, fun _ => rfl, ?_⟩
    have hself : lx.unroll column = lx := by
      have hindents : lx.indents = [] := (List.cons.inj h.stack_eq).2
      rw [Lexer.unroll, h.inFlow_eq, hindents, closeBlocks, ← hindents]
      rfl
    rw [hself]
    simpa using h
  | cons top outer ih =>
    by_cases hdeep : column < top
    · obtain ⟨closed, hunroll, hclosed, heq⟩ := h.unroll_of_deep hdeep
      obtain ⟨n, hn, hall, hat, hpotential⟩ := ih hclosed
      refine ⟨n + 1, Nat.succ_le_succ hn, fun hneg => by rw [hall hneg, List.length_cons], ?_,
        by rw [hunroll, hpotential, heq]⟩
      rw [hunroll, List.replicate_succ, List.append_cons]
      exact hat
    · refine ⟨0, Nat.zero_le _, fun hneg => absurd hneg (by omega), ?_⟩
      rw [h.unroll_eq_self (Int.not_lt.1 hdeep)]
      simpa using h

theorem At.dropKey_keys (h : At here kinds stack 0 c allowed) (hok : here.dropKey = .ok lx) :
    ∀ key ∈ lx.keys, key = none := by
  have hone : ∃ key, here.keys = [key] := List.length_eq_one_iff.1 h.brackets_eq
  obtain ⟨key, hkeys⟩ := hone
  unfold Lexer.dropKey at hok
  cases key with
  | none =>
    rw [hkeys] at hok
    rw [← Except.ok.inj hok, hkeys]
    simp
  | some k =>
    rw [hkeys] at hok
    dsimp only at hok
    split at hok
    · cases hok
    · rw [← Except.ok.inj hok]
      simp

/-- The text ends here, so the next token closes all blocks and is the last one. -/
def Over (lx : Lexer) (kinds : List TokenKind) (stack : List Nat) : Prop :=
  (∀ t ∈ lx.queue, t.kind ≠ .streamEnd) ∧
    ∃ last, lx.next = .ok last ∧ Finished last ∧
      last.queue.map (·.kind) = kinds ++ List.replicate stack.length .blockEnd ++ [.streamEnd] ∧
      last.queue.length ≤ lx.potential + 1

/-- A last block that was closed already does not matter. -/
theorem Over.pop {top : Nat} (h : Over lx kinds (top :: outer)) :
    Over lx (kinds ++ [.blockEnd]) outer := by
  obtain ⟨hopen, last, hnext, hfinished, hkinds, hlength⟩ := h
  refine ⟨hopen, last, hnext, hfinished, ?_, hlength⟩
  rw [hkinds, List.length_cons, List.replicate_succ, ← List.append_cons]

theorem finished_of_kinds {last : Lexer} {kinds : List TokenKind}
    (hkeys : ∀ key ∈ last.keys, key = none) (hkinds : last.queue.map (·.kind) = kinds ++ [.streamEnd])
    (hrunning : .streamEnd ∉ kinds) : Finished last := by
  refine ⟨hkeys, ?_⟩
  obtain ⟨front, back, hqueue, hfront, hback⟩ := List.map_eq_append_iff.1 hkinds
  obtain ⟨t, rest, rfl, ht, hrest⟩ := List.map_eq_cons_iff.1 hback
  obtain rfl := List.map_eq_nil_iff.1 hrest
  exact ⟨front, t, hqueue, ht, fun u hu heq => hrunning (hfront ▸ List.mem_map.2 ⟨u, hu, heq⟩)⟩

theorem Ready.over (h : Ready lx kinds stack 0 column [] allowed) : Over lx kinds stack := by
  obtain ⟨hopen, here, c, hat, hrest, hcolumn, hnext, hpotential⟩ := h
  obtain ⟨m, hm, -, hclosed, heq⟩ := hat.unroll column
  -- the end of the stream is marked at the start of a line
  let mark := c.mark
  let atLineStart : Mark := if mark.column = 0 then mark else ⟨mark.index, mark.line + 1, 0⟩
  let moved : Lexer := { here.unroll column with cursor := ⟨atLineStart, c.rest⟩ }
  have hmoved : At moved (kinds ++ List.replicate m .blockEnd) (stack.drop m) 0 ⟨atLineStart, c.rest⟩
      allowed := ⟨hclosed.handedOn_eq, hclosed.kinds_eq, hclosed.running, hclosed.stack_eq,
    hclosed.brackets_eq, hclosed.not_required, rfl, hclosed.allowed_eq⟩
  obtain ⟨n, -, hall, hend, heq'⟩ := hmoved.unroll (-1)
  obtain ⟨dropped, hdrop, hdropped, heq''⟩ := hend.dropKey
  have hkeys := hend.dropKey_keys hdrop
  have hcount : m + n = stack.length := by
    rw [hall (by decide), List.length_drop]
    omega
  let last := (dropped.allowKey false).pushSign .streamEnd 0
  have hread : (here.unroll column).readToken = .ok last := by
    have hnil : (here.unroll column).cursor.rest = [] := by rw [hclosed.cursor_eq, hrest]
    have hcursor : (here.unroll column).cursor = c := hclosed.cursor_eq
    rw [readToken, hnil]
    dsimp only
    rw [streamEnd, hcursor]
    change (moved.unroll (-1)).dropKey >>= _ = _
    rw [hdrop]
    rfl
  have hlast : last.queue.map (·.kind) =
      kinds ++ List.replicate stack.length .blockEnd ++ [.streamEnd] := by
    have hkinds := hdropped.kinds_eq
    simp only [last, pushSign, push, Lexer.allowKey, List.map_append, List.map_cons, List.map_nil,
      hkinds, ← hcount, ← List.replicate_append_replicate, List.append_assoc]
  refine ⟨hopen, last, by rw [hnext, hread], finished_of_kinds hkeys hlast ?_, hlast, ?_⟩
  · simp [hat.running]
  · have hlength : last.queue.length = dropped.queue.length + 1 := by
      simp [last, pushSign, push, Lexer.allowKey]
    have hle : dropped.queue.length ≤ dropped.potential := by
      simp only [potential]
      omega
    have hsame : moved.potential = (here.unroll column).potential := by
      simp only [moved, potential, hclosed.cursor_eq]
    omega

end SchemaTidy.Yaml.Lexer
