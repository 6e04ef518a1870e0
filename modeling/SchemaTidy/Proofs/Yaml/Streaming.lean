import SchemaTidy.Yaml.Token.Lexer

/-! # Handing tokens on

The lexer hands a token on as soon as no key can start at it any more. What it reads does not
depend on when: reading on with all tokens kept gives the same tokens (`run_of_reads`). -/

namespace SchemaTidy.Yaml.Lexer

/-- The lexer as it would be with the tokens `out` still in its queue. -/
def held (out : List Token) (lx : Lexer) : Lexer :=
  { lx with queue := out ++ lx.queue, handedOn := 0 }

/-- The tokens `out` were handed on, and no key can start at one of them. -/
structure Kept (out : List Token) (lx : Lexer) : Prop where
  length_eq : lx.handedOn = out.length
  handedOn_le : ∀ key ∈ lx.keys, ∀ k, key = some k → lx.handedOn ≤ k.number

/-- The same outcome, but for tokens that were handed on. -/
def Agrees (out : List Token) (x y : Except Fault Lexer) : Prop :=
  x = y.map (held out) ∧ ∀ lx, y = .ok lx → Kept out lx

variable {out : List Token} {lx : Lexer}

@[simp] theorem held_cursor : (lx.held out).cursor = lx.cursor := rfl

@[simp] theorem held_indent : (lx.held out).indent = lx.indent := rfl

@[simp] theorem held_indents : (lx.held out).indents = lx.indents := rfl

@[simp] theorem held_keys : (lx.held out).keys = lx.keys := rfl

@[simp] theorem held_keyAllowed : (lx.held out).keyAllowed = lx.keyAllowed := rfl

@[simp] theorem held_inFlow : (lx.held out).inFlow = lx.inFlow := rfl

@[simp] theorem held_column : (lx.held out).column = lx.column := rfl

theorem Agrees.error (f : Fault) : Agrees out (.error f) (.error f) :=
  ⟨rfl, by simp⟩

theorem Agrees.ok {lx' : Lexer} (heq : lx' = lx.held out) (h : Kept out lx) :
    Agrees out (.ok lx') (.ok lx) :=
  ⟨congrArg Except.ok heq, fun _ hok => Except.ok.inj hok ▸ h⟩

theorem Agrees.bind {x y : Except Fault Lexer} (h : Agrees out x y)
    {g : Lexer → Except Fault Lexer} (hg : ∀ lx, Kept out lx → Agrees out (g (lx.held out)) (g lx)) :
    Agrees out (x >>= g) (y >>= g) := by
  obtain ⟨rfl, hkept⟩ := h
  cases y with
  | error f => exact .error f
  | ok lx => exact hg lx (hkept lx rfl)

/-! ## Parts of a step -/

theorem held_push (t : Token) : (lx.held out).push t = (lx.push t).held out := by
  simp [held, push]

theorem held_pushSign (kind : TokenKind) (count : Nat) :
    (lx.held out).pushSign kind count = (lx.pushSign kind count).held out := by
  simp [held, pushSign, push]

theorem held_insert (h : Kept out lx) {number : Nat} (hn : lx.handedOn ≤ number) (t : Token) :
    (lx.held out).insert number t = (lx.insert number t).held out := by
  have hshift : number - 0 = out.length + (number - lx.handedOn) := by
    have := h.length_eq
    omega
  simp only [insert, held, List.splitAt_eq, hshift, List.take_length_add_append,
    List.drop_length_add_append, List.append_assoc]

/-- The lexer inside a new block collection at a column. -/
def opened (lx : Lexer) (column : Int) : Lexer :=
  { lx with indents := lx.indent :: lx.indents, indent := column }

theorem roll_eq (lx : Lexer) (column : Int) (number : Option Nat) (kind : TokenKind)
    (mark : Mark) : lx.roll column number kind mark =
      if lx.inFlow || column ≤ lx.indent then lx
      else
        match number with
        | some n => (lx.opened column).insert n ⟨kind, mark, mark⟩
        | none => (lx.opened column).push ⟨kind, mark, mark⟩ := rfl

theorem Kept.opened (h : Kept out lx) (column : Int) : Kept out (lx.opened column) :=
  ⟨h.length_eq, h.handedOn_le⟩

theorem held_roll (h : Kept out lx) {number : Option Nat} (hn : ∀ n ∈ number, lx.handedOn ≤ n)
    (column : Int) (kind : TokenKind) (mark : Mark) :
    (lx.held out).roll column number kind mark = (lx.roll column number kind mark).held out := by
  have hopened : (lx.held out).opened column = (lx.opened column).held out := rfl
  rw [roll_eq, roll_eq, apply_ite (held out), hopened]
  cases number with
  | none => dsimp only; rw [held_push]; rfl
  | some n => dsimp only; rw [held_insert (h.opened column) (hn n rfl)]; rfl

theorem held_closeBlocks (column : Int) (indents : List Int) :
    (lx.held out).closeBlocks column indents = (lx.closeBlocks column indents).held out := by
  induction indents generalizing lx with
  | nil => rfl
  | cons outer more ih =>
    by_cases hdeep : column < lx.indent
    · have hdeep' : column < (lx.held out).indent := hdeep
      rw [closeBlocks, closeBlocks, if_pos hdeep, if_pos hdeep', ← ih]
      dsimp only
      rw [held_push]
      rfl
    · have hdeep' : ¬ column < (lx.held out).indent := hdeep
      rw [closeBlocks, closeBlocks, if_neg hdeep, if_neg hdeep']
      rfl

theorem held_unroll (column : Int) :
    (lx.held out).unroll column = (lx.unroll column).held out := by
  by_cases hflow : lx.inFlow = true
  · have hflow' : (lx.held out).inFlow = true := hflow
    rw [unroll, unroll, if_pos hflow, if_pos hflow']
  · have hflow' : ¬ (lx.held out).inFlow = true := hflow
    rw [unroll, unroll, if_neg hflow, if_neg hflow']
    exact held_closeBlocks column lx.indents

theorem closeBlocks_fields (lx : Lexer) (column : Int) (indents : List Int) :
    (lx.closeBlocks column indents).handedOn = lx.handedOn ∧
      (lx.closeBlocks column indents).keys = lx.keys := by
  induction indents generalizing lx with
  | nil => exact ⟨rfl, rfl⟩
  | cons outer more ih =>
    rw [closeBlocks]
    split
    · exact ih _
    · exact ⟨rfl, rfl⟩

theorem Kept.unroll (h : Kept out lx) (column : Int) : Kept out (lx.unroll column) := by
  unfold Lexer.unroll
  split
  · exact h
  · obtain ⟨hhanded, hkeys⟩ := closeBlocks_fields lx column lx.indents
    exact ⟨hhanded ▸ h.length_eq, by rw [hhanded, hkeys]; exact h.handedOn_le⟩

theorem Kept.roll (h : Kept out lx) (column : Int) (number : Option Nat) (kind : TokenKind)
    (mark : Mark) : Kept out (lx.roll column number kind mark) := by
  unfold Lexer.roll
  split
  · exact h
  · cases number <;> exact ⟨h.length_eq, h.handedOn_le⟩

theorem Kept.allowKey (h : Kept out lx) (allowed : Bool) : Kept out (lx.allowKey allowed) :=
  ⟨h.length_eq, h.handedOn_le⟩

theorem Kept.insert (h : Kept out lx) (number : Nat) (t : Token) :
    Kept out (lx.insert number t) := ⟨h.length_eq, h.handedOn_le⟩

theorem agrees_dropKey (h : Kept out lx) : Agrees out (lx.held out).dropKey lx.dropKey := by
  unfold dropKey
  rw [held_keys]
  split
  · rename_i key outer heq
    split
    · exact .error _
    · refine .ok rfl ⟨h.length_eq, fun key' hmem k hk => ?_⟩
      rcases List.mem_cons.1 hmem with rfl | hmem
      · cases hk
      · exact h.handedOn_le key' (by rw [heq]; exact List.mem_cons_of_mem _ hmem) k hk
  · exact .ok rfl h

theorem dropKey_fields {lx' : Lexer} (h : lx.dropKey = .ok lx') :
    lx'.handedOn = lx.handedOn ∧ lx'.queue = lx.queue := by
  unfold Lexer.dropKey at h
  split at h
  · split at h
    · cases h
    · rw [← Except.ok.inj h]; exact ⟨rfl, rfl⟩
  · rw [← Except.ok.inj h]; exact ⟨rfl, rfl⟩

theorem saveKey_eq (lx : Lexer) : lx.saveKey =
    if !lx.keyAllowed then .ok lx
    else lx.dropKey >>= fun dropped => .ok { dropped with
      keys := some ⟨!lx.inFlow && lx.indent == lx.column, lx.handedOn + lx.queue.length,
        lx.cursor.mark⟩ :: dropped.keys.drop 1 } := rfl

theorem agrees_saveKey (h : Kept out lx) : Agrees out (lx.held out).saveKey lx.saveKey := by
  have hnumber : (lx.held out).handedOn + (lx.held out).queue.length =
      lx.handedOn + lx.queue.length := by
    have := h.length_eq
    simp only [held, List.length_append]
    omega
  rw [saveKey_eq, saveKey_eq, hnumber, held_keyAllowed, held_inFlow, held_indent, held_column,
    held_cursor]
  split
  · exact .ok rfl h
  · obtain ⟨hdrop, hkept⟩ := agrees_dropKey h
    rw [hdrop]
    cases hdropped : lx.dropKey with
    | error f => exact .error f
    | ok dropped =>
      obtain ⟨hhanded, -⟩ := dropKey_fields hdropped
      have hkept := hkept dropped hdropped
      refine .ok rfl ⟨hkept.length_eq, fun key hmem k hk => ?_⟩
      rcases List.mem_cons.1 hmem with rfl | hmem
      · rw [← Option.some.inj hk]
        exact hhanded ▸ Nat.le_add_right _ _
      · exact hkept.handedOn_le key (List.mem_of_mem_drop hmem) k hk

/-! ## One token -/

theorem Agrees.pushToken (h : Kept out lx) (read : Except Fault (Token × Cursor)) :
    Agrees out ((lx.held out).pushToken read) (lx.pushToken read) := by
  cases read with
  | error f => exact .error f
  | ok r =>
    refine .ok ?_ ⟨h.length_eq, h.handedOn_le⟩
    rw [held_push]
    rfl

theorem Agrees.pushScalar (h : Kept out lx) (style : ScalarStyle)
    (read : Except Fault Scalar.Scanned) :
    Agrees out ((lx.held out).pushScalar style read) (lx.pushScalar style read) := by
  cases read with
  | error f => exact .error f
  | ok r =>
    refine .ok ?_ ⟨h.length_eq, h.handedOn_le⟩
    simp only [held_push, held_cursor, held_keyAllowed]
    rfl

theorem Agrees.pushSign (h : Kept out lx) (allowed : Bool) (kind : TokenKind) (count : Nat) :
    Agrees out (.ok (((lx.held out).allowKey allowed).pushSign kind count))
      (.ok ((lx.allowKey allowed).pushSign kind count)) := by
  have hallow : (lx.held out).allowKey allowed = (lx.allowKey allowed).held out := rfl
  rw [hallow, held_pushSign]
  exact .ok rfl ⟨h.length_eq, h.handedOn_le⟩

theorem agrees_unroll_dropKey (h : Kept out lx) (column : Int) :
    Agrees out ((lx.held out).unroll column).dropKey (lx.unroll column).dropKey :=
  held_unroll column ▸ agrees_dropKey (h.unroll column)

theorem agrees_streamEnd (h : Kept out lx) : Agrees out (lx.held out).streamEnd lx.streamEnd := by
  let m := lx.cursor.mark
  let atLineStart : Mark := if m.column = 0 then m else ⟨m.index, m.line + 1, 0⟩
  have hmoved : Kept out { lx with cursor := ⟨atLineStart, lx.cursor.rest⟩ } :=
    ⟨h.length_eq, h.handedOn_le⟩
  exact (agrees_unroll_dropKey hmoved (-1)).bind fun _ h => .pushSign h false .streamEnd 0

theorem agrees_directive (h : Kept out lx) : Agrees out (lx.held out).directive lx.directive :=
  (agrees_unroll_dropKey h (-1)).bind fun _ h =>
    .pushToken (h.allowKey false) _

theorem agrees_documentIndicator (h : Kept out lx) (kind : TokenKind) :
    Agrees out ((lx.held out).documentIndicator kind) (lx.documentIndicator kind) :=
  (agrees_unroll_dropKey h (-1)).bind fun _ h => .pushSign h false kind 3

theorem agrees_flowStart (h : Kept out lx) (kind : TokenKind) :
    Agrees out ((lx.held out).flowStart kind) (lx.flowStart kind) := by
  refine (agrees_saveKey h).bind fun lx hlx => ?_
  have hopen : Kept out { lx with keys := none :: lx.keys } := by
    refine ⟨hlx.length_eq, fun key hmem k hk => ?_⟩
    rcases List.mem_cons.1 hmem with rfl | hmem
    · cases hk
    · exact hlx.handedOn_le key hmem k hk
  exact .pushSign hopen true kind 1

theorem agrees_flowEnd (h : Kept out lx) (kind : TokenKind) :
    Agrees out ((lx.held out).flowEnd kind) (lx.flowEnd kind) := by
  refine (agrees_dropKey h).bind fun lx hlx => ?_
  have hclosed : Kept out { lx with keys := if lx.inFlow then lx.keys.drop 1 else lx.keys } := by
    refine ⟨hlx.length_eq, fun key hmem k hk => hlx.handedOn_le key ?_ k hk⟩
    dsimp only at hmem
    split at hmem
    · exact List.mem_of_mem_drop hmem
    · exact hmem
  exact .pushSign hclosed false kind 1

theorem agrees_flowEntry (h : Kept out lx) : Agrees out (lx.held out).flowEntry lx.flowEntry :=
  (agrees_dropKey h).bind fun _ h => .pushSign h true .flowEntry 1

theorem agrees_blockEntry (h : Kept out lx) :
    Agrees out (lx.held out).blockEntry lx.blockEntry := by
  unfold blockEntry
  rw [held_inFlow, held_keyAllowed, held_column, held_cursor, held_roll h (by simp)]
  split
  · exact .error _
  · exact (agrees_dropKey (h.roll ..)).bind fun _ h => .pushSign h true .blockEntry 1

theorem agrees_key (h : Kept out lx) : Agrees out (lx.held out).key lx.key := by
  unfold key
  rw [held_inFlow, held_keyAllowed, held_column, held_cursor, held_roll h (by simp)]
  split
  · exact .error _
  · exact (agrees_dropKey (h.roll ..)).bind fun lx h => .pushSign h (!lx.inFlow) .key 1

/-- The lexer with the token of a key put in before what turned out to be one. -/
def keyed (lx : Lexer) (key : KeyStart) (outer : List (Option KeyStart)) : Lexer :=
  { (lx.insert key.number ⟨.key, key.mark, key.mark⟩).roll key.mark.column (some key.number)
      .blockMappingStart key.mark with keys := none :: outer }

theorem value_of_key {key : KeyStart} {outer : List (Option KeyStart)}
    (h : lx.keys = some key :: outer) :
    lx.value = .ok (((lx.keyed key outer).allowKey false).pushSign .value 1) := by
  unfold value
  rw [h]
  rfl

theorem held_keyed (h : Kept out lx) {key : KeyStart} {outer : List (Option KeyStart)}
    (hkeys : lx.keys = some key :: outer) :
    (lx.held out).keyed key outer = (lx.keyed key outer).held out := by
  have hnumber : lx.handedOn ≤ key.number :=
    h.handedOn_le _ (by rw [hkeys]; exact List.mem_cons_self) key rfl
  have hinserted := h.insert key.number ⟨.key, key.mark, key.mark⟩
  have hroll : ∀ n ∈ some key.number,
      (lx.insert key.number ⟨.key, key.mark, key.mark⟩).handedOn ≤ n := fun n hn =>
    Option.some.inj hn ▸ hnumber
  rw [keyed, keyed, held_insert h hnumber, held_roll hinserted hroll]
  rfl

theorem Kept.keyed (h : Kept out lx) {key : KeyStart} {outer : List (Option KeyStart)}
    (hkeys : lx.keys = some key :: outer) : Kept out (lx.keyed key outer) := by
  have hrolled := (h.insert key.number ⟨.key, key.mark, key.mark⟩).roll key.mark.column
    (some key.number) .blockMappingStart key.mark
  have hhanded : (lx.keyed key outer).handedOn = lx.handedOn := by
    rw [Lexer.keyed, roll_eq]
    dsimp only
    split <;> rfl
  refine ⟨hrolled.length_eq, fun k hmem k' hk => ?_⟩
  rcases List.mem_cons.1 hmem with rfl | hmem
  · cases hk
  · rw [hhanded]
    exact h.handedOn_le k (by rw [hkeys]; exact List.mem_cons_of_mem _ hmem) k' hk

theorem agrees_value (h : Kept out lx) : Agrees out (lx.held out).value lx.value := by
  match hkeys : lx.keys with
  | some key :: outer =>
    rw [value_of_key hkeys, value_of_key (by rw [held_keys, hkeys]), held_keyed h hkeys]
    exact .pushSign (h.keyed hkeys) false .value 1
  | [] | none :: _ =>
    rw [value, value, held_keys, hkeys, held_inFlow, held_keyAllowed, held_column, held_cursor,
      held_roll h (by simp)]
    dsimp only
    split
    · exact .error _
    · exact .pushSign (h.roll ..) _ .value 1

theorem agrees_anchor (h : Kept out lx) (isAlias : Bool) :
    Agrees out ((lx.held out).anchor isAlias) (lx.anchor isAlias) :=
  (agrees_saveKey h).bind fun _ h =>
    .pushToken (h.allowKey false) _

theorem agrees_tag (h : Kept out lx) : Agrees out (lx.held out).tag lx.tag :=
  (agrees_saveKey h).bind fun _ h =>
    .pushToken (h.allowKey false) _

theorem agrees_blockScalar (h : Kept out lx) (style : ScalarStyle) :
    Agrees out ((lx.held out).blockScalar style) (lx.blockScalar style) :=
  (agrees_dropKey h).bind fun _ h =>
    .pushScalar (h.allowKey true) style _

theorem agrees_quotedScalar (h : Kept out lx) (quote : Char) (style : ScalarStyle) :
    Agrees out ((lx.held out).quotedScalar quote style) (lx.quotedScalar quote style) :=
  (agrees_saveKey h).bind fun _ h =>
    .pushScalar (h.allowKey false) style _

theorem agrees_plainScalar (h : Kept out lx) :
    Agrees out (lx.held out).plainScalar lx.plainScalar :=
  (agrees_saveKey h).bind fun _ h =>
    .pushScalar (h.allowKey false) .plain _

theorem agrees_token (h : Kept out lx) (c : Char) (more : List Char) :
    Agrees out ((lx.held out).token c more) (lx.token c more) := by
  unfold token
  rw [held_inFlow]
  dsimp only
  split
  · exact agrees_flowStart h _
  · exact agrees_flowStart h _
  · exact agrees_flowEnd h _
  · exact agrees_flowEnd h _
  · exact agrees_flowEntry h
  · exact agrees_anchor h _
  · exact agrees_anchor h _
  · exact agrees_tag h
  · exact agrees_quotedScalar h _ _
  · exact agrees_quotedScalar h _ _
  · split
    · exact agrees_blockEntry h
    · split
      · exact agrees_key h
      · split
        · exact agrees_value h
        · split
          · exact agrees_blockScalar h _
          · split
            · exact agrees_blockScalar h _
            · split
              · exact agrees_plainScalar h
              · exact .error _

/-! ## A step -/

/-- The cursor after a byte order mark, blanks and a comment. -/
def afterComment (tabs : Bool) (c : Cursor) : Cursor :=
  let c := c.skipMark.skipWhile fun ch => ch == ' ' || (tabs && ch == '\t')
  if c.rest.head? = some '#' then c.skipWhile (!isBreak ·) else c

/-- Where the blanks end, and whether a key may start there. -/
def passBlanks (inFlow : Bool) : Nat → Bool → Cursor → Bool × Cursor
  | 0, allowed, c => (allowed, c)
  | fuel + 1, allowed, c =>
    let c := afterComment (inFlow || !allowed) c
    if c.rest.head?.any isBreak then passBlanks inFlow fuel (allowed || !inFlow) c.skipBreak
    else (allowed, c)

theorem skipBlanks_eq (fuel : Nat) (lx : Lexer) :
    lx.skipBlanks fuel =
      let (allowed, cursor) := passBlanks lx.inFlow fuel lx.keyAllowed lx.cursor
      { lx with cursor, keyAllowed := allowed } := by
  induction fuel generalizing lx with
  | zero => rfl
  | succ fuel ih =>
    have hstep : lx.skipBlanks (fuel + 1) =
        let c := afterComment (lx.inFlow || !lx.keyAllowed) lx.cursor
        if c.rest.head?.any isBreak then
          skipBlanks fuel { lx with cursor := c.skipBreak, keyAllowed := lx.keyAllowed || !lx.inFlow }
        else { lx with cursor := c } := rfl
    rw [hstep, passBlanks]
    dsimp only
    split
    · rw [ih]
      rfl
    · rfl

theorem held_skipBlanks (fuel : Nat) :
    (lx.held out).skipBlanks fuel = (lx.skipBlanks fuel).held out := by
  rw [skipBlanks_eq, skipBlanks_eq]
  rfl

theorem agrees_dropStale (h : Kept out lx) :
    Agrees out (lx.held out).dropStale lx.dropStale := by
  unfold dropStale
  rw [held_keys, show (lx.held out).isStale = lx.isStale from rfl]
  dsimp only
  split
  · exact .error _
  · refine .ok rfl ⟨h.length_eq, fun key hmem k hk => ?_⟩
    obtain ⟨key', hkey', rfl⟩ := List.mem_map.1 hmem
    exact h.handedOn_le key' hkey' k (Option.filter_eq_some_iff.1 hk).1

/-- The rest of a step, once the cursor is at the next token. -/
def readToken (lx : Lexer) : Except Fault Lexer :=
  match lx.cursor.rest with
  | [] => lx.streamEnd
  | c :: more =>
    if c == '%' && lx.cursor.mark.column == 0 then lx.directive
    else if lx.cursor.atDocumentIndicator then
      lx.documentIndicator (if c == '-' then .documentStart else .documentEnd)
    else lx.token c more

theorem next_eq (lx : Lexer) : lx.next =
    (lx.skipBlanks (lx.cursor.rest.length + 1)).dropStale >>= fun lx =>
      (lx.unroll lx.column).readToken := rfl

theorem agrees_readToken (h : Kept out lx) :
    Agrees out (lx.held out).readToken lx.readToken := by
  unfold readToken
  rw [held_cursor]
  split
  · exact agrees_streamEnd h
  · split
    · exact agrees_directive h
    · split
      · exact agrees_documentIndicator h _
      · exact agrees_token h _ _

theorem agrees_next (h : Kept out lx) : Agrees out (lx.held out).next lx.next := by
  have hskipped : Kept out (lx.skipBlanks (lx.cursor.rest.length + 1)) := by
    rw [skipBlanks_eq]
    exact ⟨h.length_eq, h.handedOn_le⟩
  rw [next_eq, next_eq, held_cursor, held_skipBlanks]
  refine (agrees_dropStale hskipped).bind fun lx h => ?_
  rw [held_column, held_unroll]
  exact agrees_readToken (h.unroll lx.column)

/-! ## Keys given up early -/

/-- The second place is not before the first. -/
def NotBefore (a b : Mark) : Prop := a.line ≤ b.line ∧ a.index ≤ b.index

theorem NotBefore.trans {a b c : Mark} (hab : NotBefore a b) (hbc : NotBefore b c) :
    NotBefore a c := ⟨Nat.le_trans hab.1 hbc.1, Nat.le_trans hab.2 hbc.2⟩

theorem notBefore_skipWhile (test : Char → Bool) (c : Cursor) :
    NotBefore c.mark (c.skipWhile test).mark := ⟨Nat.le_refl _, Nat.le_add_right _ _⟩

theorem notBefore_skipMark (c : Cursor) : NotBefore c.mark c.skipMark.mark := by
  unfold Cursor.skipMark
  split
  · exact ⟨Nat.le_refl _, Nat.le_add_right _ _⟩
  · exact ⟨Nat.le_refl _, Nat.le_refl _⟩

theorem notBefore_skipBreak (c : Cursor) : NotBefore c.mark c.skipBreak.mark := by
  unfold Cursor.skipBreak Cursor.takeBreak
  split
  · exact ⟨Nat.le_succ _, Nat.le_add_right _ _⟩
  · split
    · exact ⟨Nat.le_succ _, Nat.le_add_right _ _⟩
    · exact ⟨Nat.le_refl _, Nat.le_refl _⟩
  · exact ⟨Nat.le_refl _, Nat.le_refl _⟩

theorem notBefore_afterComment (tabs : Bool) (c : Cursor) :
    NotBefore c.mark (afterComment tabs c).mark := by
  have hblanks (test : Char → Bool) : NotBefore c.mark (c.skipMark.skipWhile test).mark :=
    (notBefore_skipMark c).trans (notBefore_skipWhile test _)
  unfold afterComment
  dsimp only
  split
  · exact (hblanks _).trans (notBefore_skipWhile _ _)
  · exact hblanks _

theorem notBefore_passBlanks (inFlow : Bool) (fuel : Nat) (allowed : Bool) (c : Cursor) :
    NotBefore c.mark (passBlanks inFlow fuel allowed c).2.mark := by
  induction fuel generalizing allowed c with
  | zero => exact ⟨Nat.le_refl _, Nat.le_refl _⟩
  | succ fuel ih =>
    have hcomment := notBefore_afterComment (inFlow || !allowed) c
    rw [passBlanks]
    split
    · exact (hcomment.trans (notBefore_skipBreak _)).trans (ih _ _)
    · exact hcomment

theorem isStale_mono {lx' : Lexer} (h : NotBefore lx.cursor.mark lx'.cursor.mark) {key : KeyStart}
    (hstale : lx.isStale key = true) : lx'.isStale key = true := by
  simp only [isStale, Bool.or_eq_true, decide_eq_true_eq] at hstale ⊢
  obtain ⟨hline, hindex⟩ := h
  omega

theorem dropStale_eq (lx : Lexer) : lx.dropStale =
    match (lx.keys.filterMap fun key => key.filter lx.isStale).find? (·.required) with
    | some key => .error (lx.noColon key)
    | none => .ok { lx with keys := lx.keys.map fun key => key.filter (!lx.isStale ·) } := rfl

theorem dropStale_eq_ok {lx' : Lexer} (h : lx.dropStale = .ok lx') :
    (∀ key ∈ lx.keys, ∀ k, key = some k → lx.isStale k = true → k.required = false) ∧
      lx' = { lx with keys := lx.keys.map fun key => key.filter (!lx.isStale ·) } := by
  rw [dropStale_eq] at h
  split at h
  · cases h
  · rename_i hnone
    refine ⟨fun key hmem k hk hstale => ?_, (Except.ok.inj h).symm⟩
    have hmem' : k ∈ lx.keys.filterMap fun key => key.filter lx.isStale :=
      List.mem_filterMap.2 ⟨key, hmem, by rw [hk]; simp [hstale]⟩
    simpa using List.find?_eq_none.1 hnone k hmem'

/-- A key that is given up early is not the one that a colon is missed for. -/
theorem find?_required_of_early {early late : Lexer}
    (hmono : ∀ k, early.isStale k = true → late.isStale k = true)
    {keys : List (Option KeyStart)}
    (hkeys : ∀ key ∈ keys, ∀ k, key = some k → early.isStale k = true → k.required = false) :
    ((keys.map fun key => key.filter (!early.isStale ·)).filterMap fun key =>
        key.filter late.isStale).find? (·.required) =
      (keys.filterMap fun key => key.filter late.isStale).find? (·.required) := by
  induction keys with
  | nil => rfl
  | cons key keys ih =>
    have ih := ih fun key hmem => hkeys key (List.mem_cons_of_mem _ hmem)
    cases key with
    | none => exact ih
    | some k =>
      cases hearly : early.isStale k with
      | false =>
        have hkept : (some k).filter (!early.isStale ·) = some k := by
          simp only [Option.filter, hearly, Bool.not_false, if_true]
        rw [List.map_cons, hkept, List.filterMap_cons, List.filterMap_cons]
        cases hlate : (some k).filter late.isStale with
        | none => exact ih
        | some k' => rw [List.find?_cons, List.find?_cons, ih]
      | true =>
        have hdropped : (some k).filter (!early.isStale ·) = none := by
          simp only [Option.filter, hearly, Bool.not_true, Bool.false_eq_true, if_false]
        have hlate : (some k).filter late.isStale = some k := by
          simp only [Option.filter, hmono k hearly, if_true]
        have hrequired := hkeys (some k) List.mem_cons_self k rfl hearly
        rw [List.map_cons, hdropped, List.filterMap_cons, List.filterMap_cons, hlate]
        dsimp only [Option.filter_none]
        rw [List.find?_cons, hrequired, ih]

theorem map_filter_of_early {early late : Lexer}
    (hmono : ∀ k, early.isStale k = true → late.isStale k = true)
    (keys : List (Option KeyStart)) :
    ((keys.map fun key => key.filter (!early.isStale ·)).map fun key =>
      key.filter (!late.isStale ·)) = keys.map fun key => key.filter (!late.isStale ·) := by
  rw [List.map_map]
  refine List.map_congr_left fun key _ => ?_
  cases key with
  | none => rfl
  | some k =>
    cases hearly : early.isStale k with
    | false => simp only [Function.comp_apply, Option.filter, hearly, Bool.not_false, if_true]
    | true =>
      simp only [Function.comp_apply, Option.filter, hearly, hmono k hearly, Bool.not_true,
        Bool.false_eq_true, if_false]

/-- Keys that are given up now would be given up at the next token. -/
theorem dropStale_dropStale (early : Lexer) {late : Lexer} {keys : List (Option KeyStart)}
    (hkeys : ∀ key ∈ late.keys, ∀ k, key = some k → early.isStale k = true → k.required = false)
    (hmono : ∀ k, early.isStale k = true → late.isStale k = true)
    (heq : keys = late.keys.map fun key => key.filter (!early.isStale ·)) :
    ({ late with keys } : Lexer).dropStale = late.dropStale := by
  subst heq
  have hstale : ({ late with
      keys := late.keys.map fun key => key.filter (!early.isStale ·) } : Lexer).isStale =
        late.isStale := rfl
  rw [dropStale_eq, dropStale_eq, hstale]
  dsimp only
  rw [find?_required_of_early hmono hkeys, map_filter_of_early hmono]
  rfl

theorem next_of_dropStale {lx' : Lexer} (h : lx.dropStale = .ok lx') : lx'.next = lx.next := by
  obtain ⟨hkeys, rfl⟩ := dropStale_eq_ok h
  have hflow : ({ lx with keys := lx.keys.map fun key => key.filter (!lx.isStale ·) } :
      Lexer).inFlow = lx.inFlow := by
    simp [inFlow]
  have hskip : ({ lx with keys := lx.keys.map fun key => key.filter (!lx.isStale ·) } :
      Lexer).skipBlanks (lx.cursor.rest.length + 1) =
        { lx.skipBlanks (lx.cursor.rest.length + 1) with
          keys := lx.keys.map fun key => key.filter (!lx.isStale ·) } := by
    rw [skipBlanks_eq, skipBlanks_eq, hflow]
  rw [next_eq, next_eq, hskip, dropStale_dropStale lx]
  · rw [skipBlanks_eq]
    exact hkeys
  · intro k
    rw [skipBlanks_eq]
    exact isStale_mono (notBefore_passBlanks _ _ _ _)
  · rw [skipBlanks_eq]

/-! ## All steps -/

/-- `n` tokens are read after each other, all of them before the end of the text. -/
inductive Reads : Nat → Lexer → Lexer → Prop where
  | refl (lx : Lexer) : Reads 0 lx lx
  | step {n : Nat} {lx next last : Lexer} (hopen : ∀ t ∈ lx.queue, t.kind ≠ .streamEnd)
    (hnext : lx.next = .ok next) (hmore : Reads n next last) : Reads (n + 1) lx last

theorem Reads.trans {m n : Nat} {a b c : Lexer} (hab : Reads m a b) (hbc : Reads n b c) :
    Reads (m + n) a c := by
  induction hab with
  | refl lx => rwa [Nat.zero_add]
  | step hopen hnext _ ih => rw [Nat.add_right_comm]; exact .step hopen hnext (ih hbc)

/-- The last token is the end of the stream, and no key is waited for. -/
structure Finished (lx : Lexer) : Prop where
  keys : ∀ key ∈ lx.keys, key = none
  queue : ∃ front t, lx.queue = front ++ [t] ∧ t.kind = .streamEnd ∧ ∀ u ∈ front, u.kind ≠ .streamEnd

/-- A step that is read with the tokens kept is read without them. -/
theorem Reads.next_of_kept {n : Nat} {last : Lexer} (h : Reads (n + 1) (lx.held out) last)
    (hkept : Kept out lx) :
    ∃ next, lx.next = .ok next ∧ Kept out next ∧ Reads n (next.held out) last := by
  cases h with
  | step _ hnext hmore =>
    obtain ⟨hheld, hkept'⟩ := agrees_next hkept
    rw [hheld] at hnext
    cases hlx' : lx.next with
    | error f => rw [hlx'] at hnext; cases hnext
    | ok lx' =>
      rw [hlx'] at hnext
      exact ⟨lx', rfl, hkept' lx' hlx', Except.ok.inj hnext ▸ hmore⟩

theorem Reads.held {n : Nat} {last : Lexer} (h : Reads n (lx.held out) last)
    (hkept : Kept out lx) : ∃ lx' : Lexer, last = lx'.held out := by
  induction n generalizing lx with
  | zero => cases h; exact ⟨lx, rfl⟩
  | succ n ih =>
    obtain ⟨next, -, hkept', hmore⟩ := h.next_of_kept hkept
    exact ih hmore hkept'

theorem run_succ (fuel : Nat) (lx : Lexer) : run (fuel + 1) lx =
    match lx.queue with
    | [] =>
      match lx.next with
      | .ok lx => run fuel lx
      | .error f => ([], some f)
    | t :: queue =>
      match lx.dropStale with
      | .error f => ([], some f)
      | .ok lx =>
        if lx.mayOpenKey then
          match lx.next with
          | .ok lx => run fuel lx
          | .error f => ([], some f)
        else if t.kind = .streamEnd then ([t], none)
        else
          let (tokens, f) := run fuel { lx with queue, handedOn := lx.handedOn + 1 }
          (t :: tokens, f) := rfl

theorem dropStale_of_next {lx' : Lexer} (h : lx.next = .ok lx') : ∃ dropped, lx.dropStale = .ok dropped := by
  rw [next_eq] at h
  cases hlate : (lx.skipBlanks (lx.cursor.rest.length + 1)).dropStale with
  | error f => rw [hlate] at h; cases h
  | ok dropped =>
    obtain ⟨hkeys, -⟩ := dropStale_eq_ok hlate
    rw [skipBlanks_eq] at hkeys
    have hnone : (lx.keys.filterMap fun key => key.filter lx.isStale).find? (·.required) = none := by
      refine List.find?_eq_none.2 fun k hk => ?_
      obtain ⟨key, hmem, hfilter⟩ := List.mem_filterMap.1 hk
      obtain ⟨rfl, hstale⟩ := Option.filter_eq_some_iff.1 hfilter
      rw [hkeys _ hmem k rfl (isStale_mono (notBefore_passBlanks _ _ _ _) hstale)]
      exact Bool.false_ne_true
    exact ⟨_, by rw [dropStale_eq, hnone]⟩

theorem Finished.dropStale (h : Finished lx) : lx.dropStale = .ok lx := by
  have hfind : (lx.keys.filterMap fun key => key.filter lx.isStale) = [] :=
    List.filterMap_eq_nil_iff.2 fun key hmem => by rw [h.keys key hmem]; rfl
  have hmap : (lx.keys.map fun key => key.filter (!lx.isStale ·)) = lx.keys := by
    refine (List.map_congr_left fun key hmem => ?_).trans (List.map_id _)
    rw [h.keys key hmem]
    rfl
  rw [dropStale_eq, hfind, List.find?_nil]
  dsimp only
  rw [hmap]

theorem Reads.of_dropStale {n : Nat} {last lx' : Lexer} (h : Reads n lx last)
    (hlast : Finished last) (hdrop : lx.dropStale = .ok lx') : Reads n lx' last := by
  cases h with
  | refl =>
    rw [hlast.dropStale] at hdrop
    exact Except.ok.inj hdrop ▸ .refl lx
  | step hopen hnext hmore =>
    obtain ⟨-, heq⟩ := dropStale_eq_ok hdrop
    refine .step ?_ (by rw [next_of_dropStale hdrop, hnext]) hmore
    rw [heq]
    exact hopen

theorem mayOpenKey_of_keys (h : ∀ key ∈ lx.keys, key = none) : lx.mayOpenKey = false :=
  List.any_eq_false.2 fun key hmem => by rw [h key hmem]; exact Bool.false_ne_true

theorem Finished.exists_end (h : Finished lx) : ∃ t ∈ lx.queue, t.kind = .streamEnd := by
  obtain ⟨front, t, heq, ht, -⟩ := h.queue
  exact ⟨t, heq ▸ List.mem_concat_self, ht⟩

/-- Nothing stands behind the end of the stream. -/
theorem Finished.eq_nil_of_end (h : Finished lx) {front more : List Token} {t : Token}
    (heq : lx.queue = front ++ t :: more) (hend : t.kind = .streamEnd) : more = [] := by
  obtain ⟨front', e, heq', -, hfront⟩ := h.queue
  rcases List.eq_nil_or_concat more with hnil | ⟨more, u, rfl⟩
  · exact hnil
  · -- otherwise the end of the stream would stand in front of the last token
    have hsame : (front ++ t :: more) ++ [u] = front' ++ [e] := by
      rw [← heq', heq]
      simp
    have hmem : t ∈ front' := by
      rw [← (List.append_inj' hsame rfl).1]
      simp
    exact absurd hend (hfront t hmem)

/-- Stale keys can be given up at once when the text is read to its end. -/
theorem Reads.exists_dropStale {n : Nat} {last : Lexer} (h : Reads n (lx.held out) last)
    (hkept : Kept out lx) (hlast : Finished last) :
    ∃ dropped, lx.dropStale = .ok dropped ∧ dropped.queue = lx.queue ∧ Kept out dropped ∧
      Reads n (dropped.held out) last := by
  obtain ⟨hheld, hkept'⟩ := agrees_dropStale hkept
  have hdrop : ∃ dropped, lx.dropStale = .ok dropped := by
    cases n with
    | zero =>
      cases h
      rw [hlast.dropStale] at hheld
      cases hdropped : lx.dropStale with
      | error f => rw [hdropped] at hheld; cases hheld
      | ok dropped => exact ⟨dropped, rfl⟩
    | succ n =>
      obtain ⟨next, hnext, -⟩ := h.next_of_kept hkept
      exact dropStale_of_next hnext
  obtain ⟨dropped, hdropped⟩ := hdrop
  refine ⟨dropped, hdropped, by rw [(dropStale_eq_ok hdropped).2], hkept' dropped hdropped, ?_⟩
  exact h.of_dropStale hlast (by rw [hheld, hdropped]; rfl)

/-- The lexer once the first token of its queue is handed on. -/
def handOn (lx : Lexer) (queue : List Token) : Lexer :=
  { lx with queue, handedOn := lx.handedOn + 1 }

theorem held_handOn {t : Token} {queue : List Token} (hqueue : lx.queue = t :: queue) :
    (lx.handOn queue).held (out ++ [t]) = lx.held out := by
  dsimp only [held, handOn]
  rw [hqueue, List.append_assoc]
  rfl

/-- A token is handed on when no key can start at it. -/
theorem Kept.handOn (h : Kept out lx) (hmay : lx.mayOpenKey = false) (t : Token)
    (queue : List Token) : Kept (out ++ [t]) (lx.handOn queue) := by
  refine ⟨by simp [Lexer.handOn, h.length_eq], fun key hmem k hk => ?_⟩
  have hle := h.handedOn_le key hmem k hk
  have hne : lx.handedOn ≠ k.number := by
    intro heq
    refine List.any_eq_false.1 hmay key hmem ?_
    rw [hk]
    simp [heq]
  exact Nat.lt_of_le_of_ne hle hne

/-- **The tokens are those read with nothing handed on.** -/
theorem run_of_reads {fuel n : Nat} {last : Lexer} (hreads : Reads n (lx.held out) last)
    (hkept : Kept out lx) (hopen : ∀ t ∈ out, t.kind ≠ .streamEnd) (hlast : Finished last)
    (hfuel : n + last.queue.length < fuel + out.length) :
    run fuel lx = (last.queue.drop out.length, none) := by
  induction fuel generalizing n out lx with
  | zero =>
    obtain ⟨lx', rfl⟩ := hreads.held hkept
    simp only [held, List.length_append] at hfuel
    omega
  | succ fuel ih =>
    -- one more token is read, while the end of the text is not reached
    have hread : 0 < n → ∃ next, lx.next = .ok next ∧
        run fuel next = (last.queue.drop out.length, none) := by
      intro hpos
      obtain ⟨n, rfl⟩ := Nat.exists_eq_succ_of_ne_zero (Nat.ne_of_gt hpos)
      obtain ⟨next, hnext, hkept', hmore⟩ := hreads.next_of_kept hkept
      exact ⟨next, hnext, ih hmore hkept' hopen (by omega)⟩
    obtain ⟨dropped, hdropped, hsame, hkept', hreads'⟩ := hreads.exists_dropStale hkept hlast
    rw [run_succ]
    cases hqueue : lx.queue with
    | nil =>
      have hpos : 0 < n := by
        refine Nat.pos_of_ne_zero fun hzero => ?_
        subst hzero
        cases hreads
        obtain ⟨t, hmem, ht⟩ := hlast.exists_end
        refine hopen t ?_ ht
        rwa [held, hqueue, List.append_nil] at hmem
      obtain ⟨next, hnext, hrun⟩ := hread hpos
      rw [hnext]
      exact hrun
    | cons t queue =>
      have hqueue' : dropped.queue = t :: queue := hsame.trans hqueue
      rw [hdropped]
      dsimp only
      cases hmay : dropped.mayOpenKey with
      | true =>
        have hpos : 0 < n := by
          refine Nat.pos_of_ne_zero fun hzero => ?_
          subst hzero
          cases hreads'
          have hnone : ∀ key ∈ dropped.keys, key = none := hlast.keys
          exact Bool.false_ne_true ((mayOpenKey_of_keys hnone).symm.trans hmay)
        obtain ⟨next, hnext, hrun⟩ := hread hpos
        rw [if_pos rfl, next_of_dropStale hdropped, hnext]
        exact hrun
      | false =>
        rw [if_neg Bool.false_ne_true]
        by_cases hend : t.kind = .streamEnd
        · rw [if_pos hend]
          cases hreads' with
          | refl =>
            have hheld : (dropped.held out).queue = out ++ t :: queue := by rw [held, hqueue']
            rw [hheld, hlast.eq_nil_of_end hheld hend, List.drop_left]
          | step hopen' =>
            exact absurd hend (hopen' t (by rw [held, hqueue']; simp))
        · rw [if_neg hend]
          have hkept'' : Kept (out ++ [t]) (dropped.handOn queue) := hkept'.handOn hmay t queue
          rw [← held_handOn hqueue'] at hreads'
          have hopen' : ∀ u ∈ out ++ [t], u.kind ≠ .streamEnd := by
            intro u hu
            rcases List.mem_append.1 hu with hu | hu
            · exact hopen u hu
            · rwa [List.mem_singleton.1 hu]
          have hrun := ih hreads' hkept'' hopen'
            (by rw [List.length_append, List.length_singleton]; omega)
          rw [handOn] at hrun
          rw [hrun]
          obtain ⟨lx', rfl⟩ := hreads'.held hkept''
          dsimp only [held]
          rw [List.drop_left, List.append_assoc, List.drop_left]
          rfl

end SchemaTidy.Yaml.Lexer
