import SchemaTidy.Proofs.Yaml.Steps
import SchemaTidy.Proofs.Yaml.Scalars

/-! # Keys and values of one line

Which tokens the lexer makes of a key with its colon, and of a value with the rest of its line. -/

namespace SchemaTidy.Yaml
open Source (Line Terminator)
open Scalar (IsFurther spelled isFlowIndicator endsAtColon plainWord isWord)

/-! ## Words -/

/-- Words with spaces between them. -/
structure Words where
  first : List Char
  more : List (Nat × List Char)

namespace Words

def text (w : Words) : List Char := w.first ++ spelled w.more

/-- The words are one plain scalar. A dash may come first when it is joined to something. -/
structure IsPlain (inFlow : Bool) (w : Words) : Prop where
  first : IsFurther inFlow w.first
  more : ∀ x ∈ w.more, 0 < x.1 ∧ IsFurther inFlow x.2
  start : ∃ c cs, w.first = c :: cs ∧ (Lexer.isIndicator c = true → c = '-' ∧ cs ≠ [])

/-- The words may be a key, at the beginning of a line too. -/
structure IsKey (w : Words) : Prop where
  plain : w.IsPlain false
  no_mark : w.first.head? ≠ some byteOrderMark
  no_dash : w.first.head? ≠ some '-'
  no_point : w.first.head? ≠ some '.'
  short : w.text.length ≤ 1024

def kind (w : Words) : TokenKind := .scalar .plain w.text

theorem text_append (w : Words) (tail : List Char) :
    w.text ++ tail = w.first ++ (spelled w.more ++ tail) := List.append_assoc ..

theorem text_length (w : Words) : w.text.length = w.first.length + (spelled w.more).length :=
  List.length_append

end Words

/-! ## Values -/

/-- Words in a list, and the numbers of spaces around them. -/
structure FlowItem where
  before : Nat
  words : Words
  after : Nat

def FlowItem.text (i : FlowItem) : List Char :=
  List.replicate i.before ' ' ++ (i.words.text ++ List.replicate i.after ' ')

/-- What stands in a pair of brackets. A comma may come after the last item. -/
inductive FlowItems where
  | none (spaces : Nat)
  | last (item : FlowItem)
  | cons (item : FlowItem) (more : FlowItems)

namespace FlowItems

def text : FlowItems → List Char
  | .none n => List.replicate n ' '
  | .last i => i.text
  | .cons i more => i.text ++ ',' :: more.text

def words : FlowItems → List Words
  | .none _ => []
  | .last i => [i.words]
  | .cons i more => i.words :: more.words

def kinds : FlowItems → List TokenKind
  | .none _ => []
  | .last i => [i.words.kind]
  | .cons i more => i.words.kind :: .flowEntry :: more.kinds

end FlowItems

/-- A value that stands on one line. -/
inductive Inline where
  | plain (w : Words)
  | quoted (double : Bool) (body : List Char)
  | list (items : FlowItems)
  | braces

namespace Inline

def quote (double : Bool) : Char := if double then '"' else '\''

def quoteStyle (double : Bool) : ScalarStyle := if double then .doubleQuoted else .singleQuoted

def text : Inline → List Char
  | .plain w => w.text
  | .quoted double body => quote double :: body ++ [quote double]
  | .list items => '[' :: items.text ++ [']']
  | .braces => ['\x7b', '\x7d']

def kinds : Inline → List TokenKind
  | .plain w => [w.kind]
  | .quoted double body => [.scalar (quoteStyle double) body]
  | .list items => .flowSequenceStart :: items.kinds ++ [.flowSequenceEnd]
  | .braces => [.flowMappingStart, .flowMappingEnd]

/-- The value is read as it is meant to be. -/
def Fits : Inline → Prop
  | .plain w => w.IsPlain false
  | .quoted double body => Scalar.IsLiteral (quote double) body
  | .list items => ∀ w ∈ items.words, w.IsPlain true
  | .braces => True

end Inline

namespace Lexer

variable {lx here : Lexer} {kinds : List TokenKind} {stack : List Nat} {brackets column : Nat}
  {c c' : Cursor} {rest more : List Char} {allowed allowed' : Bool} {w : Words} {inFlow : Bool}

/-- What a plain scalar starts with. -/
theorem IsPlain.cases (h : w.IsPlain inFlow) :
    ∃ ch cs, w.first = ch :: cs ∧ isGap ch = false ∧ isBreak ch = false ∧ ch ≠ '#' ∧
      (isIndicator ch = false ∨ ch = '-' ∧ ∃ d ds, cs = d :: ds ∧ isGap d = false ∧ isBreak d = false) := by
  obtain ⟨ch, cs, hfirst, hstart⟩ := h.start
  have hword := h.first.word
  have hcomment := h.first.no_comment
  rw [hfirst] at hword hcomment
  simp only [isWord, Bool.and_eq_true, Bool.not_eq_true'] at hword
  refine ⟨ch, cs, hfirst, hword.1.1.1.1.1, hword.1.1.1.1.2, fun h => hcomment (h ▸ rfl), ?_⟩
  cases hind : isIndicator ch with
  | false => exact .inl rfl
  | true =>
    obtain ⟨rfl, hcs⟩ := hstart hind
    obtain ⟨d, ds, rfl⟩ := List.exists_cons_of_ne_nil hcs
    have hnext := hword.2
    simp only [isWord, Bool.and_eq_true, Bool.not_eq_true'] at hnext
    exact .inr ⟨rfl, d, ds, rfl, hnext.1.1.1.1.1, hnext.1.1.1.1.2⟩

theorem token_eq_plainScalar {ch : Char} (hgap : isGap ch = false) (hbreak : isBreak ch = false)
    (hstart : isIndicator ch = false ∨ ch = '-' ∧ endsWord more = false) (lx : Lexer) :
    lx.token ch more = lx.plainScalar := by
  rcases hstart with hind | ⟨rfl, hmore⟩
  · have hsigns : ∀ sign ∈ "-?:,[]\x7b\x7d#&*!|>'\"%@\x60".toList, ch ≠ sign := by
      rintro sign hmem rfl
      rw [isIndicator, List.contains_iff_mem.2 hmem] at hind
      cases hind
    have hdash := hsigns '-' (by decide)
    have hmark := hsigns '?' (by decide)
    have hcolon := hsigns ':' (by decide)
    have hbar := hsigns '|' (by decide)
    have hangle := hsigns '>' (by decide)
    have hplain : startsPlain lx.inFlow ch more = true := by
      simp [startsPlain, hdash, hmark, hcolon, hgap, hbreak, hind]
    unfold token
    split
    case h_11 => simp [hdash, hmark, hcolon, hbar, hangle, hplain]
    all_goals exact absurd rfl (hsigns _ (by decide))
  · have hgo : startsPlain lx.inFlow '-' more = true := by
      cases more with
      | nil => cases hmore
      | cons d ds =>
        rw [endsWord, Bool.or_eq_false_iff] at hmore
        simp [startsPlain, hmore.1]
    simp [token, hmore, hgo]

/-- Where a plain scalar starts, at the beginning of a line only after what is no marker. -/
theorem At.readToken_plain (h : At here kinds stack brackets c allowed) (hw : w.IsPlain inFlow)
    (hrest : c.rest = w.text ++ rest) (hmarker : c.atDocumentIndicator = false) :
    here.readToken = here.plainScalar := by
  obtain ⟨ch, cs, hfirst, hgap, hbreak, -, hstart⟩ := IsPlain.cases hw
  rw [w.text_append, hfirst, List.cons_append] at hrest
  have hdirective : ch ≠ '%' := by
    rintro rfl
    rcases hstart with hind | ⟨hdash, -⟩
    · revert hind; decide
    · cases hdash
  rw [h.readToken_eq hrest hdirective hmarker]
  refine token_eq_plainScalar hgap hbreak (hstart.imp_right ?_) here
  rintro ⟨rfl, d, ds, rfl, hd⟩
  exact ⟨rfl, by simp [endsWord, hd]⟩

theorem plainScalar_eq (lx : Lexer) : lx.plainScalar = lx.saveKey >>= fun lx =>
    (lx.allowKey false).pushScalar .plain (Scalar.plain lx.inFlow (lx.indent + 1) lx.cursor) := rfl

/-! ## The rest of a line -/

/-- The end of a line in front of other lines. -/
structure ClosesLine (tail : List Char) (t : Terminator) (ls : List Line) : Prop extends
    LineEnd tail where
  last : t = .none → ls = []
  passable : Passable ls
  starts : Starts ls

variable {tail : List Char} {t : Terminator} {ls : List Line}

/-- The lexer goes on with these lines. -/
def Goes (lx : Lexer) (kinds : List TokenKind) (stack : List Nat) (ls : List Line) : Prop :=
  match position ls with
  | some (column, rest) => Ready lx kinds stack 0 column rest true
  | none => Over lx kinds stack

theorem Ready.goes (h : Ready lx kinds stack 0 c'.mark.column c'.rest allowed)
    (hat : AtPosition ls c') (hallowed : position ls ≠ none → allowed = true) :
    Goes lx kinds stack ls := by
  have hrest := hat.rest_eq
  unfold Goes
  cases hposition : position ls with
  | none =>
    rw [hposition] at hrest
    rw [show c'.rest = [] from hrest] at h
    exact h.over
  | some p =>
    obtain ⟨column, rest⟩ := p
    rw [hposition] at hrest
    obtain rfl := hallowed (by rw [hposition]; exact Option.some_ne_none _)
    rw [show c'.rest = rest from hrest, hat.column_eq column rest hposition] at h
    exact h

theorem Goes.of_position {ls' : List Line} (h : Goes lx kinds stack ls)
    (heq : position ls' = position ls) : Goes lx kinds stack ls' := by
  unfold Goes at h ⊢
  rwa [heq]

/-- The next line closes a block that is indented deeper. -/
theorem Goes.pop {top : Nat} {outer : List Nat} (h : Goes lx kinds (top :: outer) ls)
    (hdeep : ∀ column rest, position ls = some (column, rest) → column < top) :
    Goes lx (kinds ++ [.blockEnd]) outer ls := by
  unfold Goes at h ⊢
  cases hposition : position ls with
  | none => rw [hposition] at h; exact h.pop
  | some p => rw [hposition] at h; exact h.pop (hdeep _ _ hposition)

theorem Stands.goes (h : Stands lx kinds stack 0 column (tail ++ (t.text ++ Source.text ls)) allowed)
    (htail : isBlankText tail = true) (hlast : t = .none → ls = []) (hpassable : Passable ls)
    (hstart : Starts ls) : Goes lx kinds stack ls := by
  obtain ⟨c, hat, hrest, -⟩ := h
  obtain ⟨allowed', c', hpasses, hposition, hallowed⟩ :=
    @passes_lineEnd allowed tail t ls c hrest htail hlast hpassable hstart
  exact (hat.ready hpasses).goes hposition hallowed

theorem ClosesLine.head (h : ClosesLine tail t ls) {ch : Char}
    (hch : ch ∈ (tail ++ (t.text ++ Source.text ls)).head?) : ch = ' ' ∨ ch = '\n' ∨ ch = '\r' := by
  obtain ⟨n, rest, rfl, hrest⟩ := isBlankText_cases h.blank
  cases n with
  | succ n => exact .inl (Option.some.inj hch).symm
  | zero =>
    rcases hrest with rfl | ⟨body, rfl, -⟩
    · cases t with
      | none => rw [h.last rfl] at hch; cases hch
      | lf => exact .inr (.inl (Option.some.inj hch).symm)
      | crlf => exact .inr (.inr (Option.some.inj hch).symm)
    · exact absurd rfl h.apart

theorem plainWord_closesLine (h : ClosesLine tail t ls) (inFlow : Bool) :
    plainWord inFlow (tail ++ (t.text ++ Source.text ls)) = [] := by
  cases hrest : tail ++ (t.text ++ Source.text ls) with
  | nil => rfl
  | cons ch more =>
    have hch : ch = ' ' ∨ ch = '\n' ∨ ch = '\r' := h.head (by rw [hrest]; rfl)
    rcases hch with rfl | rfl | rfl <;> simp [plainWord, isGap, isBreak]

/-! ## Scalars -/

/-- No line that follows is indented deeper than the innermost block. -/
def Within (stack : List Nat) (ls : List Line) : Prop :=
  ∀ column rest, position ls = some (column, rest) → (column : Int) ≤ floor stack

theorem ends_of_within (hwithin : Within stack ls) (hat : AtPosition ls c') :
    Scalar.Ends false (floor stack + 1) c' := by
  have hrest := hat.rest_eq
  cases hposition : position ls with
  | none => exact .inl (by rw [hrest, hposition]; rfl)
  | some p =>
    refine .inr (.inl ⟨rfl, ?_⟩)
    rw [hat.column_eq p.1 p.2 hposition]
    exact Int.lt_add_one_of_le (hwithin p.1 p.2 hposition)

theorem startsToken_of_atPosition (hstart : Starts ls) (hat : AtPosition ls c') :
    startsToken c'.rest = true := by
  rw [hat.rest_eq]
  cases hposition : position ls with
  | none => rfl
  | some p => exact hstart p.1 p.2 hposition

/-- A plain scalar, up to the next line. -/
theorem Ready.plain
    (h : Ready lx kinds stack 0 column (w.text ++ (tail ++ (t.text ++ Source.text ls))) allowed)
    (hw : w.IsPlain false) (hinside : 0 ≤ floor stack) (hfloor : floor stack < column)
    (hclose : ClosesLine tail t ls) (hwithin : Within stack ls) :
    ∃ lx', Advances lx lx' ∧ Goes lx' (kinds ++ [.scalar .plain w.text]) stack ls := by
  refine h.step (fun _ => Int.le_of_lt hfloor) fun here c hat hrest hmark => ?_
  have hmarker : c.atDocumentIndicator = false :=
    Scalar.atDocumentIndicator_of_column (by omega)
  have hbehind : (c.advance (w.first.length + (spelled w.more).length)).rest =
      tail ++ (t.text ++ Source.text ls) := by
    rw [← w.text_length]
    exact Cursor.advance_rest hrest
  obtain ⟨allowed', c', hpasses, hposition, hallowed⟩ := @passes_lineEnd false tail t ls _ hbehind
    hclose.blank hclose.last hclose.passable hclose.starts
  obtain ⟨saved, hsave, hsaved, hsame⟩ := hat.saveKey fun _ _ => Int.ne_of_lt (hmark ▸ hfloor)
  have hdeep : floor stack + 1 ≤ c.mark.column + 1 := by omega
  obtain ⟨s, hread, htext, hfinal, hlength⟩ := Scalar.plain_eq_ok
    (w.text_append _ ▸ hrest) hw.first hw.more (plainWord_closesLine hclose false) hmarker
    hdeep (Int.lt_add_one_of_le hinside) hpasses (startsToken_of_atPosition hclose.starts hposition)
    (ends_of_within hwithin hposition)
  obtain ⟨lx', hok, hat', hpotential⟩ := (hsaved.allowKey false).pushScalar .plain
    hread hlength
  refine ⟨lx', ?_, by rw [← hsame]; exact hpotential, ?_⟩
  · rw [hat.readToken_plain hw hrest hmarker, plainScalar_eq, hsave]
    have hflow : saved.inFlow = false := hsaved.inFlow_eq
    simp only [bind, Except.bind, hflow, hsaved.indent_eq, hsaved.cursor_eq]
    exact hok
  · rw [htext] at hat'
    exact (hat'.ready hfinal).goes hposition hallowed

/-- A quoted scalar, up to the next line. -/
theorem Ready.quoted {quote : Char} {style : ScalarStyle} {body : List Char}
    (h : Ready lx kinds stack 0 column
      (quote :: (body ++ quote :: (tail ++ (t.text ++ Source.text ls)))) allowed)
    (hquote : quote = '"' ∧ style = .doubleQuoted ∨ quote = '\'' ∧ style = .singleQuoted)
    (hbody : Scalar.IsLiteral quote body) (hfloor : floor stack < column)
    (hclose : ClosesLine tail t ls) :
    ∃ lx', Advances lx lx' ∧ Goes lx' (kinds ++ [.scalar style body]) stack ls := by
  refine h.step (fun _ => Int.le_of_lt hfloor) fun here c hat hrest hmark => ?_
  have hsign : quote ≠ '%' ∧ quote ≠ '.' ∧ quote ≠ '-' ∧ (quote = '"' ∨ quote = '\'') ∧
      ¬ (quote = ' ' ∨ quote = '\n' ∨ quote = '\r') := by
    rcases hquote with ⟨rfl, -⟩ | ⟨rfl, -⟩ <;> decide
  obtain ⟨hdirective, hpoint, hdash, hquotes, hapart⟩ := hsign
  have htail : (tail ++ (t.text ++ Source.text ls)).head? ≠ some quote :=
    fun hhead => hapart (hclose.head hhead)
  obtain ⟨saved, hsave, hsaved, hsame⟩ := hat.saveKey fun _ _ => Int.ne_of_lt (hmark ▸ hfloor)
  obtain ⟨m, hread⟩ := Scalar.quoted_eq_ok hrest hbody hquotes htail
  obtain ⟨lx', hok, hat', hpotential⟩ := (hsaved.allowKey false).pushScalar style
    hread (by simp only [Cursor.advance, hrest, List.length_drop, List.length_cons]; omega)
  have htoken : ∀ (lx : Lexer) (more : List Char),
      lx.token quote more = lx.quotedScalar quote style := by
    rcases hquote with ⟨rfl, rfl⟩ | ⟨rfl, rfl⟩ <;> intros <;> rfl
  refine ⟨lx', ?_, by rw [← hsame]; exact hpotential, Stands.goes ⟨_, hat', ?_, rfl⟩ hclose.blank
    hclose.last hclose.passable hclose.starts⟩
  · rw [hat.readToken_eq hrest hdirective
      (atDocumentIndicator_eq_false hrest hpoint fun h => absurd h hdash), htoken, quotedScalar, hsave]
    simp only [bind, Except.bind, hsaved.cursor_eq]
    exact hok
  · simp [Cursor.advance, hrest]

/-- A plain scalar in a list, up to the comma or bracket that follows. -/
theorem Ready.flowPlain {n : Nat} {ch : Char}
    (h : Ready lx kinds stack (brackets + 1) column
      (w.text ++ (List.replicate n ' ' ++ ch :: more)) allowed)
    (hw : w.IsPlain true) (hcolumn : 0 < column) (hch : isFlowIndicator ch = true) :
    ∃ lx', Advances lx lx' ∧ Stands lx' (kinds ++ [.scalar .plain w.text]) stack (brackets + 1)
      (column + w.text.length + n) (ch :: more) false := by
  refine h.step (by simp) fun here c hat hrest hmark => ?_
  have hpos : 0 < c.mark.column := hmark ▸ hcolumn
  obtain ⟨saved, hsave, hsaved, hsame⟩ := hat.saveKey (by simp)
  obtain ⟨s, hread, htext, hbroken, hcursor⟩ := Scalar.plain_flow_eq_ok (saved.indent + 1)
    (w.text_append _ ▸ hrest) hw.first hw.more hch hpos
  have hlength : s.cursor.rest.length < c.rest.length := by
    have hlong : 0 < w.first.length := List.length_pos_iff.2 hw.first.ne_nil
    rw [hcursor]
    simp only [Cursor.advance, hrest, w.text_append, List.length_drop, List.length_append]
    omega
  obtain ⟨lx', hok, hat', hpotential⟩ := (hsaved.allowKey false).pushScalar .plain
    hread hlength
  refine ⟨lx', ?_, by rw [← hsame]; exact hpotential, ?_⟩
  · rw [hat.readToken_plain hw hrest (Scalar.atDocumentIndicator_of_column hpos), plainScalar_eq,
      hsave]
    have hflow : saved.inFlow = true := by simp [hsaved.inFlow_eq]
    simp only [bind, Except.bind, hflow, hsaved.cursor_eq]
    exact hok
  · rw [htext, hbroken] at hat'
    refine ⟨s.cursor, hat', ?_, ?_⟩
    · have hbehind : (c.advance (w.text.length + n)).rest = ch :: more := by
        rw [← Cursor.advance_advance, ← List.length_replicate (n := n) (a := ' ')]
        exact Cursor.advance_rest (Cursor.advance_rest hrest)
      rw [hcursor, ← hbehind, w.text_length]
    · rw [hcursor]
      simp only [Cursor.advance, hmark, w.text_length]
      omega

/-! ## Keys -/

theorem no_marker (hrest : c.rest = w.text ++ more) (hw : w.IsKey) :
    c.atDocumentIndicator = false := by
  obtain ⟨ch, cs, hfirst, -⟩ := IsPlain.cases hw.plain
  rw [w.text_append, hfirst] at hrest
  have hdash := hw.no_dash
  have hpoint := hw.no_point
  rw [hfirst] at hdash hpoint
  exact atDocumentIndicator_eq_false hrest (fun h => hpoint (h ▸ rfl)) fun h => absurd (h ▸ rfl) hdash

/-- The words before a colon are a plain scalar that ends there. -/
theorem plain_key_eq_ok (hrest : c.rest = w.text ++ ':' :: more) (hw : w.IsKey)
    (hmore : endsWord more = true) {indent : Int} (hindent : indent ≤ c.mark.column + 1) :
    ∃ s, Scalar.plain false indent c = .ok s ∧ s.text = w.text ∧ s.broken = false ∧
      s.cursor = c.advance w.text.length := by
  obtain ⟨fuel, m, -, heq⟩ := Scalar.plain_eq_plainAfter
    (w.text_append _ ▸ hrest) hw.plain.first hw.plain.more (by simp [plainWord, hmore])
    (no_marker hrest hw) fun _ => hindent
  refine ⟨⟨w.text, m, c.advance (w.first.length + (spelled w.more).length), false⟩, heq.trans ?_, rfl,
    rfl, by rw [w.text_length]⟩
  have hthere : (c.advance (w.first.length + (spelled w.more).length)).rest = ':' :: more := by
    rw [← w.text_length]
    exact Cursor.advance_rest hrest
  rw [Scalar.plainAfter, Scalar.endsAtColon_false]
  dsimp only
  rw [hthere]
  rfl

theorem insert_of_queue {front after : List Token} (hqueue : lx.queue = front ++ after)
    (hhanded : lx.handedOn = 0) (t : Token) :
    lx.insert front.length t = { lx with queue := front ++ t :: after } := by
  simp [insert, hqueue, hhanded]

/-- The words of a key are the last token, and they wait for a colon. -/
structure Waits (lx : Lexer) (kinds : List TokenKind) (stack : List Nat) (w : Words)
    (key : KeyStart) : Prop where
  queue_eq : ∃ front last, lx.queue = front ++ [last] ∧ front.map (·.kind) = kinds ∧
    last.kind = w.kind ∧ key.number = front.length
  running : .streamEnd ∉ kinds
  handedOn_eq : lx.handedOn = 0
  stack_eq : lx.indent :: lx.indents = stack.map Int.ofNat ++ [-1]
  keys_eq : lx.keys = [some key]
  allowed_eq : lx.keyAllowed = false
  fresh : lx.isStale key = false

theorem Waits.inFlow_eq {key : KeyStart} (h : Waits lx kinds stack w key) : lx.inFlow = false := by
  simp [inFlow, h.keys_eq]

theorem Waits.indent_eq {key : KeyStart} (h : Waits lx kinds stack w key) :
    lx.indent = floor stack := indent_eq_floor h.stack_eq

theorem Waits.open {key : KeyStart} (h : Waits lx kinds stack w key) :
    ∀ t ∈ lx.queue, t.kind ≠ .streamEnd := by
  obtain ⟨front, last, hqueue, hkinds, hlast, -⟩ := h.queue_eq
  intro t ht hend
  rw [hqueue] at ht
  rcases List.mem_append.1 ht with ht | ht
  · exact h.running (hkinds ▸ List.mem_map.2 ⟨t, ht, hend⟩)
  · rw [List.mem_singleton.1 ht, hlast] at hend
    cases hend

/-- The colon makes a key of the words before it. -/
theorem Waits.next {key : KeyStart} (h : Waits lx kinds stack w key)
    (hrest : lx.cursor.rest = ':' :: more) (hmore : endsWord more = true)
    (hcolumn : floor stack ≤ lx.column) :
    lx.next = .ok (((lx.keyed key []).allowKey false).pushSign .value 1) := by
  have hskip : lx.skipBlanks (lx.cursor.rest.length + 1) = lx := by
    have hpasses : Passes false false lx.cursor false lx.cursor := 
      .here (by rw [hrest]; rfl) (.of_cons hrest (by decide))
    rw [skipBlanks_eq, h.inFlow_eq, h.allowed_eq, hpasses _ (Nat.lt_succ_self _), ← h.allowed_eq]
  have hdrop : lx.dropStale = .ok lx := by
    have hstale : (lx.keys.filterMap fun key => key.filter lx.isStale) = [] := by
      rw [h.keys_eq]
      simp [Option.filter, h.fresh]
    have hkept : (lx.keys.map fun key => key.filter (!lx.isStale ·)) = lx.keys := by
      rw [h.keys_eq]
      simp [Option.filter, h.fresh]
    rw [dropStale_eq, hstale, hkept]
    rfl
  have hmarker : lx.cursor.atDocumentIndicator = false :=
    atDocumentIndicator_eq_false hrest (by decide) fun h => absurd h (by decide)
  have htoken : lx.token ':' more = lx.value := by simp [token, hmore]
  rw [next_eq, hskip, hdrop]
  simp only [bind, Except.bind]
  rw [unroll_of_le (h.indent_eq ▸ hcolumn), readToken, hrest]
  simp [hmarker, htoken, value_of_key h.keys_eq]

/-- The key has its sign in front of the words, and a mapping is open at its column. -/
theorem Waits.keyed {key : KeyStart} (h : Waits lx kinds stack w key)
    (hkeyed : here = lx.keyed key []) :
    At here (kinds ++ (opening stack key.mark.column .blockMappingStart ++ [.key, w.kind]))
        (entered stack key.mark.column) 0 lx.cursor here.keyAllowed ∧
      here.potential ≤ lx.potential + 3 := by
  obtain ⟨front, last, hqueue, rfl, hlast, hnumber⟩ := h.queue_eq
  let opened : Lexer := lx.insert key.number ⟨.key, key.mark, key.mark⟩
  have hopened : opened = { lx with queue := front ++ ⟨.key, key.mark, key.mark⟩ :: [last] } := by
    rw [← insert_of_queue hqueue h.handedOn_eq, ← hnumber]
  have hkeyed' : here = { opened.roll key.mark.column (some key.number)
      .blockMappingStart key.mark with keys := [none] } := hkeyed
  have hflow : opened.inFlow = false := by rw [hopened]; exact h.inFlow_eq
  have hindent : opened.indent = floor stack := by rw [hopened]; exact h.indent_eq
  have hrunning : .streamEnd ∉ front.map (·.kind) ++
      (opening stack key.mark.column .blockMappingStart ++ [.key, w.kind]) := by
    have hopening : .streamEnd ∉ opening stack key.mark.column .blockMappingStart := by
      unfold opening
      split <;> simp
    simp [h.running, hopening, Words.kind]
  rw [roll_eq, hflow, hindent] at hkeyed'
  by_cases hdeep : floor stack < key.mark.column
  · rw [if_neg (by simpa using hdeep)] at hkeyed'
    dsimp only at hkeyed'
    have hqueue' : (opened.opened key.mark.column).queue =
        front ++ ⟨.key, key.mark, key.mark⟩ :: [last] := by
      rw [hopened]
      rfl
    rw [hnumber, insert_of_queue hqueue' (by rw [hopened]; exact h.handedOn_eq)] at hkeyed'
    subst hkeyed'
    refine ⟨⟨?_, ?_, hrunning, ?_, rfl, by simp, ?_, rfl⟩, ?_⟩
    · rw [hopened]
      exact h.handedOn_eq
    · simp [opening, hdeep, hlast]
    · rw [entered, if_pos hdeep, List.map_cons, List.cons_append, ← h.stack_eq, hopened]
      rfl
    · rw [hopened]
      rfl
    · rw [hopened]
      simp only [potential, Lexer.opened, hqueue, List.length_append, List.length_cons,
        List.length_nil]
      omega
  · rw [if_pos (by simpa using Int.not_lt.1 hdeep), hopened] at hkeyed'
    subst hkeyed'
    refine ⟨⟨h.handedOn_eq, ?_, hrunning, ?_, rfl, by simp, rfl, rfl⟩, ?_⟩
    · simp [opening, hdeep, hlast]
    · rw [entered, if_neg hdeep]
      exact h.stack_eq
    · simp only [potential, hqueue, List.length_append, List.length_cons, List.length_nil]
      omega

/-- The words of a key are read up to their colon. -/
theorem At.readToken_key (h : At here kinds stack 0 c true)
    (hrest : c.rest = w.text ++ ':' :: more) (hw : w.IsKey) (hmore : endsWord more = true)
    (hfloor : floor stack ≤ c.mark.column) :
    ∃ words key, here.readToken = .ok words ∧ Waits words kinds stack w key ∧ key.mark = c.mark ∧
      words.cursor = c.advance w.text.length ∧ words.potential + 4 ≤ here.potential := by
  obtain ⟨dropped, hdrop, hdropped, -⟩ := h.dropKey
  have hdeep : floor stack + 1 ≤ c.mark.column + 1 := by omega
  obtain ⟨s, hread, htext, hbroken, hcursor⟩ := plain_key_eq_ok hrest hw hmore hdeep
  let key : KeyStart := ⟨!here.inFlow && here.indent == here.column,
    here.handedOn + here.queue.length, here.cursor.mark⟩
  let scalar : Token := ⟨.scalar .plain s.text, c.mark, s.stop⟩
  let words : Lexer := { dropped with
    queue := here.queue ++ [scalar], keys := [some key], cursor := s.cursor, keyAllowed := false }
  have hwords : here.readToken = .ok words := by
    have hkeys : dropped.keys.drop 1 = [] :=
      List.eq_nil_of_length_eq_zero (by rw [List.length_drop, hdropped.brackets_eq])
    have hqueue : dropped.queue = here.queue := (dropKey_fields hdrop).2
    have hflow : ({ dropped with keys := [some key] } : Lexer).inFlow = false := rfl
    rw [h.readToken_plain hw.plain hrest (no_marker hrest hw), plainScalar_eq, saveKey_eq,
      h.allowed_eq, hdrop]
    simp only [bind, Except.bind, Bool.not_true, Bool.false_eq_true, if_false, hkeys]
    change (Lexer.allowKey false { dropped with keys := [some key] }).pushScalar .plain
      (Scalar.plain ({ dropped with keys := [some key] } : Lexer).inFlow (dropped.indent + 1)
        dropped.cursor) = _
    have hread' : Scalar.plain false (dropped.indent + 1) dropped.cursor = .ok s := by
      rw [hdropped.indent_eq, hdropped.cursor_eq, hread]
    rw [hflow, hread']
    simp only [Lexer.pushScalar, bind, Except.bind, push, Lexer.allowKey, hdropped.cursor_eq,
      hqueue, hbroken, Bool.or_self]
    rfl
  have hfresh : words.isStale key = false := by
    have hshort := hw.short
    simp only [isStale, words, key, hcursor, h.cursor_eq, Cursor.advance, Bool.or_eq_false_iff,
      decide_eq_false_iff_not]
    omega
  have hkind : scalar.kind = w.kind := by rw [Words.kind, ← htext]
  have hnumber : key.number = here.queue.length := by
    simp only [key, h.handedOn_eq, Nat.zero_add]
  have hpotential : words.potential + 4 ≤ here.potential := by
    have hlong : 0 < w.text.length := by
      rw [w.text_length]
      exact Nat.add_pos_left (List.length_pos_iff.2 hw.plain.first.ne_nil) _
    have hlength : s.cursor.rest.length + w.text.length = c.rest.length := by
      rw [hcursor, Cursor.advance_rest hrest, hrest, List.length_append, Nat.add_comm]
    have hindents : dropped.indents = here.indents :=
      (List.cons.inj (hdropped.stack_eq.trans h.stack_eq.symm)).2
    simp only [potential, h.cursor_eq, words, hindents, List.length_append, List.length_cons,
      List.length_nil]
    omega
  exact ⟨words, key, hwords,
    ⟨⟨here.queue, scalar, rfl, h.kinds_eq, hkind, hnumber⟩, h.running, hdropped.handedOn_eq,
      hdropped.stack_eq, rfl, rfl, hfresh⟩,
    congrArg Cursor.mark h.cursor_eq, hcursor, hpotential⟩

/-- A key with its colon. It opens a mapping if it is indented deeper than the innermost block. -/
theorem Ready.key (h : Ready lx kinds stack 0 column (w.text ++ ':' :: more) true) (hw : w.IsKey)
    (hmore : endsWord more = true) (hfloor : floor stack ≤ column) :
    ∃ lx', Advances lx lx' ∧ Stands lx' (kinds ++ (opening stack column .blockMappingStart ++
        [.key, .scalar .plain w.text, .value]))
      (entered stack column) 0 (column + w.text.length + 1) more false := by
  obtain ⟨hopen, here, c, hat, hrest, rfl, hnext, hpotential⟩ := h
  obtain ⟨words, key, hread, hwaits, hmark, hcursor, hwords⟩ :=
    hat.readToken_key hrest hw hmore hfloor
  have hthere : words.cursor.rest = ':' :: more := by
    rw [hcursor]
    exact Cursor.advance_rest hrest
  have hcolumn : floor stack ≤ words.column := by
    simp only [Lexer.column, hcursor, Cursor.advance]
    omega
  have hsecond := hwaits.next hthere hmore hcolumn
  obtain ⟨hkeyed, hle⟩ := hwaits.keyed rfl
  have hsign : TokenKind.value ≠ .streamEnd := by simp
  obtain ⟨hfinal, hpushed⟩ := hkeyed.pushSign Nat.one_pos (by simp [hthere]) hsign false
  refine ⟨_, ⟨2, .step hopen (hnext.trans ((congrArg readToken
    (hat.unroll_eq_self hfloor)).trans hread)) (.step hwaits.open hsecond (.refl _)), by omega⟩,
    words.cursor.advance 1, ?_, ?_, ?_⟩
  · rw [hmark] at hfinal
    simpa [Words.kind] using hfinal
  · simp [Cursor.advance, hthere]
  · simp [hcursor, Cursor.advance]

/-! ## Lists and values -/

theorem startsToken_words (hw : w.IsPlain inFlow) (rest : List Char) :
    startsToken (w.text ++ rest) = true := by
  obtain ⟨ch, cs, hfirst, hgap, hbreak, hcomment, -⟩ := IsPlain.cases hw
  rw [w.text_append, hfirst]
  simp [startsToken, hgap, hbreak, hcomment]

theorem startsToken_inline {v : Inline} (hv : v.Fits) (rest : List Char) :
    startsToken (v.text ++ rest) = true := by
  cases v with
  | plain w => exact startsToken_words hv rest
  | quoted double body => cases double <;> rfl
  | list items => rfl
  | braces => rfl

/-- One item of a list, up to the comma or bracket behind it. -/
theorem Stands.flowItem {i : FlowItem} {ch : Char}
    (h : Stands lx kinds stack (brackets + 1) column (i.text ++ ch :: more) allowed)
    (hi : i.words.IsPlain true) (hcolumn : 0 < column) (hch : isFlowIndicator ch = true) :
    ∃ lx' column', Advances lx lx' ∧ column < column' ∧
      Ready lx' (kinds ++ [i.words.kind]) stack (brackets + 1) column' (ch :: more) false := by
  have htext : i.text ++ ch :: more =
      List.replicate i.before ' ' ++ (i.words.text ++ (List.replicate i.after ' ' ++ ch :: more)) := by
    simp [FlowItem.text]
  rw [htext] at h
  obtain ⟨lx', hadvances, hstands⟩ := (h.spaces hcolumn (startsToken_words hi _)).flowPlain hi
    (Nat.add_pos_left hcolumn _) hch
  have hstart : startsToken (ch :: more) = true := by
    have hmem : ch ∈ [',', '[', ']', '\x7b', '\x7d'] := List.contains_iff_mem.1 hch
    simp only [List.mem_cons, List.not_mem_nil, or_false] at hmem
    rcases hmem with rfl | rfl | rfl | rfl | rfl <;> rfl
  have hlong : 0 < i.words.text.length := by
    rw [i.words.text_length]
    exact Nat.add_pos_left (List.length_pos_iff.2 hi.first.ne_nil) _
  exact ⟨lx', _, hadvances, by omega, hstands.ready (by omega) hstart⟩

theorem Stands.flowItems {items : FlowItems}
    (h : Stands lx kinds stack 1 column (items.text ++ ']' :: more) allowed)
    (hitems : ∀ w ∈ items.words, w.IsPlain true) (hcolumn : 0 < column) :
    ∃ lx' column', Advances lx lx' ∧
      Stands lx' (kinds ++ (items.kinds ++ [.flowSequenceEnd])) stack 0 column' more false := by
  induction items generalizing lx kinds column allowed with
  | none n =>
    obtain ⟨lx', hadvances, hstands⟩ := (h.spaces hcolumn rfl).closingBracket (.inl ⟨rfl, rfl⟩)
    exact ⟨lx', _, hadvances, hstands⟩
  | last i =>
    obtain ⟨lx₁, column₁, hadvances, -, hready⟩ :=
      h.flowItem (hitems _ List.mem_cons_self) hcolumn (by decide)
    obtain ⟨lx₂, hadvances', hstands⟩ := hready.closingBracket (.inl ⟨rfl, rfl⟩)
    refine ⟨lx₂, column₁ + 1, hadvances.trans hadvances', ?_⟩
    simpa [FlowItems.kinds] using hstands
  | cons i items ih =>
    obtain ⟨hi, hitems⟩ := List.forall_mem_cons.1 hitems
    have htext : (FlowItems.cons i items).text ++ ']' :: more =
        i.text ++ ',' :: (items.text ++ ']' :: more) := by simp [FlowItems.text]
    rw [htext] at h
    obtain ⟨lx₁, column₁, hadvances, hlater, hready⟩ := h.flowItem hi hcolumn (by decide)
    obtain ⟨lx₂, hadvances', hstands⟩ := hready.comma
    obtain ⟨lx₃, column₃, hadvances'', hend⟩ := ih hstands hitems (Nat.succ_pos _)
    refine ⟨lx₃, column₃, hadvances.trans (hadvances'.trans hadvances''), ?_⟩
    simpa [FlowItems.kinds] using hend

/-- A value, up to the next line. -/
theorem Ready.inline {v : Inline}
    (h : Ready lx kinds stack 0 column (v.text ++ (tail ++ (t.text ++ Source.text ls))) allowed)
    (hv : v.Fits) (hinside : 0 ≤ floor stack) (hfloor : floor stack < column)
    (hclose : ClosesLine tail t ls) (hwithin : Within stack ls) :
    ∃ lx', Advances lx lx' ∧ Goes lx' (kinds ++ v.kinds) stack ls := by
  have hgoes : ∀ {lx : Lexer} {kinds : List TokenKind} {column : Nat} {allowed : Bool},
      Stands lx kinds stack 0 column (tail ++ (t.text ++ Source.text ls)) allowed →
        Goes lx kinds stack ls := fun h =>
    h.goes hclose.blank hclose.last hclose.passable hclose.starts
  cases v with
  | plain w => exact h.plain hv hinside hfloor hclose hwithin
  | quoted double body =>
    have htext : (Inline.quoted double body).text ++ (tail ++ (t.text ++ Source.text ls)) =
        Inline.quote double :: (body ++ Inline.quote double ::
          (tail ++ (t.text ++ Source.text ls))) := by simp [Inline.text]
    rw [htext] at h
    refine h.quoted ?_ hv hfloor hclose
    cases double
    · exact .inr ⟨rfl, rfl⟩
    · exact .inl ⟨rfl, rfl⟩
  | list items =>
    have htext : (Inline.list items).text ++ (tail ++ (t.text ++ Source.text ls)) =
        '[' :: (items.text ++ ']' :: (tail ++ (t.text ++ Source.text ls))) := by simp [Inline.text]
    rw [htext] at h
    obtain ⟨lx₁, hadvances, hstands⟩ := h.bracket (.inl ⟨rfl, rfl⟩) fun _ => hfloor
    obtain ⟨lx₂, column₂, hadvances', hend⟩ := hstands.flowItems hv (Nat.succ_pos _)
    refine ⟨lx₂, hadvances.trans hadvances', ?_⟩
    have hgoes' := hgoes hend
    simpa [Inline.kinds] using hgoes'
  | braces =>
    obtain ⟨lx₁, hadvances, hstands⟩ := h.bracket (.inr ⟨rfl, rfl⟩) fun _ => hfloor
    obtain ⟨lx₂, hadvances', hend⟩ := (hstands.ready (Nat.succ_pos _) rfl).closingBracket (.inr ⟨rfl, rfl⟩)
    refine ⟨lx₂, hadvances.trans hadvances', ?_⟩
    have hgoes' := hgoes hend
    simpa [Inline.kinds] using hgoes'

end Lexer

end SchemaTidy.Yaml
