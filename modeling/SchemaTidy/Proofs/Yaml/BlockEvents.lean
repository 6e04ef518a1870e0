import SchemaTidy.Proofs.Yaml.Layout
import SchemaTidy.Yaml.Document

/-! # The events of a block

From the tokens of a text in block style to its events. The reader decides by the kind of the next
token, so `Reading` tells its state without the positions. -/

namespace SchemaTidy.Yaml

/-! ## Events -/

/-- A scalar without an anchor or a tag. -/
def bareScalar (style : ScalarStyle) (text : List Char) : EventKind := .scalar none none style text

def Words.event (w : Words) : EventKind := bareScalar .plain w.text

def Inline.events : Inline → List EventKind
  | .plain w => [w.event]
  | .quoted double body => [bareScalar (quoteStyle double) body]
  | .list items => .sequenceStart none none :: (items.words.map (·.event) ++ [.sequenceEnd])
  | .braces => [.mappingStart none none, .mappingEnd]

def Leaf.events : Leaf → List EventKind
  | .inline v => v.events
  | .text folded body => [bareScalar (Scalar.blockStyle folded) body]

/-- A value that is left out is an empty plain scalar. -/
def valueEvents : Option Leaf → List EventKind
  | none => [bareScalar .plain []]
  | some v => v.events

/-- The events of a block between those of its start and its end. -/
def Shape.around : Shape → List EventKind → List EventKind
  | .mapping, inner => .mappingStart none none :: (inner ++ [.mappingEnd])
  | .sequence, inner => .sequenceStart none none :: (inner ++ [.sequenceEnd])

def Block.events : {s : Shape} → Block s → List EventKind
  | _, .nil => []
  | _, .entry key value rest => key.event :: (valueEvents value ++ rest.events)
  | _, .nested key (s := s) inner rest => key.event :: (s.around inner.events ++ rest.events)
  | _, .flush key inner rest => key.event :: (Shape.sequence.around inner.events ++ rest.events)
  | _, .item value rest => valueEvents value ++ rest.events
  | _, .nestedItem (s := s) inner rest => s.around inner.events ++ rest.events

/-! ## First tokens -/

variable {s : Shape} {kind : TokenKind} {kinds : List TokenKind} {flush : Bool}

/-- The token may come after a value that is left out, in a mapping. -/
def endsEntry (kind : TokenKind) : Prop := kind = .key ∨ kind = .blockEnd

/-- The token may come after an item that is left out. -/
def endsItem (flush : Bool) (kind : TokenKind) : Prop :=
  kind = .blockEntry ∨ kind = .blockEnd ∨ flush = true ∧ kind = .key

/-- The token that may come after the last entry of a block. -/
def endsBlock (s : Shape) (flush : Bool) (kind : TokenKind) : Prop :=
  kind = .blockEnd ∨ s = .sequence ∧ flush = true ∧ kind = .key

theorem Block.endsEntry_head (b : Block .mapping) (hkind : endsBlock .mapping flush kind) :
    ∃ k ks, b.kinds ++ kind :: kinds = k :: ks ∧ endsEntry k := by
  cases b with
  | nil =>
    rcases hkind with rfl | ⟨hs, -⟩
    · exact ⟨_, _, rfl, .inr rfl⟩
    · cases hs
  | entry => exact ⟨_, _, rfl, .inl rfl⟩
  | nested => exact ⟨_, _, rfl, .inl rfl⟩
  | flush => exact ⟨_, _, rfl, .inl rfl⟩

theorem Block.endsItem_head (b : Block .sequence) (hkind : endsBlock .sequence flush kind) :
    ∃ k ks, b.kinds ++ kind :: kinds = k :: ks ∧ endsItem flush k := by
  cases b with
  | nil =>
    rcases hkind with rfl | ⟨-, hflush, rfl⟩
    · exact ⟨_, _, rfl, .inr (.inl rfl)⟩
    · exact ⟨_, _, rfl, .inr (.inr ⟨hflush, rfl⟩)⟩
  | item => exact ⟨_, _, rfl, .inl rfl⟩
  | nestedItem => exact ⟨_, _, rfl, .inl rfl⟩

/-- The tokens that no value starts with. -/
def startsNoValue (kind : TokenKind) : Prop :=
  kind = .blockEntry ∨ kind = .key ∨ kind = .value ∨ kind = .blockEnd

theorem Inline.kinds_head (v : Inline) (kinds : List TokenKind) :
    ∃ k ks, v.kinds ++ kinds = k :: ks ∧ ¬ startsNoValue k := by
  cases v <;> exact ⟨_, _, rfl, by simp [startsNoValue, Words.kind]⟩

theorem Leaf.kinds_head (v : Leaf) (kinds : List TokenKind) :
    ∃ k ks, v.kinds ++ kinds = k :: ks ∧ ¬ startsNoValue k := by
  cases v with
  | inline v => exact v.kinds_head kinds
  | text folded body => exact ⟨_, _, rfl, by simp [startsNoValue]⟩

/-! ## Lengths -/

theorem FlowItems.length_words_le (items : FlowItems) : items.words.length ≤ items.kinds.length := by
  induction items with
  | none n => exact Nat.le_refl _
  | last i => exact Nat.le_refl _
  | cons i items ih => simp only [FlowItems.words, FlowItems.kinds, List.length_cons]; omega

theorem Inline.length_events_le (v : Inline) : v.events.length ≤ v.kinds.length + 1 := by
  cases v with
  | plain w => exact Nat.le_succ _
  | quoted double body => exact Nat.le_succ _
  | list items =>
    have h := items.length_words_le
    simp only [Inline.events, Inline.kinds, List.length_cons, List.length_append, List.length_map,
      List.length_nil]
    omega
  | braces => exact Nat.le_succ _

theorem length_valueEvents_le (value : Option Leaf) :
    (valueEvents value).length ≤ (valueKinds value).length + 1 := by
  rcases value with - | (v | ⟨folded, body⟩)
  · exact Nat.le_refl _
  · exact v.length_events_le
  · exact Nat.le_succ _

theorem length_around (s : Shape) (inner : List EventKind) :
    (s.around inner).length = inner.length + 2 := by
  cases s <;> simp [Shape.around]

theorem Block.length_events_le (b : Block s) : b.events.length ≤ b.kinds.length := by
  induction b with
  | nil => exact Nat.le_refl _
  | entry key value rest ih =>
    have h := length_valueEvents_le value
    simp only [Block.events, Block.kinds, Words.keyKinds, List.length_cons, List.length_append,
      List.length_nil]
    omega
  | nested key inner rest ihinner ih =>
    simp only [Block.events, Block.kinds, Words.keyKinds, List.length_cons, List.length_append,
      length_around, List.length_nil]
    omega
  | flush key inner rest ihinner ih =>
    simp only [Block.events, Block.kinds, Words.keyKinds, List.length_cons, List.length_append,
      length_around, List.length_nil]
    omega
  | item value rest ih =>
    have h := length_valueEvents_le value
    simp only [Block.events, Block.kinds, List.length_cons, List.length_append]
    omega
  | nestedItem inner rest ihinner ih =>
    simp only [Block.events, Block.kinds, List.length_cons, List.length_append, length_around]
    omega

namespace EventReader

/-! ## States of the reader -/

/-- The kinds of the tokens that are left, and what is expected. -/
structure Reading (r : EventReader) (kinds : List TokenKind) (expect : Expect)
    (after : List Expect) : Prop where
  kinds_eq : r.tokens.map (·.kind) = kinds
  expect_eq : r.expect = expect
  after_eq : r.after = after

/-- The reader gives these events one after the other. -/
inductive Emits : EventReader → List EventKind → EventReader → Prop where
  | refl (r : EventReader) : Emits r [] r
  | step {r next last : EventReader} {e : Event} {kinds : List EventKind}
    (hstep : r.step = .ok (e, next)) (hopen : e.kind ≠ .streamEnd) (hmore : Emits next kinds last) :
    Emits r (e.kind :: kinds) last

theorem Emits.trans {a b c : EventReader} {front back : List EventKind} (hab : Emits a front b)
    (hbc : Emits b back c) : Emits a (front ++ back) c := by
  induction hab with
  | refl r => exact hbc
  | step hstep hopen _ ih => exact .step hstep hopen (ih hbc)

theorem run_of_emits {r last : EventReader} {kinds : List EventKind} (h : Emits r kinds last)
    (fuel : Nat) : ∃ events, events.map (·.kind) = kinds ∧
      run (kinds.length + fuel) r = (events ++ (run fuel last).1, (run fuel last).2) := by
  induction h with
  | refl r => exact ⟨[], rfl, by rw [List.length_nil, Nat.zero_add]; rfl⟩
  | @step r next last e kinds hstep hopen _ ih =>
    obtain ⟨events, hkinds, hrun⟩ := ih
    refine ⟨e :: events, by rw [List.map_cons, hkinds], ?_⟩
    rw [List.length_cons, Nat.add_right_comm, run, hstep]
    dsimp only
    rw [if_neg hopen, hrun]
    rfl

variable {r : EventReader} {expect next : Expect} {after : List Expect}

theorem Reading.cons (h : Reading r (kind :: kinds) expect after) :
    ∃ t ts, r.tokens = t :: ts ∧ t.kind = kind ∧ ts.map (·.kind) = kinds := by
  obtain ⟨t, ts, hts, hkind, hkinds⟩ := List.map_eq_cons_iff.1 h.kinds_eq
  exact ⟨t, ts, hts, hkind, hkinds⟩

/-- A node gives these events, and then what was awaited goes on. -/
def Node (r : EventReader) (inBlock indentless : Bool) (events : List EventKind)
    (last : EventReader) : Prop :=
  ∃ e next more, r.node inBlock indentless = .ok (e, next) ∧ events = e.kind :: more ∧
    e.kind ≠ .streamEnd ∧ Emits next more last

theorem Node.emits {inBlock indentless : Bool} {events : List EventKind} {last : EventReader}
    (h : Node r inBlock indentless events last) {r₀ : EventReader}
    (hstep : r₀.step = r.node inBlock indentless) : Emits r₀ events last := by
  obtain ⟨e, next, more, hok, rfl, hopen, hmore⟩ := h
  exact .step (hstep.trans hok) hopen hmore

/-! ## Values of one line -/

theorem Node.scalar {style : ScalarStyle} {text : List Char}
    (h : Reading r (.scalar style text :: kinds) expect (next :: after)) (inBlock indentless : Bool) :
    ∃ last, Node r inBlock indentless [bareScalar style text] last ∧ Reading last kinds next after := by
  obtain ⟨t, ts, hts, hkind, hkinds⟩ := h.cons
  have hnode : r.node inBlock indentless =
      .ok (⟨.scalar none none style text, t.start⟩, r.drop.pop) := by
    simp [node, properties, peek, hts, hkind, bind, Except.bind, scalarEvent]
  refine ⟨r.drop.pop, ⟨_, _, [], hnode, rfl, by simp, .refl _⟩, ?_⟩
  exact ⟨by simp [pop, drop, h.after_eq, hts, hkinds], by simp [pop, drop, h.after_eq],
    by simp [pop, drop, h.after_eq]⟩

/-- The event with which a collection starts, and what is expected in it. -/
def startOf (inBlock indentless : Bool) : TokenKind → Option (EventKind × Expect)
  | .flowSequenceStart => some (.sequenceStart none none, .flowSequenceEntry true)
  | .flowMappingStart => some (.mappingStart none none, .flowMappingKey true)
  | .blockEntry =>
    if indentless then some (.sequenceStart none none, .indentlessEntry) else none
  | .blockSequenceStart =>
    if inBlock then some (.sequenceStart none none, .blockSequenceEntry true) else none
  | .blockMappingStart =>
    if inBlock then some (.mappingStart none none, .blockMappingKey true) else none
  | _ => none

theorem node_start {inBlock indentless : Bool} {event : EventKind} {expect' : Expect}
    (h : Reading r (kind :: kinds) expect after)
    (hstart : startOf inBlock indentless kind = some (event, expect')) :
    ∃ m, r.node inBlock indentless = .ok (⟨event, m⟩, { r with expect := expect' }) := by
  obtain ⟨t, ts, hts, hkind, -⟩ := h.cons
  refine ⟨t.start, ?_⟩
  unfold startOf at hstart
  split at hstart
  · obtain ⟨rfl, rfl⟩ := Prod.mk.inj (Option.some.inj hstart)
    simp [node, properties, peek, hts, hkind, bind, Except.bind]
  · obtain ⟨rfl, rfl⟩ := Prod.mk.inj (Option.some.inj hstart)
    simp [node, properties, peek, hts, hkind, bind, Except.bind]
  · split at hstart
    · rename_i hflag
      obtain ⟨rfl, rfl⟩ := Prod.mk.inj (Option.some.inj hstart)
      simp [node, properties, peek, hts, hkind, bind, Except.bind, hflag]
    · cases hstart
  · split at hstart
    · rename_i hflag
      obtain ⟨rfl, rfl⟩ := Prod.mk.inj (Option.some.inj hstart)
      simp [node, properties, peek, hts, hkind, bind, Except.bind, hflag]
    · cases hstart
  · split at hstart
    · rename_i hflag
      obtain ⟨rfl, rfl⟩ := Prod.mk.inj (Option.some.inj hstart)
      simp [node, properties, peek, hts, hkind, bind, Except.bind, hflag]
    · cases hstart
  · cases hstart

/-- A collection is a node: its start, and then what comes in it. -/
theorem Node.collection {inBlock indentless : Bool} {event : EventKind} {expect' : Expect}
    (h : Reading r (kind :: kinds) expect after)
    (hstart : startOf inBlock indentless kind = some (event, expect')) (hopen : event ≠ .streamEnd) :
    ∃ inside, Reading inside (kind :: kinds) expect' after ∧
      ∀ {events : List EventKind} {last : EventReader}, Emits inside events last →
        Node r inBlock indentless (event :: events) last := by
  obtain ⟨m, hnode⟩ := node_start h hstart
  exact ⟨{ r with expect := expect' }, ⟨h.kinds_eq, rfl, h.after_eq⟩,
    fun hmore => ⟨_, _, _, hnode, rfl, hopen, hmore⟩⟩

/-- The token before an item of a list in brackets. -/
def flowSign (first : Bool) : TokenKind := if first then .flowSequenceStart else .flowEntry

theorem Reading.flowScalar {style : ScalarStyle} {text : List Char} {first : Bool}
    (h : Reading r (flowSign first :: .scalar style text :: kinds) (.flowSequenceEntry first) after) :
    ∃ last, Emits r [bareScalar style text] last ∧
      Reading last kinds (.flowSequenceEntry false) after := by
  obtain ⟨t, ts, hts, hkind, hkinds⟩ := h.cons
  obtain ⟨u, us, hus, hscalar, hkinds'⟩ := List.map_eq_cons_iff.1 hkinds
  subst hus
  let inside : EventReader := (if first then r.drop.openAt t.start else r.drop).await
    (.flowSequenceEntry false)
  have hinside : Reading inside (.scalar style text :: kinds) r.expect
      (.flowSequenceEntry false :: after) := by
    cases first <;>
      exact ⟨by simp [inside, await, openAt, drop, hts, hscalar, hkinds'], rfl,
        by simp [inside, await, openAt, drop, h.after_eq]⟩
  obtain ⟨last, hnode, hlast⟩ := Node.scalar hinside false false
  refine ⟨last, hnode.emits ?_, hlast⟩
  rw [step, h.expect_eq]
  cases first <;>
    simp [flowSequenceEntry, peek, hts, drop, openAt, hkind, hscalar, flowSign, flowComma, bind,
      Except.bind, pure, Except.pure, inside]

/-- The end of a collection, where its last token is passed. -/
theorem Reading.close {r : EventReader} (h : Reading r (kind :: kinds) expect (next :: after)) :
    Reading r.close.drop kinds next after := by
  obtain ⟨t, ts, hts, -, hkinds⟩ := h.cons
  exact ⟨by simp [EventReader.close, pop, drop, h.after_eq, hts, hkinds],
    by simp [EventReader.close, pop, drop, h.after_eq],
    by simp [EventReader.close, pop, drop, h.after_eq]⟩

theorem Emits.single {e : Event} {last : EventReader} (hstep : r.step = .ok (e, last))
    (hopen : e.kind ≠ .streamEnd) : Emits r [e.kind] last := .step hstep hopen (.refl last)

theorem Reading.flowEnd (h : Reading r (.flowSequenceEnd :: kinds) (.flowSequenceEntry false)
    (next :: after)) : ∃ last, Emits r [.sequenceEnd] last ∧ Reading last kinds next after := by
  obtain ⟨t, ts, hts, hkind, -⟩ := h.cons
  have hstep : r.step = .ok (⟨.sequenceEnd, t.start⟩, r.close.drop) := by
    rw [step, h.expect_eq]
    simp [flowSequenceEntry, peek, hts, hkind, bind, Except.bind, pure, Except.pure]
  exact ⟨_, .single hstep (by simp), h.close⟩

theorem Reading.openAt (h : Reading r kinds expect after) (m : Mark) :
    Reading (r.openAt m) kinds expect after := ⟨h.kinds_eq, h.expect_eq, h.after_eq⟩

theorem Reading.drop (h : Reading r (kind :: kinds) expect after) : Reading r.drop kinds expect after := by
  obtain ⟨t, ts, hts, -, hkinds⟩ := h.cons
  exact ⟨by simp [EventReader.drop, hts, hkinds], h.expect_eq, h.after_eq⟩

/-- The bracket that ends a list may come at once, or after a comma. -/
theorem Reading.flowEndAfter {first : Bool}
    (h : Reading r (flowSign first :: .flowSequenceEnd :: kinds) (.flowSequenceEntry first)
      (next :: after)) : ∃ last, Emits r [.sequenceEnd] last ∧ Reading last kinds next after := by
  obtain ⟨t, ts, hts, hkind, hkinds⟩ := h.cons
  obtain ⟨u, us, rfl, hend, -⟩ := List.map_eq_cons_iff.1 hkinds
  let inside : EventReader := if first then r.drop.openAt t.start else r.drop
  have hinside : Reading inside (.flowSequenceEnd :: kinds) (.flowSequenceEntry first)
      (next :: after) := by
    cases first
    · exact h.drop
    · exact h.drop.openAt t.start
  have hstep : r.step = .ok (⟨.sequenceEnd, u.start⟩, inside.close.drop) := by
    rw [step, h.expect_eq]
    cases first <;>
      simp [flowSequenceEntry, peek, hts, EventReader.drop, EventReader.openAt, hkind, hend, flowSign,
        flowComma, bind, Except.bind, pure, Except.pure, inside]
  exact ⟨_, .single hstep (by simp), hinside.close⟩

theorem Reading.flowItems {items : FlowItems} (first : Bool)
    (h : Reading r (flowSign first :: (items.kinds ++ .flowSequenceEnd :: kinds))
      (.flowSequenceEntry first) (next :: after)) :
    ∃ last, Emits r (items.words.map (·.event) ++ [.sequenceEnd]) last ∧
      Reading last kinds next after := by
  induction items generalizing r first with
  | none n => exact h.flowEndAfter
  | last i =>
    obtain ⟨mid, hitem, hmid⟩ := Reading.flowScalar h
    obtain ⟨last, hend, hlast⟩ := hmid.flowEnd
    exact ⟨last, hitem.trans hend, hlast⟩
  | cons i items ih =>
    obtain ⟨mid, hitem, hmid⟩ := Reading.flowScalar h
    obtain ⟨last, hmore, hlast⟩ := ih false hmid
    exact ⟨last, hitem.trans hmore, hlast⟩

theorem Reading.braces (h : Reading r (.flowMappingStart :: .flowMappingEnd :: kinds)
    (.flowMappingKey true) (next :: after)) :
    ∃ last, Emits r [.mappingEnd] last ∧ Reading last kinds next after := by
  obtain ⟨t, ts, hts, hkind, hkinds⟩ := h.cons
  obtain ⟨u, us, rfl, hend, -⟩ := List.map_eq_cons_iff.1 hkinds
  have hstep : r.step = .ok (⟨.mappingEnd, u.start⟩, (r.drop.openAt t.start).close.drop) := by
    rw [step, h.expect_eq]
    simp [flowMappingKey, peek, hts, EventReader.drop, EventReader.openAt, hend, bind, Except.bind,
      pure, Except.pure]
  exact ⟨_, .single hstep (by simp), (h.drop.openAt t.start).close⟩

/-- A value of one line is a node. -/
theorem Node.inline {v : Inline} (h : Reading r (v.kinds ++ kinds) expect (next :: after))
    (inBlock indentless : Bool) :
    ∃ last, Node r inBlock indentless v.events last ∧ Reading last kinds next after := by
  cases v with
  | plain w => exact Node.scalar h inBlock indentless
  | quoted double body => exact Node.scalar h inBlock indentless
  | list items =>
    have h' : Reading r (.flowSequenceStart :: (items.kinds ++ .flowSequenceEnd :: kinds)) expect
        (next :: after) := by simpa [Inline.kinds] using h
    have hstart : startOf inBlock indentless .flowSequenceStart =
        some (.sequenceStart none none, .flowSequenceEntry true) := rfl
    obtain ⟨inside, hinside, hnode⟩ := Node.collection h' hstart (by simp)
    obtain ⟨last, hitems, hlast⟩ := Reading.flowItems true hinside
    exact ⟨last, hnode hitems, hlast⟩
  | braces =>
    have hstart : startOf inBlock indentless .flowMappingStart =
        some (.mappingStart none none, .flowMappingKey true) := rfl
    obtain ⟨inside, hinside, hnode⟩ := Node.collection h hstart (by simp)
    obtain ⟨last, hend, hlast⟩ := hinside.braces
    exact ⟨last, hnode hend, hlast⟩

theorem Node.leaf {v : Leaf} (h : Reading r (v.kinds ++ kinds) expect (next :: after))
    (inBlock indentless : Bool) :
    ∃ last, Node r inBlock indentless v.events last ∧ Reading last kinds next after := by
  cases v with
  | inline v => exact Node.inline h inBlock indentless
  | text folded body => exact Node.scalar h inBlock indentless

/-! ## Keys and items -/

theorem Reading.await (h : Reading r kinds expect after) (e : Expect) :
    Reading (r.await e) kinds expect (e :: after) :=
  ⟨h.kinds_eq, h.expect_eq, by rw [EventReader.await, h.after_eq]⟩

theorem Reading.expecting (h : Reading r kinds expect after) (e : Expect) :
    Reading { r with expect := e } kinds e after := ⟨h.kinds_eq, rfl, h.after_eq⟩

/-- The reader does what this step does with these tokens. A collection that has just been opened
is read on as if it had been open before, but for its first token. -/
def Acts (r₀ : EventReader) (act : EventReader → Step) (kinds : List TokenKind)
    (after : List Expect) : Prop :=
  ∃ r, Reading r kinds r.expect after ∧ r₀.step = act r

/-- What is done between the entries of a block, and what is expected then. The items of a list may
be flush with the key before it. -/
def act : Shape → Bool → EventReader → Step
  | .mapping, _ => fun r => r.blockMappingKey false
  | .sequence, false => fun r => r.blockSequenceEntry false
  | .sequence, true => fun r => r.indentlessEntry

def between : Shape → Bool → Expect
  | .mapping, _ => .blockMappingKey false
  | .sequence, false => .blockSequenceEntry false
  | .sequence, true => .indentlessEntry

theorem Reading.acts (h : Reading r kinds (between s flush) after) : Acts r (act s flush) kinds after := by
  refine ⟨r, ⟨h.kinds_eq, rfl, h.after_eq⟩, ?_⟩
  rw [step, h.expect_eq]
  cases s <;> cases flush <;> rfl

def justOpened : Shape → Expect
  | .mapping => .blockMappingKey true
  | .sequence => .blockSequenceEntry true

theorem Reading.acts_opened (h : Reading r (s.start :: kinds) (justOpened s) after) :
    Acts r (act s false) kinds after := by
  obtain ⟨t, ts, hts, -⟩ := h.cons
  refine ⟨r.drop.openAt t.start, ?_, ?_⟩
  · have hdropped := h.drop.openAt t.start
    exact ⟨hdropped.kinds_eq, rfl, hdropped.after_eq⟩
  · rw [step, h.expect_eq]
    cases s <;>
      simp [justOpened, act, blockMappingKey, blockSequenceEntry, peek, hts, bind, Except.bind, pure,
        Except.pure]

theorem Acts.key {text : List Char}
    (h : Acts r (act .mapping flush) (.key :: .scalar .plain text :: kinds) after) :
    ∃ last, Emits r [bareScalar .plain text] last ∧ Reading last kinds .blockMappingValue after := by
  obtain ⟨r', h, hstep⟩ := h
  obtain ⟨t, ts, hts, hkind, hkinds⟩ := h.cons
  obtain ⟨u, us, rfl, hscalar, -⟩ := List.map_eq_cons_iff.1 hkinds
  obtain ⟨last, hnode, hlast⟩ := Node.scalar (h.drop.await .blockMappingValue) true true
  refine ⟨last, hnode.emits ?_, hlast⟩
  rw [hstep]
  simp [act, blockMappingKey, peek, hts, EventReader.drop, hkind, hscalar, bind, Except.bind, pure,
    Except.pure]

theorem Reading.noValue (h : Reading r (.value :: kind :: kinds) .blockMappingValue after)
    (hkind : endsEntry kind) :
    ∃ last, Emits r [bareScalar .plain []] last ∧
      Reading last (kind :: kinds) (.blockMappingKey false) after := by
  obtain ⟨t, ts, hts, hvalue, hkinds⟩ := h.cons
  obtain ⟨u, us, rfl, hnext, -⟩ := List.map_eq_cons_iff.1 hkinds
  have hstep : r.step = .ok (⟨.scalar none none .plain [], t.stop⟩,
      { r.drop with expect := .blockMappingKey false }) := by
    rw [step, h.expect_eq]
    rcases hkind with rfl | rfl <;>
      simp [blockMappingValue, peek, hts, EventReader.drop, hvalue, hnext, missing, bind, Except.bind]
  exact ⟨_, .single hstep (by simp), h.drop.expecting _⟩

/-- A value is a node, and the next key comes after it. -/
theorem Reading.value {events : List EventKind} {last : EventReader}
    (h : Reading r (.value :: kind :: kinds) .blockMappingValue after)
    (hkind : kind ≠ .key ∧ kind ≠ .value ∧ kind ≠ .blockEnd)
    (hnode : Node (r.drop.await (.blockMappingKey false)) true true events last) :
    Emits r events last := by
  obtain ⟨t, ts, hts, hvalue, hkinds⟩ := h.cons
  obtain ⟨u, us, rfl, rfl, -⟩ := List.map_eq_cons_iff.1 hkinds
  refine hnode.emits ?_
  rw [step, h.expect_eq]
  simp only [blockMappingValue, peek, hts, EventReader.drop, hvalue, bind, Except.bind]
  split <;> simp_all

theorem Acts.noItem (h : Acts r (act .sequence flush) (.blockEntry :: kind :: kinds) after)
    (hkind : endsItem flush kind) :
    ∃ last, Emits r [bareScalar .plain []] last ∧
      Reading last (kind :: kinds) (between .sequence flush) after := by
  obtain ⟨r', h, hact⟩ := h
  obtain ⟨t, ts, hts, hentry, hkinds⟩ := h.cons
  obtain ⟨u, us, rfl, hnext, -⟩ := List.map_eq_cons_iff.1 hkinds
  have hstep : r.step = .ok (⟨.scalar none none .plain [], t.stop⟩,
      { r'.drop with expect := between .sequence flush }) := by
    rw [hact]
    cases flush <;> rcases hkind with rfl | rfl | ⟨hflush, rfl⟩ <;>
      simp_all [act, between, blockSequenceEntry, indentlessEntry, peek, EventReader.drop, missing,
        bind, Except.bind, pure, Except.pure]
  exact ⟨_, .single hstep (by simp), h.drop.expecting _⟩

theorem Acts.item (h : Acts r (act .sequence flush) (.blockEntry :: kind :: kinds) after)
    (hkind : kind ≠ .blockEntry ∧ kind ≠ .key ∧ kind ≠ .value ∧ kind ≠ .blockEnd) :
    ∃ inside, Reading inside (kind :: kinds) inside.expect (between .sequence flush :: after) ∧
      ∀ {events : List EventKind} {last : EventReader}, Node inside true false events last →
        Emits r events last := by
  obtain ⟨r', h, hact⟩ := h
  obtain ⟨t, ts, hts, hentry, hkinds⟩ := h.cons
  obtain ⟨u, us, rfl, rfl, -⟩ := List.map_eq_cons_iff.1 hkinds
  refine ⟨r'.drop.await (between .sequence flush), h.drop.await _, fun hnode => hnode.emits ?_⟩
  rw [hact]
  cases flush
  · simp only [act, blockSequenceEntry, peek, hts, EventReader.drop, hentry, bind, Except.bind, pure,
      Except.pure, Bool.false_eq_true, if_false]
    split <;> simp_all [between]
  · simp only [act, indentlessEntry, peek, hts, EventReader.drop, hentry, bind, Except.bind]
    split <;> simp_all [between]

/-! ## Blocks -/

/-- The end of a block that has an end of its own. -/
theorem Acts.blockEnd (h : Acts r (act s false) (.blockEnd :: kinds) (next :: after)) :
    ∃ last, Emits r [match s with | .mapping => .mappingEnd | .sequence => .sequenceEnd] last ∧
      Reading last kinds next after := by
  obtain ⟨r', h, hact⟩ := h
  obtain ⟨t, ts, hts, hkind, hkinds⟩ := h.cons
  refine ⟨r'.close.drop, ?_, h.close⟩
  cases s with
  | mapping =>
    refine Emits.single (e := ⟨.mappingEnd, t.start⟩) ?_ (by simp)
    rw [hact]
    simp [act, blockMappingKey, peek, hts, hkind, bind, Except.bind, pure, Except.pure]
  | sequence =>
    refine Emits.single (e := ⟨.sequenceEnd, t.start⟩) ?_ (by simp)
    rw [hact]
    simp [act, blockSequenceEntry, peek, hts, hkind, bind, Except.bind, pure, Except.pure]

/-- The items that are flush with a key end where no further dash comes. -/
theorem Acts.flushEnd (h : Acts r (act .sequence true) (kind :: kinds) (next :: after))
    (hkind : kind ≠ .blockEntry) :
    ∃ last, Emits r [.sequenceEnd] last ∧ Reading last (kind :: kinds) next after := by
  obtain ⟨r', h, hact⟩ := h
  obtain ⟨t, ts, hts, rfl, hkinds⟩ := h.cons
  refine ⟨r'.pop, Emits.single (e := ⟨.sequenceEnd, t.start⟩) ?_ (by simp), ?_⟩
  · rw [hact]
    simp only [act, indentlessEntry, peek, hts, bind, Except.bind]
  · exact ⟨by simp [pop, h.after_eq, hts, hkinds], by simp [pop, h.after_eq],
      by simp [pop, h.after_eq]⟩

/-- A block that is nested in another is a node, if its entries are read as they should be. -/
theorem Node.enclosed {b : Block s} (indentless : Bool)
    (h : Reading r (s.start :: (b.kinds ++ .blockEnd :: kinds)) expect (next :: after))
    (hinside : ∀ {r : EventReader},
      Acts r (act s false) (b.kinds ++ .blockEnd :: kinds) (next :: after) →
      ∃ last, Emits r b.events last ∧ Acts last (act s false) (.blockEnd :: kinds) (next :: after)) :
    ∃ last, Node r true indentless (s.around b.events) last ∧ Reading last kinds next after := by
  cases s with
  | mapping =>
    have hstart : startOf true indentless .blockMappingStart =
        some (.mappingStart none none, justOpened .mapping) := rfl
    obtain ⟨inside, hopened, hnode⟩ := Node.collection h hstart (by simp)
    obtain ⟨mid, hevents, hacts⟩ := hinside hopened.acts_opened
    obtain ⟨last, hend, hlast⟩ := hacts.blockEnd
    exact ⟨last, hnode (hevents.trans hend), hlast⟩
  | sequence =>
    have hstart : startOf true indentless .blockSequenceStart =
        some (.sequenceStart none none, justOpened .sequence) := rfl
    obtain ⟨inside, hopened, hnode⟩ := Node.collection h hstart (by simp)
    obtain ⟨mid, hevents, hacts⟩ := hinside hopened.acts_opened
    obtain ⟨last, hend, hlast⟩ := hacts.blockEnd
    exact ⟨last, hnode (hevents.trans hend), hlast⟩

/-- A value, or none, behind the colon of a key. -/
theorem Reading.entryValue {value : Option Leaf}
    (h : Reading r (.value :: (valueKinds value ++ kinds)) .blockMappingValue after)
    (hkinds : ∃ k ks, kinds = k :: ks ∧ endsEntry k) :
    ∃ last, Emits r (valueEvents value) last ∧ Reading last kinds (.blockMappingKey false) after := by
  cases value with
  | none =>
    obtain ⟨k, ks, rfl, hk⟩ := hkinds
    exact h.noValue hk
  | some v =>
    obtain ⟨k, ks, heq, hk⟩ := v.kinds_head kinds
    obtain ⟨last, hnode, hlast⟩ := Node.leaf (v := v)
      (h.drop.await (.blockMappingKey false)) true true
    have hvalue : valueKinds (some v) ++ kinds = k :: ks := heq
    rw [hvalue] at h
    exact ⟨last, h.value (by simp_all [startsNoValue]) hnode, hlast⟩

/-- A value, or none, behind a dash. -/
theorem Acts.itemValue {value : Option Leaf}
    (h : Acts r (act .sequence flush) (.blockEntry :: (valueKinds value ++ kinds)) after)
    (hkinds : ∃ k ks, kinds = k :: ks ∧ endsItem flush k) :
    ∃ last, Emits r (valueEvents value) last ∧
      Reading last kinds (between .sequence flush) after := by
  cases value with
  | none =>
    obtain ⟨k, ks, rfl, hk⟩ := hkinds
    exact h.noItem hk
  | some v =>
    obtain ⟨k, ks, heq, hk⟩ := v.kinds_head kinds
    have hvalue : valueKinds (some v) ++ kinds = k :: ks := heq
    rw [hvalue] at h
    obtain ⟨inside, hinside, hemits⟩ := h.item (by simp_all [startsNoValue])
    rw [← heq] at hinside
    obtain ⟨last, hnode, hlast⟩ := Node.leaf hinside true false
    exact ⟨last, hemits hnode, hlast⟩

theorem Acts.nestedItem {b : Block s}
    (h : Acts r (act .sequence flush)
      (.blockEntry :: s.start :: (b.kinds ++ .blockEnd :: kinds)) after)
    (hinside : ∀ {r : EventReader} {after : List Expect},
      Acts r (act s false) (b.kinds ++ .blockEnd :: kinds) after →
      ∃ last, Emits r b.events last ∧ Acts last (act s false) (.blockEnd :: kinds) after) :
    ∃ last, Emits r (s.around b.events) last ∧
      Reading last kinds (between .sequence flush) after := by
  obtain ⟨inside, hread, hemits⟩ := h.item (by cases s <;> simp [Shape.start])
  obtain ⟨last, hnode, hlast⟩ := Node.enclosed false hread hinside
  exact ⟨last, hemits hnode, hlast⟩

/-- A list whose items are flush with its key. -/
theorem Reading.flushValue {b : Block .sequence}
    (h : Reading r (.value :: (b.kinds ++ kinds)) .blockMappingValue after) (hb : b ≠ .nil)
    (hkinds : ∃ k ks, kinds = k :: ks ∧ endsEntry k)
    (hinside : ∀ {r : EventReader} {kind : TokenKind} {kinds : List TokenKind} {after : List Expect},
      Acts r (act .sequence true) (b.kinds ++ kind :: kinds) after → endsBlock .sequence true kind →
      ∃ last, Emits r b.events last ∧ Acts last (act .sequence true) (kind :: kinds) after) :
    ∃ last, Emits r (Shape.sequence.around b.events) last ∧
      Reading last kinds (.blockMappingKey false) after := by
  obtain ⟨k, ks, rfl, hk⟩ := hkinds
  obtain ⟨more, hmore⟩ : ∃ more, b.kinds = .blockEntry :: more := by
    cases b with
    | nil => exact absurd rfl hb
    | item => exact ⟨_, rfl⟩
    | nestedItem => exact ⟨_, rfl⟩
  have hawaiting := h.drop.await (.blockMappingKey false)
  rw [hmore, List.cons_append] at hawaiting
  have hstart : startOf true true .blockEntry =
      some (.sequenceStart none none, .indentlessEntry) := rfl
  obtain ⟨inside, hopened, hnode⟩ := Node.collection hawaiting hstart (by simp)
  rw [← List.cons_append, ← hmore] at hopened
  obtain ⟨mid, hevents, hacts⟩ := hinside (Reading.acts (s := .sequence) hopened)
    (hk.elim (fun h => .inr ⟨rfl, rfl, h⟩) .inl)
  obtain ⟨last, hend, hlast⟩ := hacts.flushEnd (by rcases hk with rfl | rfl <;> simp)
  rw [hmore, List.cons_append] at h
  exact ⟨last, h.value (by simp) (hnode (hevents.trans hend)), hlast⟩

/-- What is read of a block is its events, and then what follows it is read. -/
theorem Acts.block {n : Nat} {ls more : List Source.Line} {b : Block s} (hlays : Lays n ls more b)
    (hkind : endsBlock s flush kind)
    (h : Acts r (act s flush) (b.kinds ++ kind :: kinds) after) :
    ∃ last, Emits r b.events last ∧ Acts last (act s flush) (kind :: kinds) after := by
  induction hlays generalizing r flush kind kinds after with
  | nil => exact ⟨r, .refl r, h⟩
  | filler _ _ ih => exact ih hkind h
  | @entry n l below ls more key cs value rest _ _ _ _ ih =>
    have hacts : Acts r (act .mapping flush) (.key :: .scalar .plain key.text ::
        .value :: (valueKinds value ++ (rest.kinds ++ kind :: kinds))) after := by
      simpa [Block.kinds, Words.keyKinds, Words.kind] using h
    obtain ⟨keyed, hkey, hreading⟩ := hacts.key
    obtain ⟨mid, hvalue, hmid⟩ := hreading.entryValue (rest.endsEntry_head hkind)
    obtain ⟨last, hrest, hlast⟩ := ih hkind (Reading.acts hmid)
    exact ⟨last, hkey.trans (hvalue.trans hrest), hlast⟩
  | @nested s n l inside ls more key tail inner rest _ _ _ _ _ _ ihinner ih =>
    have hacts : Acts r (act .mapping flush) (.key :: .scalar .plain key.text ::
        .value :: s.start :: (inner.kinds ++ .blockEnd :: (rest.kinds ++ kind :: kinds))) after := by
      simpa [Block.kinds, Words.keyKinds, Words.kind] using h
    obtain ⟨keyed, hkey, hreading⟩ := hacts.key
    obtain ⟨mid, hnode, hmid⟩ := Node.enclosed true
      (hreading.drop.await (.blockMappingKey false)) fun h => ihinner (.inl rfl) h
    have hvalue := hreading.value (by cases s <;> simp [Shape.start]) hnode
    obtain ⟨last, hrest, hlast⟩ := ih hkind (Reading.acts hmid)
    exact ⟨last, hkey.trans (hvalue.trans hrest), hlast⟩
  | @flush n l inside ls more key tail inner rest _ _ _ _ hinner _ ihinner ih =>
    have hacts : Acts r (act .mapping flush) (.key :: .scalar .plain key.text ::
        .value :: (inner.kinds ++ (rest.kinds ++ kind :: kinds))) after := by
      simpa [Block.kinds, Words.keyKinds, Words.kind] using h
    obtain ⟨keyed, hkey, hreading⟩ := hacts.key
    obtain ⟨mid, hvalue, hmid⟩ := hreading.flushValue hinner (rest.endsEntry_head hkind)
      fun h hk => ihinner hk h
    obtain ⟨last, hrest, hlast⟩ := ih hkind (Reading.acts hmid)
    exact ⟨last, hkey.trans (hvalue.trans hrest), hlast⟩
  | @item n l below ls more cs value rest _ _ _ ih =>
    have hacts : Acts r (act .sequence flush)
        (.blockEntry :: (valueKinds value ++ (rest.kinds ++ kind :: kinds))) after := by
      simpa [Block.kinds] using h
    obtain ⟨mid, hvalue, hmid⟩ := hacts.itemValue (rest.endsItem_head hkind)
    obtain ⟨last, hrest, hlast⟩ := ih hkind hmid.acts
    exact ⟨last, hvalue.trans hrest, hlast⟩
  | @itemBelow s n l inside ls more tail inner rest _ _ _ _ _ ihinner ih =>
    obtain ⟨mid, hvalue, hmid⟩ := Acts.nestedItem (b := inner) (by simpa [Block.kinds] using h)
      fun h => ihinner (.inl rfl) h
    obtain ⟨last, hrest, hlast⟩ := ih hkind hmid.acts
    exact ⟨last, hvalue.trans hrest, hlast⟩
  | @itemBeside s n l first inside ls more cs inner rest _ _ _ _ _ _ ihinner ih =>
    obtain ⟨mid, hvalue, hmid⟩ := Acts.nestedItem (b := inner) (by simpa [Block.kinds] using h)
      fun h => ihinner (.inl rfl) h
    obtain ⟨last, hrest, hlast⟩ := ih hkind hmid.acts
    exact ⟨last, hvalue.trans hrest, hlast⟩

/-! ## The whole stream -/

/-- A block opens a document, with three dashes before it or without. -/
theorem Reading.documentStart {marked : Bool}
    (h : Reading r (marks marked ++ .blockMappingStart :: kinds) (.document true) after) :
    ∃ last, Emits r [.documentStart] last ∧ last.step = last.node true false ∧
      Reading last (.blockMappingStart :: kinds) last.expect (.documentEnd :: after) := by
  cases marked with
  | false =>
    obtain ⟨t, ts, hts, hkind, hkinds⟩ := h.cons
    let last : EventReader :=
      { r with expect := .blockNode, after := .documentEnd :: r.after, handles := defaultHandles }
    have hstep : r.step = .ok (⟨.documentStart, t.start⟩, last) := by
      rw [step, h.expect_eq]
      simp [document, peek, hts, hkind, startsBare, bind, Except.bind, last]
    exact ⟨last, .single hstep (by simp), rfl, h.kinds_eq, rfl, congrArg _ h.after_eq⟩
  | true =>
    obtain ⟨t, ts, hts, hkind, hkinds⟩ := h.cons
    obtain ⟨u, us, rfl, hblock, hkinds'⟩ := List.map_eq_cons_iff.1 hkinds
    let opened : EventReader := { r with tokens := t :: u :: us, handles := [] ++ defaultHandles }
    let last : EventReader :=
      { opened.drop.await .documentEnd with expect := .documentContent }
    have hstep : r.step = .ok (⟨.documentStart, t.start⟩, last) := by
      rw [step, h.expect_eq]
      simp [document, peek, hts, hkind, startsBare, directives, bind, Except.bind, last, opened]
    have hpeek : last.peek = .ok u := rfl
    refine ⟨last, .single hstep (by simp), ?_, ?_, rfl, congrArg _ h.after_eq⟩
    · rw [step]
      change last.documentContent = _
      simp only [documentContent, hpeek, hblock, bind, Except.bind]
    · rw [← hblock, ← hkinds']
      rfl

theorem Reading.documentEnd (h : Reading r (kind :: kinds) .documentEnd after)
    (hkind : kind ≠ .documentEnd) :
    ∃ last, Emits r [.documentEnd] last ∧ Reading last (kind :: kinds) (.document false) after := by
  obtain ⟨t, ts, hts, rfl, hkinds⟩ := h.cons
  have hstep : r.step = .ok (⟨.documentEnd, t.start⟩,
      { r with expect := .document false, handles := [] }) := by
    rw [step, h.expect_eq]
    simp [EventReader.documentEnd, peek, hts, hkind, bind, Except.bind]
  exact ⟨_, .single hstep (by simp), h.kinds_eq, rfl, h.after_eq⟩

theorem Reading.streamEnd (h : Reading r [.streamEnd] (.document false) after) (fuel : Nat) :
    ∃ e : Event, e.kind = .streamEnd ∧ run (fuel + 1) r = ([e], none) := by
  obtain ⟨t, ts, hts, hkind, hkinds⟩ := h.cons
  have hstep : r.step = .ok (⟨.streamEnd, t.start⟩, r.drop) := by
    rw [step, h.expect_eq]
    simp [document, peek, hts, hkind, EventReader.drop, bind, Except.bind]
  exact ⟨⟨.streamEnd, t.start⟩, rfl, by rw [run, hstep]; rfl⟩

theorem events_of_kinds {n : Nat} {ls more : List Source.Line} {b : Block .mapping}
    (hlays : Lays n ls more b) {marked : Bool} {ts : List Token} (hts : ts.map (·.kind) =
      .streamStart :: (marks marked ++ .blockMappingStart :: (b.kinds ++ [.blockEnd, .streamEnd]))) :
    ∃ es, EventReader.events ts none = (es, none) ∧ es.map (·.kind) =
      .documentStart :: (Shape.mapping.around b.events ++ [.documentEnd, .streamEnd]) := by
  obtain ⟨t₀, ts, rfl, hstart, hts⟩ := List.map_eq_cons_iff.1 hts
  let r₀ : EventReader := ⟨ts, none, .document true, [], [], []⟩
  have hdrop : (t₀ :: ts).dropWhile (·.kind == .streamStart) = ts := by
    obtain ⟨t, ts, rfl, hopen⟩ : ∃ t ts', ts = t :: ts' ∧ t.kind ≠ .streamStart := by
      cases marked <;>
        obtain ⟨t, ts', rfl, hkind, -⟩ := List.map_eq_cons_iff.1 hts <;>
        exact ⟨t, ts', rfl, by simp [hkind]⟩
    rw [List.dropWhile_cons_of_pos (by simpa using hstart), List.dropWhile_cons_of_neg (by simpa using hopen)]
  have hread₀ : Reading r₀ (marks marked ++ .blockMappingStart :: (b.kinds ++ .blockEnd :: [.streamEnd]))
      (.document true) [] := ⟨hts, rfl, rfl⟩
  obtain ⟨r₁, hemits₁, hstep₁, hread₁⟩ := hread₀.documentStart
  obtain ⟨r₂, hnode, hread₂⟩ := Node.enclosed false hread₁ fun h =>
    h.block hlays (.inl rfl)
  have hemits₂ : Emits r₁ (Shape.mapping.around b.events) r₂ := hnode.emits hstep₁
  obtain ⟨r₃, hemits₃, hread₃⟩ := hread₂.documentEnd (by simp)
  have hemits := hemits₁.trans (hemits₂.trans hemits₃)
  have hlength := b.length_events_le
  have hlength' := congrArg List.length hts
  simp only [List.length_map, List.length_append, List.length_cons, List.length_nil] at hlength'
  obtain ⟨fuel, hfuel⟩ : ∃ fuel, 4 * (t₀ :: ts).length + 8 =
      (.documentStart :: (Shape.mapping.around b.events ++ [.documentEnd]) : List EventKind).length +
        (fuel + 1) := by
    refine ⟨4 * (ts.length + 1) + 8 - (b.events.length + 5), ?_⟩
    simp only [List.length_cons, List.length_append, length_around, List.length_nil]
    omega
  obtain ⟨es, hes, hrun⟩ := run_of_emits hemits (fuel + 1)
  obtain ⟨e, he, hlast⟩ := hread₃.streamEnd fuel
  refine ⟨es ++ [e], ?_, ?_⟩
  · rw [EventReader.events, hdrop, hfuel]
    simp only [List.cons_append, List.nil_append] at hrun
    rw [hrun, hlast]
  · simp [hes, he]

end EventReader

/-- The events of a text in block style are those of its block. -/
theorem events_of_lays {text : List Char} {b : Block .mapping} (h : LaysText (Source.lines text) b)
    (hb : b ≠ .nil) (hallowed : forbiddenAt 0 text = none) :
    ∃ es, events text = (es, none) ∧ es.map (·.kind) =
      .documentStart :: (Shape.mapping.around b.events ++ [.documentEnd, .streamEnd]) := by
  obtain ⟨marked, ts, htokens, hkinds⟩ := tokens_of_lays h hb hallowed
  obtain ⟨ls, hlays⟩ := h.lays
  obtain ⟨es, hevents, hes⟩ := EventReader.events_of_kinds hlays hkinds
  exact ⟨es, by rw [events, htokens]; exact hevents, hes⟩

/-- A text that holds nothing has the event of its end only. -/
theorem events_of_nil {text : List Char} (h : LaysText (Source.lines text) .nil)
    (hallowed : forbiddenAt 0 text = none) :
    ∃ e, events text = ([e], none) ∧ e.kind = .streamEnd := by
  obtain ⟨ts, htokens, hkinds⟩ := tokens_of_nil h hallowed
  obtain ⟨t₀, ts', rfl, hstart, hts⟩ := List.map_eq_cons_iff.1 hkinds
  obtain ⟨t, ts, rfl, hend, hts⟩ := List.map_eq_cons_iff.1 hts
  obtain rfl := List.map_eq_nil_iff.1 hts
  have hdrop : [t₀, t].dropWhile (·.kind == .streamStart) = [t] := by
    rw [List.dropWhile_cons_of_pos (by simpa using hstart), List.dropWhile_cons_of_neg (by simp [hend])]
  refine ⟨⟨.streamEnd, t.start⟩, ?_, rfl⟩
  rw [events, htokens]
  simp only [EventReader.events, hdrop]
  simp [EventReader.run, EventReader.step, EventReader.document, EventReader.peek,
    EventReader.startsBare, hend, bind, Except.bind]

end SchemaTidy.Yaml
