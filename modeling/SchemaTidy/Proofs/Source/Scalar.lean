import SchemaTidy.Proofs.Text.Stretch
import SchemaTidy.Source.Line

/-! # Exchanging the scalar or the key that a text is read as

`scalar?_exchange` and `key?_exchange` say where the found piece stands, and that another text in
its place is found there in turn. Both hold for any text around the piece: blanks, quotes and
trailing comments stay what they are. -/

namespace SchemaTidy.Source
open Text

/-- `new` may take the place of the scalar `old`: it opens no quote or comment by itself, has no
blanks at its ends, and holds no quote or comment mark that `old` does not hold. -/
structure Fits (old new : List Char) : Prop where
  ne_nil : new ≠ []
  head : ∀ c, new.head? = some c → isBlank c = false ∧ c ≠ '#' ∧ c ≠ '"' ∧ c ≠ '\''
  last : ∀ c, new.getLast? = some c → isBlank c = false
  quote : ∀ q, q = '"' ∨ q = '\'' → q ∈ new → q ∈ old
  comment : ∀ b, isBlank b = true → [b, '#'] <:+: new → [b, '#'] <:+: old

theorem fits_of_isName {name : List Char} (h : IsName name) (old : List Char) : Fits old name where
  ne_nil := h.1
  head c hc := by
    have hm := List.mem_of_mem_head? hc
    refine ⟨h.not_isBlank hm, ?_, ?_, ?_⟩ <;> rintro rfl <;> exact h.not_mem (by decide) hm
  last c hc := h.not_isBlank (List.mem_of_getLast? hc)
  quote q hq hm := by rcases hq with rfl | rfl <;> exact absurd hm (h.not_mem (by decide))
  comment b _ hm := absurd (hm.subset (by simp)) (h.not_mem (c := '#') (by decide))

/-! ## Quotes -/

theorem quotedBody_some {text body : List Char} (h : quotedBody text = some body) :
    ∃ q rest, (q = '"' ∨ q = '\'') ∧ q ∉ body ∧ text = q :: (body ++ q :: rest) := by
  cases text with
  | nil => simp [quotedBody] at h
  | cons q cs =>
    rw [quotedBody] at h
    split at h
    · rename_i hq
      obtain ⟨rfl⟩ := Option.some.inj h
      obtain ⟨rest, hrest⟩ : ∃ rest, cs.dropWhile (· != q) = q :: rest := by
        cases hd : cs.dropWhile (· != q) with
        | nil => simpa using List.dropWhile_eq_nil_iff.1 hd q hq.2
        | cons d ds =>
          have := List.head?_dropWhile_not (· != q) cs
          simp only [hd, List.head?_cons, bne_eq_false_iff_eq] at this
          exact ⟨ds, by rw [this]⟩
      refine ⟨q, rest, hq.1, fun hm => ?_, ?_⟩
      · simpa using List.mem_takeWhile_imp hm
      · rw [← hrest, List.takeWhile_append_dropWhile]
    · cases h

theorem quotedBody_of_quote {q : Char} {body rest : List Char} (hq : q = '"' ∨ q = '\'')
    (hbody : q ∉ body) : quotedBody (q :: (body ++ q :: rest)) = some body := by
  have hpos : ∀ c ∈ body, (c != q) = true := by
    intro c hc
    simpa using fun he : c = q => hbody (he ▸ hc)
  rw [quotedBody, if_pos ⟨hq, by simp⟩, List.takeWhile_append_of_pos hpos]
  simp

theorem quotedBody_of_ne {c : Char} {cs : List Char} (hc : c ≠ '"' ∧ c ≠ '\'') :
    quotedBody (c :: cs) = none := by
  rw [quotedBody, if_neg fun h => h.1.elim hc.1 hc.2]

/-! ## Trailing comments -/

theorem beforeComment_append {value rest : List Char}
    (hlast : ∀ c, value.getLast? = some c → isBlank c = false)
    (hspace : ¬ [' ', '#'] <:+: value)
    (htab : [' ', '#'] <:+: rest ∨ ¬ ['\t', '#'] <:+: value) :
    beforeComment (value ++ rest) = value ++ beforeComment rest := by
  have hne : ∀ b, isBlank b = true → value.getLast? ≠ some b := by
    intro b hb h
    rw [hlast b h] at hb; cases hb
  unfold beforeComment
  rw [splitBefore_append hspace (hne ' ' rfl)]
  cases hsp : splitBefore [' ', '#'] rest with
  | some cut => rfl
  | none =>
    have hval := htab.resolve_left (splitBefore_eq_none_iff.1 hsp)
    rw [splitBefore_append hval (hne '\t' rfl)]
    cases splitBefore ['\t', '#'] rest <;> rfl

theorem beforeComment_prefix_self (text : List Char) : beforeComment text <+: text := by
  unfold beforeComment
  split
  · rename_i before rest h
    rw [Option.orElse_eq_orElse, Option.orElse_eq_or, Option.or_eq_some_iff] at h
    rcases h with h | ⟨-, h⟩ <;> exact ⟨rest, (splitBefore_sound h).1.symm⟩
  · exact List.prefix_rfl

theorem not_space_mark_beforeComment (text : List Char) :
    ¬ [' ', '#'] <:+: beforeComment text := by
  cases hsp : splitBefore [' ', '#'] text with
  | some cut =>
    have hcut : beforeComment text = cut.1 := by unfold beforeComment; rw [hsp]; rfl
    rw [hcut]
    exact splitBefore_first (by simp) hsp
  | none =>
    exact fun h => splitBefore_eq_none_iff.1 hsp (h.trans (beforeComment_prefix_self text).isInfix)

theorem not_tab_mark_beforeComment {text : List Char} (hsp : ¬ [' ', '#'] <:+: text) :
    ¬ ['\t', '#'] <:+: beforeComment text := by
  rw [← splitBefore_eq_none_iff] at hsp
  unfold beforeComment
  rw [hsp]
  cases htab : splitBefore ['\t', '#'] text with
  | some cut => exact splitBefore_first (by simp) htab
  | none => exact splitBefore_eq_none_iff.1 htab

theorem beforeComment_blanks {cs : List Char} (h : cs.all isBlank = true) :
    (beforeComment cs).all isBlank = true :=
  List.all_eq_true.2 fun c hc =>
    List.all_eq_true.1 h c ((beforeComment_prefix_self cs).subset hc)

/-- A text that goes no further than a mark leaves at least the end of that mark out. -/
theorem prefix_of_mark {b m : Char} {pre xs rest : List Char}
    (h : pre <+: xs ++ b :: m :: rest) (hnot : ¬ [b, m] <:+: pre) : pre <+: xs ++ [b] := by
  have hwhole : xs ++ [b] ++ [m] <+: xs ++ b :: m :: rest := ⟨rest, by simp⟩
  rcases List.prefix_or_prefix_of_prefix h hwhole with hpre | hpre
  · rcases List.prefix_concat_iff.1 hpre with rfl | hpre
    · exact absurd ⟨xs, [], by simp⟩ hnot
    · exact hpre
  · obtain ⟨more, rfl⟩ := hpre
    exact absurd ⟨xs, more, by simp⟩ hnot

/-- Of blanks with a comment behind them, only blanks are kept. -/
theorem beforeComment_blanks_mark {blanks : List Char} (h : blanks.all isBlank = true)
    (comment : List Char) :
    (beforeComment (blanks ++ ' ' :: '#' :: comment)).all isBlank = true := by
  have hblanks : (blanks ++ [' ']).all isBlank = true := by
    rw [List.all_append, h]
    rfl
  have hwithin : beforeComment (blanks ++ ' ' :: '#' :: comment) <+: blanks ++ [' '] :=
    prefix_of_mark (beforeComment_prefix_self _) (not_space_mark_beforeComment _)
  exact List.all_eq_true.2 fun c hc => List.all_eq_true.1 hblanks c (hwithin.subset hc)

/-- Behind an unquoted scalar stand blanks and a comment. They are the same for any scalar that
fits in its place. -/
theorem trimEnd_beforeComment_exchange {text value : List Char}
    (h : trimEnd (beforeComment text) = value) :
    ∃ after, text = value ++ after ∧
      ∀ new, Fits value new → trimEnd (beforeComment (new ++ after)) = new := by
  obtain ⟨blanks, hblanks, hall⟩ := trimEnd_append_blanks (beforeComment text)
  rw [h] at hblanks
  obtain ⟨tail, htail⟩ := beforeComment_prefix_self text
  have htext : text = value ++ (blanks ++ tail) := by rw [← htail, hblanks, List.append_assoc]
  have hvalue : value <:+: beforeComment text := ⟨[], blanks, by simp [hblanks]⟩
  have hspace : ¬ [' ', '#'] <:+: value := fun hm =>
    not_space_mark_beforeComment text (hm.trans hvalue)
  have hlast : ∀ c, value.getLast? = some c → isBlank c = false := fun c hc =>
    not_isBlank_getLast_trimEnd (h ▸ hc)
  have htab : [' ', '#'] <:+: blanks ++ tail ∨ ¬ ['\t', '#'] <:+: value := by
    by_cases hrest : [' ', '#'] <:+: blanks ++ tail
    · exact .inl hrest
    · have hnone : ¬ [' ', '#'] <:+: text := by
        rw [htext, ← splitBefore_eq_none_iff, splitBefore_append hspace ?_,
          splitBefore_eq_none_iff.2 hrest]
        · rfl
        · intro hsp; exact absurd (hlast ' ' hsp) (by decide)
      exact .inr fun hm => not_tab_mark_beforeComment hnone (hm.trans hvalue)
  have hafter : beforeComment (blanks ++ tail) = blanks := by
    have happ := beforeComment_append hlast hspace htab
    rw [← htext, hblanks] at happ
    exact (List.append_cancel_left happ).symm
  refine ⟨blanks ++ tail, htext, fun new hnew => ?_⟩
  have hnewspace : ¬ [' ', '#'] <:+: new := fun hm => hspace (hnew.comment ' ' rfl hm)
  rw [beforeComment_append hnew.last hnewspace
    (htab.imp id fun hv hm => hv (hnew.comment '\t' rfl hm)), hafter]
  exact trimEnd_append_of_isBlank hall hnew.last

/-! ## Scalars -/

/-- Blanks before a scalar only move it. -/
theorem scalar?_append {start : Nat} {blanks text : List Char} (hb : blanks.all isBlank = true)
    (ht : ∀ c, text.head? = some c → isBlank c = false) :
    scalar? start (blanks ++ text) = scalar? (start + width blanks) text := by
  have htake : text.takeWhile isBlank = [] := by
    cases text with
    | nil => rfl
    | cons c cs => simp [ht c rfl]
  have hself : trimStart text = text := @trimStart_append_of_isBlank [] text rfl ht
  unfold scalar?
  rw [trimStart_append_of_isBlank hb ht, hself,
    List.takeWhile_append_of_pos (by simpa using hb), htake, List.append_nil]
  rfl

theorem scalar?_quoted {start : Nat} {q : Char} {body rest : List Char}
    (hq : q = '"' ∨ q = '\'') (hbody : q ∉ body) :
    scalar? start (q :: (body ++ q :: rest)) = some ⟨start + 1, body⟩ := by
  have hblank : isBlank q = false := by rcases hq with rfl | rfl <;> rfl
  have hmark : q ≠ '#' := by rcases hq with rfl | rfl <;> decide
  unfold scalar?
  simp [trimStart, hblank, hmark, quotedBody_of_quote hq hbody]

theorem scalar?_plain {start : Nat} {value rest : List Char} (hne : value ≠ [])
    (hhead : ∀ c, value.head? = some c → isBlank c = false ∧ c ≠ '#' ∧ c ≠ '"' ∧ c ≠ '\'')
    (htrim : trimEnd (beforeComment (value ++ rest)) = value) :
    scalar? start (value ++ rest) = some ⟨start, value⟩ := by
  obtain ⟨c, cs, rfl⟩ := List.exists_cons_of_ne_nil hne
  obtain ⟨hblank, hmark, hquote⟩ := hhead c rfl
  rw [List.cons_append] at htrim ⊢
  unfold scalar?
  simp [trimStart, hblank, hmark, quotedBody_of_ne hquote, htrim]

/-- A scalar stands between quotes, or it is what comments and blanks leave of the text. -/
theorem scalar?_eq_some {start : Nat} {raw : List Char} {p : Piece}
    (h : scalar? start raw = some p) :
    (∃ q rest, (q = '"' ∨ q = '\'') ∧ q ∉ p.text ∧ trimStart raw = q :: (p.text ++ q :: rest) ∧
      p.start = start + width (raw.takeWhile isBlank) + 1) ∨
    p.text ≠ [] ∧ trimEnd (beforeComment (trimStart raw)) = p.text ∧
      p.start = start + width (raw.takeWhile isBlank) := by
  unfold scalar? at h
  dsimp only at h
  split at h
  · cases h
  · split at h
    · rename_i body hbody
      obtain ⟨rfl⟩ := Option.some.inj h
      obtain ⟨q, rest, hq, hnot, htext⟩ := quotedBody_some hbody
      exact .inl ⟨q, rest, hq, hnot, htext, rfl⟩
    · split at h
      · cases h
      · rename_i value hvalue
        obtain ⟨rfl⟩ := Option.some.inj h
        exact .inr ⟨hvalue, rfl, rfl⟩

/-- **A scalar can be exchanged in place.** The text around it stays, and any text that fits
there is read as the scalar, at the same position. -/
theorem scalar?_exchange {start : Nat} {raw : List Char} {p : Piece}
    (h : scalar? start raw = some p) :
    ∃ before after, raw = before ++ p.text ++ after ∧ p.start = start + width before ∧
      raw.takeWhile isBlank <+: before ∧
      ∀ new, Fits p.text new → scalar? start (before ++ new ++ after) = some ⟨p.start, new⟩ := by
  have hall : (raw.takeWhile isBlank).all isBlank = true := List.all_takeWhile
  have hraw : raw.takeWhile isBlank ++ trimStart raw = raw := List.takeWhile_append_dropWhile
  rcases scalar?_eq_some h with ⟨q, rest, hq, hnot, htext, hstart⟩ | ⟨-, htrim, hstart⟩
  · have hblank : isBlank q = false := by rcases hq with rfl | rfl <;> rfl
    have hsize : q.utf8Size = 1 := by rcases hq with rfl | rfl <;> rfl
    refine ⟨raw.takeWhile isBlank ++ [q], q :: rest, ?_, ?_, List.prefix_append _ _, ?_⟩
    · rw [htext] at hraw
      simpa using hraw.symm
    · simp [hstart, hsize, Nat.add_assoc]
    · intro new hnew
      rw [show raw.takeWhile isBlank ++ [q] ++ new ++ q :: rest =
        raw.takeWhile isBlank ++ (q :: (new ++ q :: rest)) by simp,
        scalar?_append hall (by simp [hblank]),
        scalar?_quoted hq fun hm => hnot (hnew.quote q hq hm), hstart]
  · obtain ⟨after, htext, hnew⟩ := trimEnd_beforeComment_exchange htrim
    refine ⟨raw.takeWhile isBlank, after, ?_, hstart, List.prefix_rfl, fun new hfit => ?_⟩
    · rw [List.append_assoc, ← htext, hraw]
    · rw [List.append_assoc, scalar?_append hall ?_,
        scalar?_plain hfit.ne_nil hfit.head (hnew new hfit), hstart]
      obtain ⟨c, cs, rfl⟩ := List.exists_cons_of_ne_nil hfit.ne_nil
      simpa using (hfit.head c rfl).1

/-- The position a text starts at moves its scalar and nothing else. -/
theorem scalar?_move (start d : Nat) (raw : List Char) :
    scalar? (start + d) raw = (scalar? start raw).map fun p => ⟨p.start + d, p.text⟩ := by
  unfold scalar?
  dsimp only
  have hadd : ∀ n, start + d + n = start + n + d := fun n => by omega
  split
  · rfl
  · split
    · simp only [Option.map_some, hadd, Nat.add_right_comm _ d 1]
    · split <;> simp only [Option.map_some, Option.map_none, hadd]

/-! ## Keys -/

theorem splitColon_exchange {gap : Bool} {cs before after : List Char}
    (h : splitColon gap cs = some (before, after)) :
    cs = before ++ ':' :: after ∧ separates after = true ∧
      ∀ after', separates after' = true →
        splitColon gap (before ++ ':' :: after') = some (before, after') := by
  fun_induction splitColon gap cs generalizing before with
  | case1 => cases h
  | case2 => cases h
  | case3 gap c cs hmark hcolon =>
    obtain ⟨rfl, rfl⟩ := Prod.mk.inj (Option.some.inj h)
    simp only [Bool.and_eq_true, decide_eq_true_eq] at hcolon
    obtain ⟨rfl, hsep⟩ := hcolon
    refine ⟨rfl, hsep, fun after' hafter => ?_⟩
    rw [List.nil_append, splitColon, if_neg (by simp), if_pos (by simp [hafter])]
  | case4 gap c cs hmark hcolon ih =>
    obtain ⟨⟨b, a⟩, hsplit, heq⟩ := Option.map_eq_some_iff.1 h
    obtain ⟨rfl, rfl⟩ := Prod.mk.inj heq
    obtain ⟨rfl, hsep, hexchange⟩ := ih hsplit
    refine ⟨rfl, hsep, fun after' hafter => ?_⟩
    have hcolon' : (c = ':' && separates (b ++ ':' :: after')) = false := by
      cases b with
      | nil => simp [separates]
      | cons d ds => simpa [separates] using hcolon
    rw [List.cons_append, splitColon, if_neg hmark, if_neg (by rw [hcolon']; simp),
      hexchange after' hafter]
    rfl

theorem splitColon_name {name : List Char} (hname : IsName name) (gap : Bool)
    (rest : List Char) :
    splitColon gap (name ++ rest) =
      (splitColon false rest).map fun (key, after) => (name ++ key, after) := by
  obtain ⟨hne, hall⟩ := hname
  induction name generalizing gap with
  | nil => exact absurd rfl hne
  | cons c cs ih =>
    have hc : IsName [c] := ⟨by simp, by simpa using hall c⟩
    have hmark : c ≠ '#' := fun he => hc.not_mem (c := '#') (by decide) (by simp [he])
    have hcolon : c ≠ ':' := fun he => hc.not_mem (c := ':') (by decide) (by simp [he])
    have hspace : c ≠ ' ' := fun he => hc.not_mem (c := ' ') (by decide) (by simp [he])
    have htab : c ≠ '\t' := fun he => hc.not_mem (c := '\t') (by decide) (by simp [he])
    have hgap : (c == ' ' || c == '\t') = false := by simp [hspace, htab]
    rw [List.cons_append, splitColon, if_neg (by simp [hmark]), if_neg (by simp [hcolon]), hgap]
    cases cs with
    | nil => rfl
    | cons d ds =>
      rw [ih false (by simp) fun e he => hall e (List.mem_cons_of_mem _ he), Option.map_map]
      rfl

theorem splitColon_blanks {blanks after : List Char} (hb : blanks.all isBlank = true)
    (hafter : separates after = true) (gap : Bool) :
    splitColon gap (blanks ++ ':' :: after) = some (blanks, after) := by
  induction blanks generalizing gap with
  | nil => rw [List.nil_append, splitColon, if_neg (by simp), if_pos (by simp [hafter])]
  | cons c cs ih =>
    rw [List.all_cons, Bool.and_eq_true] at hb
    have hmark : c ≠ '#' := by rintro rfl; exact absurd hb.1 (by decide)
    have hcolon : c ≠ ':' := by rintro rfl; exact absurd hb.1 (by decide)
    rw [List.cons_append, splitColon, if_neg (by simp [hmark]), if_neg (by simp [hcolon]),
      ih hb.2]
    rfl

theorem quotedKey?_of_quote {start : Nat} {q : Char} {key after : List Char} (hkey : q ∉ key)
    (hafter : separates after = true) :
    quotedKey? start q (key ++ q :: ':' :: after) =
      some ⟨⟨start + 1, key⟩, start + width key + 3, after⟩ := by
  have hpos : ∀ c ∈ key, (c != q) = true := by
    intro c hc
    simpa using fun he : c = q => hkey (he ▸ hc)
  unfold quotedKey?
  dsimp only
  rw [List.takeWhile_append_of_pos hpos]
  simp [hafter]

theorem plainKey?_of_split {start : Nat} {cs key blanks after : List Char} (hkey : key ≠ [])
    (hlast : ∀ c, key.getLast? = some c → isBlank c = false) (hb : blanks.all isBlank = true)
    (hsplit : splitColon false cs = some (key ++ blanks, after)) :
    plainKey? start cs = some ⟨⟨start, key⟩, start + width (key ++ blanks) + 1, after⟩ := by
  obtain ⟨c, ds, rfl⟩ := List.exists_cons_of_ne_nil hkey
  unfold plainKey?
  rw [hsplit, Option.bind_eq_bind, Option.bind_some]
  dsimp only
  rw [trimEnd_append_of_isBlank hb hlast]

/-- The key of a text stands between `before` and `colon`. Another name there is read as the key
in turn, whatever follows the colon. -/
structure KeyCut.Sits (start : Nat) (cs : List Char) (cut : KeyCut) (before colon : List Char) :
    Prop where
  text_eq : cs = before ++ cut.key.text ++ colon ++ cut.after
  start_eq : cut.key.start = start + width before
  valueStart_eq : cut.valueStart = start + width (before ++ cut.key.text ++ colon)
  separates_after : separates cut.after = true
  colon_mem : ':' ∈ colon
  opening : before = [] ∧ cut.key.text ≠ [] ∨ before = ['"'] ∨ before = ['\'']
  exchange : ∀ name after, name = cut.key.text ∨ IsName name → separates after = true →
    key? start (before ++ name ++ colon ++ after) =
      some ⟨⟨cut.key.start, name⟩, start + width (before ++ name ++ colon), after⟩

theorem drop_length_takeWhile (p : Char → Bool) (cs : List Char) :
    cs.drop (cs.takeWhile p).length = cs.dropWhile p := by
  nth_rewrite 2 [← List.takeWhile_append_dropWhile (p := p) (l := cs)]
  rw [List.drop_left]

/-- A key between quotes goes up to the next such quote, and its colon follows at once. -/
theorem quotedKey?_eq_some {start : Nat} {q : Char} {cs : List Char} {cut : KeyCut}
    (h : quotedKey? start q cs = some cut) :
    q ∉ cut.key.text ∧ cs = cut.key.text ++ q :: ':' :: cut.after ∧
      separates cut.after = true ∧ cut.key.start = start + 1 ∧
      cut.valueStart = start + width cut.key.text + 3 := by
  unfold quotedKey? at h
  dsimp only at h
  rw [drop_length_takeWhile] at h
  split at h
  · rename_i d after hdrop
    split at h
    · rename_i hsep
      obtain ⟨rfl⟩ := Option.some.inj h
      obtain rfl : d = q := by
        have hhead := List.head?_dropWhile_not (· != q) cs
        rw [hdrop] at hhead
        simpa using hhead
      refine ⟨fun hm => by simpa using List.mem_takeWhile_imp hm, ?_, hsep, rfl, rfl⟩
      dsimp only
      rw [← hdrop, List.takeWhile_append_dropWhile]
    · cases h
  · cases h

/-- A key without quotes goes up to the colon that ends it, without the blanks before this. -/
theorem plainKey?_eq_some {start : Nat} {cs : List Char} {cut : KeyCut}
    (h : plainKey? start cs = some cut) :
    ∃ blanks, splitColon false cs = some (cut.key.text ++ blanks, cut.after) ∧
      blanks.all isBlank = true ∧ cut.key.text ≠ [] ∧
      (∀ d, cut.key.text.getLast? = some d → isBlank d = false) ∧ cut.key.start = start ∧
      cut.valueStart = start + width (cut.key.text ++ blanks) + 1 := by
  unfold plainKey? at h
  obtain ⟨⟨before, after⟩, hsplit, h⟩ := Option.bind_eq_some_iff.1 h
  obtain ⟨blanks, hbefore, hb⟩ := trimEnd_append_blanks before
  have hlast : ∀ d, (trimEnd before).getLast? = some d → isBlank d = false := fun d hd =>
    not_isBlank_getLast_trimEnd hd
  dsimp only at h
  generalize trimEnd before = key at h hbefore hlast
  split at h
  · cases h
  · rename_i hkey
    obtain ⟨rfl⟩ := Option.some.inj h
    subst hbefore
    exact ⟨blanks, hsplit, hb, hkey, hlast, rfl, rfl⟩

theorem quotedKey?_sits {start : Nat} {q : Char} {cs : List Char} {cut : KeyCut}
    (hq : q = '"' ∨ q = '\'') (h : quotedKey? start q cs = some cut) :
    ∃ before colon, cut.Sits start (q :: cs) before colon := by
  obtain ⟨hnot, hcs, hsep, hstart, hvalue⟩ := quotedKey?_eq_some h
  have hsize : q.utf8Size = 1 := by rcases hq with rfl | rfl <;> rfl
  have hcolon : ∀ name, start + width name + 3 = start + width ([q] ++ name ++ [q, ':']) := by
    intro name
    simp only [width_append, width_cons, width_nil, hsize, show Char.utf8Size ':' = 1 from rfl]
    omega
  refine ⟨[q], [q, ':'], by simpa using hcs, by simp [hstart, hsize], hvalue.trans (hcolon _), hsep,
    by simp, by rcases hq with rfl | rfl <;> simp, fun name after' hname hafter => ?_⟩
  have hnot' : q ∉ name := by
    rcases hname with rfl | hname
    · exact hnot
    · refine hname.not_mem ?_
      rcases hq with rfl | rfl <;> decide
  have happ : [q] ++ name ++ [q, ':'] ++ after' = q :: (name ++ q :: ':' :: after') := by simp
  rw [happ, key?, if_pos hq, quotedKey?_of_quote hnot' hafter, hcolon, hstart]

theorem plainKey?_sits {start : Nat} {c : Char} {cs : List Char} {cut : KeyCut}
    (hc : ¬ (c = '"' ∨ c = '\'')) (h : plainKey? start (c :: cs) = some cut) :
    ∃ before colon, cut.Sits start (c :: cs) before colon := by
  obtain ⟨blanks, hsplit, hb, hkey, hkeylast, hstart, hvalue⟩ := plainKey?_eq_some h
  obtain ⟨hcs, hsep, hexchange⟩ := splitColon_exchange hsplit
  have hcs' : c :: cs = [] ++ cut.key.text ++ (blanks ++ [':']) ++ cut.after := by rw [hcs]; simp
  have hcolon : ∀ name : List Char, start + width (name ++ blanks) + 1 =
      start + width ([] ++ name ++ (blanks ++ [':'])) := by
    intro name
    simp [Nat.add_assoc, show Char.utf8Size ':' = 1 from rfl]
  refine ⟨[], blanks ++ [':'], hcs', hstart, hvalue.trans (hcolon _), hsep, by simp,
    .inl ⟨rfl, hkey⟩, fun name after' hname hafter => ?_⟩
  have hne : name ≠ [] := by
    rcases hname with rfl | hname
    · exact hkey
    · exact hname.1
  have hlast : ∀ d, name.getLast? = some d → isBlank d = false := by
    rcases hname with rfl | hname
    · exact hkeylast
    · exact fun d hd => hname.not_isBlank (List.mem_of_getLast? hd)
  have hsplit' : splitColon false (name ++ (blanks ++ ':' :: after')) =
      some (name ++ blanks, after') := by
    rcases hname with rfl | hname
    · have hkept := hexchange after' hafter
      rwa [List.append_assoc] at hkept
    · rw [splitColon_name hname, splitColon_blanks hb hafter]
      rfl
  obtain ⟨d, ds, rfl⟩ := List.exists_cons_of_ne_nil hne
  have hd : ¬ (d = '"' ∨ d = '\'') := by
    rcases hname with heq | hname
    · rw [← heq] at hcs'
      obtain rfl : c = d := by simpa using congrArg List.head? hcs'
      exact hc
    · rintro (rfl | rfl) <;> exact hname.not_mem (by decide) List.mem_cons_self
  have happ : [] ++ d :: ds ++ (blanks ++ [':']) ++ after' =
      d :: ds ++ (blanks ++ ':' :: after') := by simp
  rw [← hcolon, happ, List.cons_append, key?, if_neg hd, ← List.cons_append,
    plainKey?_of_split hne hlast hb hsplit', hstart]

/-- **A key can be exchanged in place**, and so can what stands after its colon. -/
theorem key?_sits {start : Nat} {cs : List Char} {cut : KeyCut} (h : key? start cs = some cut) :
    ∃ before colon, cut.Sits start cs before colon := by
  cases cs with
  | nil => cases h
  | cons c cs =>
    rw [key?] at h
    split at h
    · exact quotedKey?_sits ‹_› h
    · exact plainKey?_sits ‹_› h

end SchemaTidy.Source
