import SchemaTidy.Policy
import SchemaTidy.Proofs.Dedupe.Outline

/-! # What is discovered by indentation is what is read

The class blocks and references that are found line by line in a text in block style are the
classes of the document that the text is read as, with their slots (`discovered_eq_parsed`). A slot
list that is written as a scalar is the exception: the document has it, and the lines do not. -/

namespace SchemaTidy.Dedupe
open Source Text Yaml
open Yaml.Lexer (LineEnd)

variable {n k i : Nat} {indent : Nat} {xs ys : List (Line × Nat)} {fs : List Field} {l : Line}
  {below ls after : List Line} {cs tail : List Char} {c : Content}

/-! ## Lists of slots -/

theorem scalar?_of_list {items : FlowItems} (hnames : ∀ w ∈ items.words, IsName w.text)
    (htail : LineEnd tail) (start m : Nat) :
    ∃ at', scalar? start (List.replicate m ' ' ++ ((Inline.list items).text ++ tail)) =
      some ⟨at', (Inline.list items).text⟩ := by
  refine ⟨_, scalar?_value (by simp [Inline.text]) ?_ ?_ ?_ htail.blank htail.apart start m⟩
  · rintro c ⟨⟩
    decide
  · intro c hc
    rw [Inline.text, List.getLast?_concat] at hc
    obtain rfl := Option.some.inj hc
    rfl
  · intro hmem
    rw [Inline.text, List.mem_append, List.mem_cons] at hmem
    rcases hmem with (hmem | hmem) | hmem
    · cases hmem
    · rcases mem_flowItems hnames hmem with h | h | h <;> cases h
    · cases List.mem_singleton.1 hmem

/-- The reference that an item is read as. -/
def itemAt (a : Line × Nat) : Option Reference := a.1.value.map (Reference.mk a.2 ·)

/-- The lines of a list of names are all items, and hold the names. -/
theorem listed_of_lays {s : Shape} {b : Block s} (h : Lays n ls after b) (hs : s = .sequence)
    (hnames : b.ListsNames) (hle : indent ≤ n) (k : Nat) :
    (∀ a ∈ structural k ls, continuesList indent a.1 = true) ∧
      ((structural k ls).filterMap itemAt).map (·.item.text) = b.names := by
  induction h generalizing k with
  | @nil s n =>
    cases s with
    | mapping => cases hs
    | sequence => exact ⟨fun a ha => absurd ha List.not_mem_nil, rfl⟩
  | filler hl h ih =>
    rw [structural_cons_of_blank hl]
    exact ih hs hnames hle (k + 1)
  | entry | nested | flush => cases hs
  | @item n l below ls after cs value rest hl hcs h ih =>
    obtain ⟨hindent, hkind⟩ := Line.kind_of_dash hl (head_of_holds hcs)
    have hvalue : l.value = scalar? (n + 1) cs := by rw [Line.value, hkind]
    have hcontinues : continuesList indent l = true := by
      rw [continuesList, hkind]
      simpa [hindent] using hle
    rw [structural_cons_of_pos (isSignificant_of_item hkind)]
    cases hcs with
    | none htail =>
      obtain ⟨hrest, htexts⟩ := ih hs hnames hle (k + 1)
      have hitem : itemAt (l, k) = none := by
        rw [itemAt, hvalue, scalar?_blankText htail.blank]
        rfl
      refine ⟨List.forall_mem_cons.2 ⟨hcontinues, hrest⟩, ?_⟩
      rw [List.filterMap_cons_none hitem]
      exact htexts
    | @inline m v tail _ hv htail =>
      cases v with
      | plain w =>
        obtain ⟨hrest, htexts⟩ := ih hs hnames.2 hle (k + 1)
        obtain ⟨at', hitem⟩ : ∃ at', itemAt (l, k) = some ⟨k, at', w.text⟩ := by
          have hscalar := scalar?_name hnames.1.name htail.blank htail.apart (n + 1) (m + 1)
          exact ⟨_, by rw [itemAt, hvalue, Inline.text, hscalar]; rfl⟩
        refine ⟨List.forall_mem_cons.2 ⟨hcontinues, hrest⟩, ?_⟩
        rw [List.nil_append, List.filterMap_cons_some hitem, List.map_cons, htexts]
        rfl
      | quoted | list | braces => exact hnames.elim
    | text => exact hnames.elim
  | itemBelow | itemBeside => exact hnames.elim

/-- No list goes on where the next field starts. -/
theorem Outline.stops (h : Outline n ys fs) (indent : Nat) :
    (ys.takeWhile fun a => continuesList indent a.1) = [] := by
  cases h with
  | nil => rfl
  | field hkey _ _ _ =>
    have hhas := Line.hasKey_iff.2 ⟨_, (keyAt_eq_some_iff.1 hkey).2, rfl⟩
    exact List.takeWhile_cons_of_neg (by rw [continuesList_of_hasKey hhas]; exact Bool.false_ne_true)

theorem listedItems_of_lays {b : Block .sequence} (h : Lays n ls after b)
    (hnames : b.ListsNames) (hle : indent ≤ n) (hrest : Outline i ys fs) (k : Nat) :
    (listedItems indent (structural k ls ++ ys)).map (·.item.text) = b.names := by
  obtain ⟨hcontinues, htexts⟩ := listed_of_lays h rfl hnames hle k
  rw [listedItems_eq, List.takeWhile_append_of_pos hcontinues, hrest.stops, List.append_nil]
  exact htexts

/-- The references that are read at the header of a list of slots. -/
def referencesAt (indent : Nat) (l : Line) (i : Nat) (rest : List (Line × Nat)) : List Reference :=
  match l.flowItems with
  | some items => items.map (⟨i, ·⟩)
  | none => listedItems indent rest

theorem flowItems_of_value_none (h : l.value = none) : l.flowItems = none := by
  rw [Line.flowItems, h]
  rfl

/-- At the header of a list of slots the names in the list are found. -/
theorem referencesAt_of_under (hunder : Under n l xs c) (hslots : c.IsSlots) (h : Outline n ys fs)
    (i : Nat) : (referencesAt n l i (xs ++ ys)).map (·.item.text) = c.names := by
  have hnothing : listedItems n ys = [] := by rw [listedItems_eq, h.stops]; rfl
  cases hunder with
  | @leaf value cs start k below after hcs hvalue =>
    cases hcs with
    | none htail =>
      rw [scalar?_blankText htail.blank] at hvalue
      rw [referencesAt, flowItems_of_value_none hvalue]
      exact congrArg (List.map (·.item.text)) hnothing
    | @inline m v tail _ hv htail =>
      match v, hslots with
      | .plain w, hname =>
        have hscalar := scalar?_name hname htail.blank htail.apart start (m + 1)
        have hflow : l.flowItems = none := by
          rw [Line.flowItems, hvalue, Inline.text, hscalar,
            Option.bind_eq_bind, Option.bind_some, listBody_of_name hname]
          rfl
        rw [referencesAt, hflow]
        exact congrArg (List.map (·.item.text)) hnothing
      | .list items, hnames =>
        have hnames' : ∀ w ∈ items.words, IsName w.text := fun w hw => (hnames w hw).name
        obtain ⟨at', hscalar⟩ := scalar?_of_list hnames' htail start (m + 1)
        rw [hscalar] at hvalue
        rw [referencesAt, Line.flowItems_of_value hvalue (listBody_flowItems hnames')]
        dsimp only
        rw [List.map_map]
        exact partScalars_flowItems hnames' _
      | .quoted _ _, hslots => exact hslots.elim
      | .braces, hslots => exact hslots.elim
    | text => exact hslots.elim
  | @nested s k inside after inner hvalue hinside =>
    rw [referencesAt, flowItems_of_value_none hvalue]
    cases s with
    | mapping => exact hslots.elim
    | sequence => exact listedItems_of_lays hinside hslots (by omega) h k
  | @flush k inside after inner hvalue hinside =>
    rw [referencesAt, flowItems_of_value_none hvalue]
    exact listedItems_of_lays hinside hslots (Nat.le_refl n) h k

/-! ## References of a class -/

theorem referencesIn_cons (n : Nat) (a : Line × Nat) (rest : List (Line × Nat)) :
    referencesIn n (a :: rest) =
      (if a.1.indent = n ∧ a.1.hasKey slotsName then referencesAt n a.1 a.2 rest else []) ++
        referencesIn n rest := rfl

/-- The references among the fields of a class are the names in its lists of slots. -/
theorem references_of_outline (h : Outline n xs fs)
    (hslots : ∀ f ∈ fs, f.key.text = slotsName → f.content.IsSlots) :
    (referencesIn n xs).map (·.item.text) =
      fs.flatMap fun f => if f.key.text = slotsName then f.content.names else [] := by
  induction h with
  | nil => rfl
  | @field l i xs ys f fs key hkey htext hunder h ih =>
    obtain ⟨hf, hfs⟩ := List.forall_mem_cons.1 hslots
    obtain ⟨hindent, hsome⟩ := keyAt_eq_some_iff.1 hkey
    have hhas : l.hasKey slotsName = true ↔ f.key.text = slotsName := by
      rw [Line.hasKey, hsome]
      simp [htext]
    rw [referencesIn_cons, List.map_append, referencesIn_append hunder.keyAt_eq_none, ih hfs,
      List.flatMap_cons]
    congr 1
    by_cases hname : f.key.text = slotsName
    · rw [if_pos ⟨hindent, hhas.2 hname⟩, if_pos hname]
      exact referencesAt_of_under hunder (hf hname) h i
    · rw [if_neg fun h => hname (hhas.1 h.2), if_neg hname]
      rfl

theorem flatMap_of_nodup {α : Type} {key : Field → List Char} {name : List Char}
    {g : Field → List α} (h : (fs.map key).Nodup) :
    (fs.flatMap fun f => if key f = name then g f else []) =
      ((fs.find? (key · == name)).map g).getD [] := by
  induction fs with
  | nil => rfl
  | cons f fs ih =>
    obtain ⟨hnew, hnodup⟩ := List.nodup_cons.1 h
    rw [List.flatMap_cons, ih hnodup]
    by_cases hf : key f = name
    · have hnone : fs.find? (key · == name) = none :=
        List.find?_eq_none.2 fun g hg heq => hnew (List.mem_map.2 ⟨g, hg, by simpa [hf] using heq⟩)
      rw [hnone, if_pos hf, List.find?_cons_of_pos (by simpa using hf)]
      exact List.append_nil _
    · rw [if_neg hf, List.find?_cons_of_neg (by simpa using hf), List.nil_append]

/-- The references in the body of a class are the slots that it lists. -/
theorem references_of_under (hunder : Under 2 l xs c) (hclass : c.IsClass) :
    (referencesIn 4 (Content.body c xs)).map (·.item.text) = c.slots := by
  cases hunder with
  | leaf hcs =>
    cases hcs with
    | none | inline => rfl
    | text => exact hclass.elim
  | flush => rfl
  | @nested s k inside after inner hvalue hinside =>
    cases s with
    | mapping =>
      have hnames : ∀ f ∈ inner.fields, IsName f.key.text := fun f hf => (hclass.1.named f hf).name
      rw [Content.body, references_of_outline (outline_of_lays hinside rfl hnames k) hclass.2,
        flatMap_of_nodup hclass.1.nodup, Content.slots, Block.content?, Option.map_map]
      rfl
    | sequence =>
      rw [Content.body, referencesIn_eq_nil fun a ha =>
        keyAt_of_list hinside rfl a.1 (mem_structural ha).1]
      rfl

/-! ## Class blocks -/

/-- The name of a class and the names of the slots that it refers to. -/
def ClassBlock.listed (c : ClassBlock) : List Char × List (List Char) :=
  (c.name, c.references.map (·.item.text))

theorem blocks_of_outline (h : Outline 2 xs fs) (hclasses : ∀ f ∈ fs, f.content.IsClass) :
    (blocksIn 2 xs).map (·.listed) = fs.map fun f => (f.key.text, f.content.slots) := by
  induction h with
  | nil => rfl
  | @field l i xs ys f fs key hkey htext hunder h ih =>
    obtain ⟨hf, hfs⟩ := List.forall_mem_cons.1 hclasses
    rw [blocksIn_cons, hkey]
    dsimp only
    rw [List.map_cons, blocksIn_append hunder.keyAt_eq_none, ih hfs, h.bodyOf hunder, List.map_cons,
      ClassBlock.listed, references_of_under hunder hf, htext]

/-- The class blocks in the section of the classes are its classes. -/
theorem blocks_of_under (hunder : Under 0 l xs c) (hsection : c.IsClassSection) :
    (blocksIn 2 (Content.body c xs)).map (·.listed) = c.classes := by
  cases hunder with
  | leaf hcs =>
    cases hcs with
    | none | inline => rfl
    | text => exact hsection.elim
  | flush => rfl
  | @nested s k inside after inner hvalue hinside =>
    cases s with
    | mapping =>
      have hnames : ∀ f ∈ inner.fields, IsName f.key.text := fun f hf => (hsection.1.named f hf).name
      exact blocks_of_outline (outline_of_lays hinside rfl hnames k) hsection.2
    | sequence =>
      have hnone : ∀ a ∈ structural k inside, keyAt 2 a.1 = none := fun a ha =>
        keyAt_of_list hinside rfl a.1 (mem_structural ha).1
      have happend := blocksIn_append hnone []
      rw [List.append_nil] at happend
      rw [Content.body, happend]
      rfl

/-- The class blocks of a text in block style are the classes of its block. -/
theorem classBlocks_of_lays {b : Block .mapping} (h : LaysText ls b) (hschema : b.IsSchema) :
    (classBlocks 2 ls).map (·.listed) = b.classes := by
  have hnames : ∀ f ∈ b.fields, IsName f.key.text := fun f hf => (hschema.1.named f hf).name
  obtain ⟨k, inside, hlays, heq⟩ := sectionOf_of_laysText h classesName
  rw [classBlocks, sectionLines_eq, ← blocksIn_filter, ← sectionOf_filter, Block.classes,
    Block.content?]
  change (blocksIn 2 (sectionOf classesName (structural 0 ls))).map (·.listed) = _
  rw [heq, show "classes".toList = classesName from rfl]
  rcases section_of_outline (outline_of_lays hlays rfl hnames k) classesName with
    ⟨hnone, hsection⟩ | ⟨f, l, ys, hsome, hunder, hsection⟩
  · rw [hsection, hnone]
    rfl
  · have hmem := List.mem_of_find?_eq_some hsome
    have hname : f.key.text = classesName := by simpa using List.find?_some hsome
    rw [hsection, hsome]
    exact blocks_of_under hunder (hschema.2 f hmem hname)

/-! ## The document -/

/-- **Discovery finds what is read.** The class blocks that are found with the standard indentation
in a text in block style are the classes of its document, in their order. Their references are the
slots that the document has them list, where these are written as a list; a single slot that is
written as a scalar is not found.

Block style is what `LaysText` describes: mappings and lists that are nested by two columns, or
lists flush with their key; values that are plain, quoted, a list in brackets or a pair of braces,
on one line; block scalars; blank lines and comments; and three dashes in front. A class, or a list
of slots, is no block scalar. -/
theorem discovered_eq_parsed {text : List Char} {b : Block .mapping} {d : Schema.Document}
    (h : LaysText (lines text) b) (hschema : b.IsSchema)
    (hparse : Schema.Document.parse (String.ofList text) = .ok d) :
    (classBlocks Policy.standard.indentWidth (lines text)).map (·.listed) =
      d.classes.map fun (name, c) =>
        (name.toList, if d.listsSlots name then c.slots.map (·.toList) else []) := by
  obtain ⟨root, hread, hroot⟩ := Schema.Document.parse_eq_ok_iff.1 hparse
  rw [String.toList_ofList] at hread
  have hb : b ≠ .nil := by
    rintro rfl
    cases read_of_nil h hread
  obtain rfl : root = b.entries := by
    have hvalue := (read_of_lays h hb hread).trans hschema.1.value_eq
    exact Value.mapping.inj hvalue
  exact (classBlocks_of_lays h hschema).trans (Schema.classes_of_ofRoot hschema hroot).symm

/-! ## A small schema

Its classes have a slot list beside the key, one below the key, and one that is a scalar. In front of
them stand three dashes, and a block scalar that looks like a list of slots. -/

namespace TicketSchema

def word (name : String) : Words := ⟨name.toList, []⟩

def fieldLine (n : Nat) (key : String) (cs : List Char) : Line :=
  ⟨List.replicate n ' ' ++ ((word key).text ++ ':' :: cs), .lf⟩

def itemLine (n : Nat) (cs : List Char) : Line := ⟨List.replicate n ' ' ++ '-' :: cs, .lf⟩

/-- A value behind a space, with what is left of its line. -/
def beside (v : Inline) (tail : String) : List Char :=
  List.replicate 1 ' ' ++ (v.text ++ tail.toList)

def statuses : FlowItems := .last ⟨0, word "status", 0⟩

def header : Scalar.Header := ⟨false, false, .clip⟩

def remark : Line := ⟨"  slots: [draft]".toList, .lf⟩

def classLines : List Line :=
  fieldLine 2 "Order" [] ::
    ([fieldLine 4 "slots" (beside (.list statuses) " # one"), ⟨[], .lf⟩] ++
  fieldLine 2 "Ticket" [] ::
    ((fieldLine 4 "slots" [] :: ([itemLine 4 (beside (.plain (word "status")) "")] ++ [])) ++
  fieldLine 2 "Note" [] ::
    ([fieldLine 4 "slots" (beside (.plain (word "title")) "")] ++ [])))

def ticketLines : List Line :=
  ⟨"--- # tickets".toList, .lf⟩ :: fieldLine 0 "remark" (' ' :: header.text) ::
    ([remark] ++ fieldLine 0 "classes" [] :: (classLines ++ []))

def classBlock : Block .mapping :=
  .nested (word "Order") (.entry (word "slots") (some (.inline (.list statuses))) .nil)
  (.nested (word "Ticket")
    (.flush (word "slots") (.item (some (.inline (.plain (word "status")))) .nil) .nil)
  (.nested (word "Note") (.entry (word "slots") (some (.inline (.plain (word "title")))) .nil) .nil))

def ticketBlock : Block .mapping :=
  .entry (word "remark") (some (.text false "slots: [draft]\n".toList))
    (.nested (word "classes") classBlock .nil)

theorem isKey_word {name : String} (h : IsName name.toList) (hshort : name.toList.length ≤ 1024) :
    (word name).IsKey := isKey_of_name h hshort

theorem lineEnd_nil : LineEnd [] := ⟨rfl, nofun⟩

theorem holds_word {n : Nat} {name : String} {after : List Line} (h : IsName name.toList) :
    Holds n (beside (.plain (word name)) "") [] after (some (.inline (.plain (word name)))) :=
  .inline 0 (isPlain_of_name h false) lineEnd_nil

theorem classLines_lays : Lays 2 classLines [] classBlock := by
  have hslots : (word "slots").IsKey := isKey_word (by decide) (by decide)
  have hstatuses : (Inline.list statuses).Fits :=
    List.forall_mem_singleton.2 (isPlain_of_name (by decide) true)
  have horder {after : List Line} :
      Lays 4 [fieldLine 4 "slots" (beside (.list statuses) " # one"), ⟨[], .lf⟩] after
        (.entry (word "slots") (some (.inline (.list statuses))) .nil) :=
    @Lays.entry _ _ [] _ _ _ _ _ _ hslots rfl (.inline 0 hstatuses ⟨rfl, by decide⟩) (.filler rfl .nil)
  have hitem {after : List Line} : Lays 4 [itemLine 4 (beside (.plain (word "status")) "")] after
      (.item (some (.inline (.plain (word "status")))) .nil) :=
    @Lays.item _ _ [] _ _ _ _ _ rfl (holds_word (by decide)) .nil
  have hticket {after : List Line} :
      Lays 4 (fieldLine 4 "slots" [] :: ([itemLine 4 (beside (.plain (word "status")) "")] ++ []))
        after (.flush (word "slots") (.item (some (.inline (.plain (word "status")))) .nil) .nil) :=
    .flush hslots rfl lineEnd_nil hitem nofun .nil
  have hnote : Lays 4 [fieldLine 4 "slots" (beside (.plain (word "title")) "")] []
      (.entry (word "slots") (some (.inline (.plain (word "title")))) .nil) :=
    @Lays.entry _ _ [] _ _ _ _ _ _ hslots rfl (holds_word (by decide)) .nil
  exact .nested (isKey_word (by decide) (by decide)) rfl lineEnd_nil horder nofun
    (.nested (isKey_word (by decide) (by decide)) rfl lineEnd_nil hticket nofun
    (.nested (isKey_word (by decide) (by decide)) rfl lineEnd_nil hnote nofun .nil))

theorem ticketLines_lays : LaysText ticketLines ticketBlock := by
  have hheads : header.Heads 0 [remark] (fieldLine 0 "classes" [] :: (classLines ++ [])) := by
    refine ⟨List.forall_mem_singleton.2 (by decide), fun _ => rfl, ?_⟩
    rintro l ⟨⟩
    exact ⟨0, 'c', _, Nat.le_refl 0, rfl, rfl, rfl⟩
  have hremark : Holds 0 (' ' :: header.text) [remark] (fieldLine 0 "classes" [] :: (classLines ++ []))
      (some (.text false "slots: [draft]\n".toList)) := by
    have hbody : Scalar.blockText false .clip 2 [remark] = "slots: [draft]\n".toList := by decide
    rw [← hbody]
    exact .text 0 hheads lineEnd_nil
  have hclasses : Lays 0 (fieldLine 0 "classes" [] :: (classLines ++ [])) []
      (.nested (word "classes") classBlock .nil) :=
    .nested (isKey_word (by decide) (by decide)) rfl lineEnd_nil classLines_lays nofun .nil
  exact @LaysText.marked [] _ _ " # tickets".toList _ nofun rfl ⟨rfl, by decide⟩
    (.entry (isKey_word (by decide) (by decide)) rfl hremark hclasses) nofun

theorem isNamed_word {name : String} (h : IsName name.toList)
    (hvalue : plainValue name.toList = .string name) : (word name).IsNamed := by
  constructor <;> simpa [word, Words.text, Scalar.spelled]

theorem hasNames_of_words {b : Block .mapping} (names : List String)
    (hkeys : b.fields.map (·.key) = names.map word) (hnames : ∀ name ∈ names, (word name).IsNamed)
    (hnodup : names.Nodup) : b.HasNames where
  named f hf := by
    have hmem : f.key ∈ names.map word := hkeys ▸ List.mem_map.2 ⟨f, hf, rfl⟩
    obtain ⟨name, hname, heq⟩ := List.mem_map.1 hmem
    exact heq ▸ hnames name hname
  nodup := by
    have htexts : b.fields.map (·.key.text) = names.map (·.toList) := by
      have htext : Words.text ∘ word = fun name => name.toList := by
        funext name
        simp [word, Words.text, Scalar.spelled]
      have h := congrArg (List.map Words.text) hkeys
      rwa [List.map_map, List.map_map, htext] at h
    rw [htexts]
    exact hnodup.map fun _ _ h => String.toList_inj.1 h

theorem ticketBlock_isSchema : ticketBlock.IsSchema := by
  have hslots : (word "slots").IsNamed := isNamed_word (by decide) (by decide +kernel)
  have hstatus : (word "status").IsNamed := isNamed_word (by decide) (by decide +kernel)
  have htitle : IsName (word "title").text := by decide
  have hclass {b : Block .mapping} {c : Content} (hfields : b.fields = [⟨word "slots", c⟩])
      (hc : c.IsSlots) : b.IsClass := by
    refine ⟨hasNames_of_words ["slots"] (congrArg _ hfields) ?_ (by decide), ?_⟩
    · exact List.forall_mem_singleton.2 hslots
    · rw [hfields]
      exact List.forall_mem_singleton.2 fun _ => hc
  have hclasses : (Content.nested classBlock).IsClassSection := by
    refine ⟨hasNames_of_words ["Order", "Ticket", "Note"] rfl ?_ (by decide), ?_⟩
    · simp only [List.forall_mem_cons]
      exact ⟨isNamed_word (by decide) (by decide +kernel),
        isNamed_word (by decide) (by decide +kernel),
        isNamed_word (by decide) (by decide +kernel), nofun⟩
    · simp only [classBlock, Block.fields, List.forall_mem_cons]
      exact ⟨hclass rfl (List.forall_mem_singleton.2 hstatus), hclass rfl ⟨hstatus, trivial⟩,
        hclass rfl htitle, nofun⟩
  refine ⟨hasNames_of_words ["remark", "classes"] rfl ?_ (by decide), ?_⟩
  · simp only [List.forall_mem_cons]
    exact ⟨isNamed_word (by decide) (by decide +kernel),
      isNamed_word (by decide) (by decide +kernel), nofun⟩
  · simp only [ticketBlock, Block.fields, List.forall_mem_cons]
    exact ⟨fun heq => absurd heq (by decide), fun _ => hclasses, nofun⟩

theorem lines_ticketLines : lines (text ticketLines) = ticketLines := by decide +kernel

end TicketSchema

section
open TicketSchema

theorem discovered_eq_parsed_three_forms :
    ∃ d, LaysText (lines (text ticketLines)) ticketBlock ∧ ticketBlock.IsSchema ∧
      Schema.Document.parse (String.ofList (text ticketLines)) = .ok d ∧
      (classBlocks Policy.standard.indentWidth (lines (text ticketLines))).map (·.listed) =
        d.classes.map fun (name, c) =>
          (name.toList, if d.listsSlots name then c.slots.map (·.toList) else []) := by
  have hlays : LaysText (lines (text ticketLines)) ticketBlock := by
    rw [lines_ticketLines]
    exact ticketLines_lays
  have hok : (Schema.Document.parse (String.ofList (text ticketLines))).isOk = true := by
    decide +kernel
  match hparse : Schema.Document.parse (String.ofList (text ticketLines)) with
  | .error e => rw [hparse] at hok; cases hok
  | .ok d =>
    exact ⟨d, hlays, ticketBlock_isSchema, rfl,
      discovered_eq_parsed hlays ticketBlock_isSchema hparse⟩

/-- The slot of the third class is read, and is not found. -/
theorem scalar_slots_not_discovered :
    ∃ d, LaysText (lines (text ticketLines)) ticketBlock ∧ ticketBlock.IsSchema ∧
      Schema.Document.parse (String.ofList (text ticketLines)) = .ok d ∧
      (classBlocks Policy.standard.indentWidth (lines (text ticketLines))).map (·.listed) ≠
        d.classes.map fun (name, c) => (name.toList, c.slots.map (·.toList)) := by
  have hfound : (classBlocks Policy.standard.indentWidth ticketLines).map (·.listed) =
      [("Order".toList, ["status".toList]), ("Ticket".toList, ["status".toList]),
        ("Note".toList, [])] := by
    decide +kernel
  have hread : (Schema.Document.parse (String.ofList (text ticketLines))).toOption.map
      (fun d => d.classes.map fun (name, c) => (name.toList, c.slots.map (·.toList))) =
        some [("Order".toList, ["status".toList]), ("Ticket".toList, ["status".toList]),
          ("Note".toList, ["title".toList])] := by
    decide +kernel
  match hparse : Schema.Document.parse (String.ofList (text ticketLines)) with
  | .error e => rw [hparse] at hread; cases hread
  | .ok d =>
    rw [hparse] at hread
    rw [lines_ticketLines, hfound]
    refine ⟨d, ticketLines_lays, ticketBlock_isSchema, rfl, fun heq => ?_⟩
    exact absurd (heq.trans (Option.some.inj hread)) (by decide)

end

end SchemaTidy.Dedupe
