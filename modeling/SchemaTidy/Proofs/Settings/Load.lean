import SchemaTidy.Settings.Load
import SchemaTidy.Proofs.Folder
import SchemaTidy.Proofs.Settings.Policy
import SchemaTidy.Proofs.Settings.Written

/-! # Saving and loading

Main statement: `loadFrom_save`. A policy that is saved is loaded again as it was: no default and
no other file shows through, as long as no variable names a setting. -/

namespace SchemaTidy.Settings
open Toml (Value Table)

variable {files : Files} {environment : Environment} {path text : String}

/-- The layers below one that is asked for can all be read. -/
structure Readable (files : Files) (environment : Environment) : Prop where
  working : ∀ path ∈ workingFiles, ∃ t, optionalLayer files path = .ok t
  user : ∃ t, userLayer files environment = .ok t

theorem readLayer_eq_ok (h : (Toml.read text).isSome) : ∃ t, readLayer path text = .ok t := by
  obtain ⟨t, ht⟩ := Option.isSome_iff_exists.1 h
  exact ⟨t, by rw [readLayer, ht]⟩

/-- Layers can be read when all files are documents. -/
theorem readable_of_documents
    (h : ∀ path text, files path = some text → (Toml.read text).isSome) :
    Readable files environment := by
  refine ⟨fun path _ => ?_, ?_⟩
  · rw [optionalLayer]
    split
    next text hfind =>
      refine readLayer_eq_ok ?_
      rw [find] at hfind
      split at hfind
      next hfile => split at hfind <;> cases hfind; exact h _ _ hfile
      next hfile => cases hfind; exact h _ _ hfile
      next => cases hfind
    next => exact ⟨[], rfl⟩
  · rw [userLayer]
    split
    next path _ =>
      cases hfile : files path with
      | none => exact ⟨[], rfl⟩
      | some text => exact readLayer_eq_ok (h _ _ hfile)
    next => exact ⟨[], rfl⟩

theorem mapM_eq_ok {α β ε : Type} {f : α → Except ε β} {xs : List α}
    (h : ∀ x ∈ xs, ∃ y, f x = .ok y) : ∃ ys, xs.mapM f = .ok ys := by
  induction xs with
  | nil => exact ⟨[], rfl⟩
  | cons x xs ih =>
    obtain ⟨y, hy⟩ := h x List.mem_cons_self
    obtain ⟨ys, hys⟩ := ih fun x hx => h x (List.mem_cons_of_mem _ hx)
    exact ⟨y :: ys, by rw [List.mapM_cons, hy, hys]; rfl⟩

theorem requiredLayer_eq_ok {t : Table} (hpath : hasEnding path = true)
    (hfile : files path = some text) (hread : Toml.read text = some t) : requiredLayer files path = .ok t := by
  have hfind : find files path = .ok text := by
    rw [find, hfile]
    exact if_pos hpath
  rw [requiredLayer, hfind]
  change readLayer path text = .ok t
  rw [readLayer, hread]

/-- A file that is asked for comes over all other files. -/
theorem layers_eq_ok {t : Table} (hreadable : Readable files environment)
    (hpath : hasEnding path = true) (hfile : files path = some text)
    (hread : Toml.read text = some t) :
    ∃ lower, layers files environment (some path) = .ok (lower ++ [t] ++ [environment.layer]) := by
  obtain ⟨working, hworking⟩ := mapM_eq_ok hreadable.working
  obtain ⟨user, huser⟩ := hreadable.user
  refine ⟨working ++ [user], ?_⟩
  rw [layers, hworking, huser, Option.toList_some, List.mapM_cons,
    requiredLayer_eq_ok hpath hfile hread]
  rfl

theorem layer_eq_nil (h : ∀ v ∈ environment, variableKey? v.1 = none) : environment.layer = [] :=
  List.filterMap_eq_nil_iff.2 fun v hv => by simp only [h v hv, Option.map_none]

/-- A saved policy is loaded whatever the files say that count less. -/
theorem load_text_ofPolicy {p : Policy} (hwritable : Writable p)
    (hreadable : Readable files environment) (hpath : hasEnding path = true)
    (hfile : files path = some (Toml.text (ofPolicy p)))
    (hvariables : ∀ v ∈ environment, variableKey? v.1 = none) :
    load files environment (some path) = .ok p := by
  obtain ⟨lower, hlayers⟩ :=
    layers_eq_ok hreadable hpath hfile (read_text_ofPolicy hwritable)
  have hplain : ∀ e ∈ settings p, pathOf e.1 = [e.1] := by
    simp only [settings, List.forall_mem_cons]
    exact ⟨by decide, by decide, by decide, List.forall_mem_nil _⟩
  have hholds : Holds (ofLayers (lower ++ [settings p] ++ [[]])) (.table (ofPolicy p)) := by
    rw [ofLayers_concat, ofLayers_concat, layered_eq_overlay _ _ hplain]
    exact (holds_overlay _ _ (solid_settings p)).trans _ (holds_settings p)
  rw [load, hlayers, layer_eq_nil hvariables]
  simp only [bind, Except.bind, policy?_of_holds hholds]

/-! ## Surroundings -/

variable {σ : Type} {host : Host (StateM σ)}

theorem run_mapM_read (hkeeps : host.Keeps) (s : σ) (paths : List String) :
    (paths.mapM fun place => do return (place, (← host.read place).toOption)).run s =
      (paths.map fun place => (place, host.fileAt s place), s) := by
  induction paths with
  | nil => rfl
  | cons place paths ih =>
    have hread : (host.read place).run s = (((host.read place).run s).1, s) :=
      Prod.ext rfl (hkeeps.unchanged place s)
    rw [List.mapM_cons, StateT.run_bind, StateT.run_bind, hread]
    simp only [StateT.run_pure, StateT.run_bind]
    exact congrArg (fun x => ((place, host.fileAt s place) :: x.1, x.2)) ih

theorem lookup_map (f : String → Option String) (paths : List String) (place : String) :
    ((paths.map fun place => (place, f place)).lookup place).join =
      if place ∈ paths then f place else none := by
  induction paths with
  | nil => rfl
  | cons first paths ih =>
    by_cases h : place = first
    · simp [h]
    · have hbeq : (place == first) = false := beq_eq_false_iff_ne.2 h
      rw [List.map_cons, List.lookup_cons, hbeq, ih]
      simp [h]

/-- What is loaded depends on the files at the places that count. -/
theorem run_loadFrom (hkeeps : host.Keeps) (s : σ) (path : Option String) :
    (loadFrom host environment path).run s =
      (load (fun place => if place ∈ places environment path then host.fileAt s place else none)
        environment path, s) := by
  have hread := run_mapM_read hkeeps s (places environment path)
  have hfiles := funext (lookup_map (host.fileAt s) (places environment path))
  rw [loadFrom, StateT.run_bind, hread, ← hfiles]
  rfl

/-! ## What a saved file changes for the layers below it -/

/-- One file came to hold a text, which may be reached by more than one path. -/
def Changed (saved : String) (files files' : Files) (places : List String) : Prop :=
  ∀ place ∈ places, files' place = some saved ∨ files' place = files place

/-- Where the files stand that count less than one that is asked for. -/
def lowerPlaces (environment : Environment) : List String :=
  workingFiles ++ workingFiles.map withEnding ++ (userFile? environment).toList

theorem mem_places_of_lower {place : String} (h : place ∈ lowerPlaces environment)
    (path : Option String) : place ∈ places environment path := by
  simp only [lowerPlaces, places, List.mem_append, List.map_append] at h ⊢
  rcases h with (h | h) | h
  · exact .inl (.inl (.inl h))
  · exact .inl (.inr (.inl h))
  · exact .inr h

variable {files' : Files} {saved : String}

theorem find_changed (h : Changed saved files files' [path, withEnding path])
    (hfind : find files' path = .ok text) : text = saved ∨ find files path = .ok text := by
  have hpath := h path (by simp)
  have hending := h (withEnding path) (by simp)
  rw [find] at hfind ⊢
  split at hfind
  next text' _ hfile =>
    split at hfind <;> cases hfind
    rcases hpath with hsaved | hsame
    · exact .inl (Option.some.inj (hfile.symm.trans hsaved))
    · rw [← hsame, hfile]
      exact .inr (if_pos ‹_›)
  next text' hnone hfile =>
    cases hfind
    rcases hpath with hsaved | hsame
    · rw [hnone] at hsaved
      cases hsaved
    rcases hending with hsaved | hbefore
    · exact .inl (Option.some.inj (hfile.symm.trans hsaved))
    · rw [← hsame, hnone, ← hbefore, hfile]
      exact .inr rfl
  next => cases hfind

theorem optionalLayer_changed (h : Changed saved files files' [path, withEnding path])
    (hsaved : (Toml.read saved).isSome) (hlayer : ∃ t, optionalLayer files path = .ok t) :
    ∃ t, optionalLayer files' path = .ok t := by
  rw [optionalLayer]
  split
  next text hfind =>
    rcases find_changed h hfind with rfl | hbefore
    · exact readLayer_eq_ok hsaved
    · rwa [optionalLayer, hbefore] at hlayer
  next => exact ⟨[], rfl⟩

theorem readable_changed (h : Changed saved files files' (lowerPlaces environment))
    (hsaved : (Toml.read saved).isSome) (hreadable : Readable files environment) :
    Readable files' environment := by
  refine ⟨fun path hpath => ?_, ?_⟩
  · refine optionalLayer_changed (fun place hplace => h place ?_) hsaved
      (hreadable.working path hpath)
    simp only [List.mem_cons, List.not_mem_nil, or_false] at hplace
    rcases hplace with rfl | rfl
    · exact List.mem_append_left _ (List.mem_append_left _ hpath)
    · exact List.mem_append_left _ (List.mem_append_right _ (List.mem_map_of_mem hpath))
  · have huser := hreadable.user
    rw [userLayer] at huser ⊢
    split
    next path hpath =>
      rcases h path (List.mem_append_right _ (Option.mem_toList.2 hpath)) with hnew | hsame
      · rw [hnew]
        exact readLayer_eq_ok hsaved
      · rw [hpath] at huser
        rwa [hsame]
    next => exact ⟨[], rfl⟩

/-- **What is saved is loaded.** When a policy has been saved, the file that it was saved to gives
the same policy again, whatever the layers below it hold. -/
theorem loadFrom_save {p : Policy} {s s' : σ} (hkeeps : host.Keeps) (hwritable : Writable p)
    (hpath : hasEnding path = true)
    (hwrite : (host.write path (Toml.text (ofPolicy p))).run s = (.ok (), s'))
    (hreadable : Readable (host.fileAt s) environment)
    (hvariables : ∀ v ∈ environment, variableKey? v.1 = none) :
    (save host p path).run s = (.ok (), s') ∧
      (loadFrom host environment (some path)).run s' = (.ok p, s') := by
  have hread := read_text_ofPolicy hwritable
  constructor
  · rw [save, write?_ofPolicy hwritable]
    exact congrArg (fun x => (x.1.mapError SaveFault.file, x.2)) hwrite
  have hchanged : Changed (Toml.text (ofPolicy p)) (host.fileAt s)
      (fun place => if place ∈ places environment (some path) then host.fileAt s' place else none)
      (lowerPlaces environment) := fun place hplace => by
    dsimp only
    rw [if_pos (mem_places_of_lower hplace _)]
    exact hkeeps.others hwrite place
  have hplace : path ∈ places environment (some path) := by simp [places]
  rw [run_loadFrom hkeeps]
  refine congrArg (·, s') (load_text_ofPolicy hwritable
    (readable_changed hchanged (by rw [hread]; rfl) hreadable) hpath ?_ hvariables)
  rw [if_pos hplace, hkeeps.written hwrite]

/-- An empty list and empty strings are loaded over those of other files. -/
theorem loadFrom_save_empty :
    let policy : Policy := ⟨⟨[], "", false⟩, ⟨Nat.pow 2 63 - 1, ⟨⟨"", "it's\n", "\"\\"⟩, 0⟩, []⟩, 0⟩
    let environment := [("HOME", "home")]
    let s : Session := ⟨⟨[
      (["schema-doctor.toml"], "[validation]\nbuiltin_types = [\"a\"]\nenum_suffix = \"Kind\"\n"),
      (["home", ".config", "schema-doctor", "schema-doctor.toml"], "repair = \"all\"\n")]⟩, "", ""⟩
    let s' : Session := { s with
      folder := s.folder.put ["saved.toml"] (Toml.text (ofPolicy policy)) }
    Writable policy ∧ Readable (Session.host.fileAt s) environment ∧
      (save Session.host policy "saved.toml").run s = (.ok (), s') ∧
      (loadFrom Session.host environment (some "saved.toml")).run s' = (.ok policy, s') := by
  intro policy environment s s'
  have hwritable : Writable policy := by decide
  have hresolve : s.folder.resolve "saved.toml" = .ok ["saved.toml"] := by
    rw [Folder.resolve, if_neg (by simp)]
    rfl
  have hwrite : s.folder.write "saved.toml" (Toml.text (ofPolicy policy)) = .ok s'.folder := by
    rw [Folder.write, hresolve]
    rfl
  have hreadable : Readable (Session.host.fileAt s) environment := by
    refine readable_of_documents fun path text htext => ?_
    obtain ⟨q, hq⟩ := Folder.mem_files_of_read htext
    simp only [s, List.mem_cons, List.not_mem_nil, or_false, Prod.mk.injEq] at hq
    rcases hq with ⟨-, rfl⟩ | ⟨-, rfl⟩ <;> decide +kernel
  exact ⟨hwritable, hreadable, loadFrom_save Session.keeps_host hwritable (by decide)
    (Session.run_write hwrite) hreadable (by decide)⟩

end SchemaTidy.Settings
