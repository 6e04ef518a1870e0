import SchemaTidy.Folder

/-! # What a write changes in a folder

Main statements: `read_write` and `keeps_host`. A file that was written reads as it was written by
every path that leads to it, and every other path reads as before. -/

namespace SchemaTidy

namespace Folder

variable {f : Folder}

/-! ## Folders on the way -/

theorem isFolder_iff {path : Path} :
    f.isFolder path = true ↔
      path = [] ∨ ∃ e ∈ f.files, path.length < e.1.length ∧ path <+: e.1 := by
  simp [isFolder]

/-- What leads to a folder leads through folders. -/
theorem isFolder_of_prefix {path start : Path} (h : f.isFolder path = true)
    (hstart : start <+: path) : f.isFolder start = true := by
  rw [isFolder_iff] at h ⊢
  rcases h with rfl | ⟨e, he, hlength, hpath⟩
  · exact .inl (List.prefix_nil.1 hstart)
  · exact .inr ⟨e, he, Nat.lt_of_le_of_lt hstart.length_le hlength, hstart.trans hpath⟩

/-- The way to a path leads through folders. -/
def Reached (f : Folder) (path : Path) : Prop :=
  ∀ start, start <+: path → start ≠ path → f.isFolder start = true

theorem reached_follow {start path : Path} {names : List String} (hstart : f.Reached start)
    (h : f.follow start names = .ok path) : f.Reached path := by
  induction names generalizing start with
  | nil =>
    cases h
    exact hstart
  | cons name rest ih =>
    rw [follow] at h
    split at h
    · cases h
    next hfolder =>
      split at h
      · exact ih hstart h
      split at h
      · refine ih (fun other hother hne => ?_) h
        rcases List.prefix_concat_iff.1 hother with heq | hprefix
        · exact absurd heq hne
        · exact isFolder_of_prefix (by simpa using hfolder) hprefix
      · split at h
        · cases h
        · refine ih (fun other hother hne => ?_) h
          have hprefix := hother.trans (List.dropLast_prefix start)
          exact isFolder_of_prefix (by simpa using hfolder) hprefix

theorem reached_resolve {path : String} {q : Path} (h : f.resolve path = .ok q) : f.Reached q := by
  rw [resolve] at h
  split at h
  · cases h
  · exact reached_follow (fun start hstart hne => absurd (List.prefix_nil.1 hstart) hne) h

/-! ## After a write -/

variable {q : Path} {text : String}

theorem isFolder_put (hq : f.Reached q) (path : Path) :
    (f.put q text).isFolder path = f.isFolder path := by
  rw [Bool.eq_iff_iff, isFolder_iff, isFolder_iff]
  simp only [put, List.mem_append, List.mem_filter, bne_iff_ne, List.mem_singleton]
  constructor
  · rintro (rfl | ⟨e, ⟨he, -⟩ | rfl, hlength, hpath⟩)
    · exact .inl rfl
    · exact .inr ⟨e, he, hlength, hpath⟩
    · exact isFolder_iff.1 (hq path hpath fun heq => Nat.lt_irrefl _ (heq ▸ hlength))
  · rintro (rfl | ⟨e, he, hlength, hpath⟩)
    · exact .inl rfl
    · by_cases hne : e.1 = q
      · exact .inr ⟨(q, text), .inr rfl, hne ▸ hlength, hne ▸ hpath⟩
      · exact .inr ⟨e, .inl ⟨he, hne⟩, hlength, hpath⟩

/-- Paths lead where they led before; only the reasons why one leads nowhere may change. -/
theorem follow_put (hq : f.Reached q) (start : Path) (names : List String) :
    ((f.put q text).follow start names).toOption = (f.follow start names).toOption := by
  induction names generalizing start with
  | nil => rfl
  | cons name rest ih =>
    rw [follow, follow, isFolder_put hq]
    split
    · rfl
    split
    · exact ih start
    split
    · exact ih _
    split
    · rfl
    · exact ih _

theorem resolve_put (hq : f.Reached q) (path : String) :
    ((f.put q text).resolve path).toOption = (f.resolve path).toOption := by
  rw [resolve, resolve]
  split
  · rfl
  · exact follow_put hq [] _

theorem toOption_read (f : Folder) (path : String) :
    (f.read path).toOption = (f.resolve path).toOption.bind f.file? := by
  rw [read]
  cases f.resolve path with
  | error => rfl
  | ok q =>
    cases hfile : f.file? q <;> simp only [bind, Except.bind, hfile] <;> exact hfile.symm

/-- What is read is in a file of the folder. -/
theorem mem_files_of_read {path text : String} (h : (f.read path).toOption = some text) :
    ∃ q, (q, text) ∈ f.files := by
  rw [toOption_read] at h
  obtain ⟨q, -, hq⟩ := Option.bind_eq_some_iff.1 h
  obtain ⟨e, he, rfl⟩ := Option.map_eq_some_iff.1 hq
  exact ⟨e.1, List.mem_of_find?_eq_some he⟩

/-- **A write changes one file.** -/
theorem read_write {path : String} {f' : Folder} (h : f.write path text = .ok f') :
    (f'.read path).toOption = some text ∧
      ∀ other, (f'.read other).toOption = some text ∨
        (f'.read other).toOption = (f.read other).toOption := by
  obtain ⟨q, hresolve, rfl⟩ : ∃ q, f.resolve path = .ok q ∧ f' = f.put q text := by
    cases hresolve : f.resolve path with
    | error => rw [write, hresolve] at h; cases h
    | ok q =>
      rw [write, hresolve] at h
      cases hfolder : f.isFolder q <;> simp only [bind, Except.bind, hfolder] at h <;> cases h
      exact ⟨q, rfl, rfl⟩
  have hq := reached_resolve hresolve
  have hread (other : String) : ((f.put q text).read other).toOption =
      (f.resolve other).toOption.bind (f.put q text).file? := by
    rw [toOption_read, resolve_put hq]
  refine ⟨?_, fun other => ?_⟩
  · rw [hread, hresolve]
    exact f.file?_put_self q text
  · rw [hread, toOption_read]
    cases f.resolve other with
    | error => exact .inr rfl
    | ok r =>
      by_cases hr : r = q
      · exact .inl (hr ▸ f.file?_put_self q text)
      · exact .inr (f.file?_put_of_ne text hr)

end Folder

namespace Host

variable {σ : Type}

/-- What is in the file at a path, if it can be read. -/
def fileAt (host : Host (StateM σ)) (s : σ) (path : String) : Option String :=
  ((host.read path).run s).1.toOption

/-- Surroundings whose files change only when they are written. Two paths may lead to one file. -/
structure Keeps (host : Host (StateM σ)) : Prop where
  unchanged (path : String) (s : σ) : ((host.read path).run s).2 = s
  written {path text : String} {s s' : σ} :
    (host.write path text).run s = (.ok (), s') → host.fileAt s' path = some text
  others {path text : String} {s s' : σ} :
    (host.write path text).run s = (.ok (), s') →
      ∀ other, host.fileAt s' other = some text ∨ host.fileAt s' other = host.fileAt s other

end Host

namespace Session

theorem run_write {path text : String} {s : Session} {f : Folder}
    (h : s.folder.write path text = .ok f) :
    (Session.host.write path text).run s = (.ok (), { s with folder := f }) := by
  rw [host, StateT.run_bind, StateT.run_get]
  simp only [pure_bind, h]
  rfl

theorem write_of_run {path text : String} {s s' : Session}
    (h : (Session.host.write path text).run s = (.ok (), s')) :
    s.folder.write path text = .ok s'.folder := by
  cases hwrite : s.folder.write path text with
  | ok f =>
    rw [run_write hwrite] at h
    cases h
    rfl
  | error fault =>
    rw [host, StateT.run_bind, StateT.run_get] at h
    simp only [pure_bind, hwrite] at h
    cases h

theorem keeps_host : Session.host.Keeps where
  unchanged _ _ := rfl
  written h := (Folder.read_write (write_of_run h)).1
  others h := (Folder.read_write (write_of_run h)).2

end Session

end SchemaTidy
