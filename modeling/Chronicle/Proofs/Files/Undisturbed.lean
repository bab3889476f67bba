import Chronicle.Proofs.Files.Removing

/-!
# What operations leave undisturbed

Every operation on files changes the tree at no more than two places, or puts directories where nothing was.
For one directory of the tree and some names in it that are watched, that is said once: an operation leaves
them undisturbed if it keeps all directories that paths can lead along and whatever stands under a watched
name. Undisturbed directories are found under the same paths, and so are watched files.
-/

namespace Chronicle.FileSystem

/-- Nothing was done to a tree but that directories were put where nothing was. -/
inductive Grown (fs : FileSystem) : FileSystem → Prop where
  /-- Nothing was done. -/
  | refl : Grown fs fs
  /-- One more directory was put where nothing was. -/
  | step {fs' : FileSystem} {above : Location} {name : String} (h : Grown fs fs')
      (hname : Path.Slashless name) (hfree : fs'.node? (above ++ [.given name]) = none) :
      Grown fs (fs'.put (above ++ [.given name]) .directory)

/-- Directories that are put where nothing was add to those that were put before. -/
theorem Grown.trans {fs fs' fs'' : FileSystem} (h : Grown fs fs') (h' : Grown fs' fs'') : Grown fs fs'' := by
  induction h' with
  | refl => exact h
  | step _ hname hfree ih => exact ih.step hname hfree

/-- Creating a directory. -/
theorem grown_createDirectory {fs fs' : FileSystem} {path : String} (h : fs.createDirectory path = .ok fs') :
    Grown fs fs' := by
  simp only [createDirectory, Except.refuse_eq_ok_iff, Except.bind_eq_ok_iff] at h
  obtain ⟨⟨place, name⟩, hs, -, -, -, hfree, ht⟩ := h
  have hname : Path.Slashless name := by
    rw [← (slot_eq_ok_iff.1 hs).2.2.2]
    exact Path.slashless_entry path
  cases ht
  exact Grown.refl.step hname (by simpa using hfree)

/-- Creating a directory that may be there. -/
theorem grown_haveDirectory {fs fs' : FileSystem} {path : String} (h : fs.haveDirectory path = .ok fs') :
    Grown fs fs' := by
  unfold haveDirectory at h
  split at h
  · split at h
    · cases h
      exact .refl
    · cases h
  · exact grown_createDirectory h

/-- Creating the first directory that can be created. -/
theorem grown_haveInnermost (fs : FileSystem) (passed paths : List String) :
    Grown fs (fs.haveInnermost passed paths).1 := by
  induction paths generalizing passed with
  | nil => exact .refl
  | cons path rest ih =>
    unfold haveInnermost
    cases h : fs.haveDirectory path with
    | ok fs' => exact grown_haveDirectory h
    | error e =>
      cases e with
      | notFound => exact ih (path :: passed)
      | _ => exact .refl

/-- Creating directories one after the other. -/
theorem grown_haveEach (fs : FileSystem) (paths : List String) : Grown fs (fs.haveEach paths).1 := by
  induction paths generalizing fs with
  | nil => exact .refl
  | cons path rest ih =>
    unfold haveEach
    cases h : fs.haveDirectory path with
    | error e => exact .refl
    | ok fs' => exact (grown_haveDirectory h).trans (ih fs')

/-- Creating a directory and those above it. -/
theorem grown_createDirectories (fs : FileSystem) (path : String) :
    Grown fs (fs.createDirectories path).1 := by
  unfold createDirectories
  split
  · exact .refl
  · have hi := grown_haveInnermost fs [] (path :: Path.above path)
    rcases h : fs.haveInnermost [] (path :: Path.above path) with ⟨fs', e | missing⟩
    · rw [h] at hi
      exact hi
    · rw [h] at hi
      exact hi.trans (grown_haveEach fs' missing)

/-- A temporary file that was created stands under a name that was drawn. -/
theorem createTemporary_eq_ok {fs fs' : FileSystem} {directory start ending : String} {entry : Entry}
    (h : fs.createTemporary directory start ending = .ok (entry, fs')) :
    ∃ above, entry = temporaryEntry directory start ending fs.temporaries ∧
      fs' = { fs.put (above ++ [entry.name]) (.file []) with temporaries := fs.temporaries + 1 } := by
  unfold createTemporary at h
  obtain ⟨target, hp, h⟩ := Except.bind_eq_ok_iff.1 h
  obtain ⟨⟨⟩, -, h⟩ := Except.bind_eq_ok_iff.1 h
  obtain ⟨above, rfl⟩ := placeOf_eq_ok hp
  obtain ⟨rfl, rfl⟩ := Prod.mk.inj (Except.ok.inj h)
  exact ⟨above, rfl, rfl⟩

/-- Directories stay, and so does what stands under the watched names of one of them. -/
structure Undisturbed (directory : Location) (watched : Name → Prop) (fs fs' : FileSystem) : Prop where
  /-- Directories that paths can lead along stay. -/
  directories : ∀ place : Location, place.Given → fs.node? place = some .directory →
    fs'.node? place = some .directory
  /-- What stands under a watched name stays, and nothing new appears there. -/
  names : ∀ name, watched name → fs'.node? (directory ++ [name]) = fs.node? (directory ++ [name])

variable {directory : Location} {watched : Name → Prop} {fs fs' fs'' : FileSystem}

namespace Undisturbed

/-- Nothing is disturbed by doing nothing. -/
theorem refl (fs : FileSystem) : Undisturbed directory watched fs fs where
  directories _ _ h := h
  names _ _ := rfl

/-- What is left undisturbed twice is undisturbed. -/
theorem trans (h : Undisturbed directory watched fs fs') (h' : Undisturbed directory watched fs' fs'') :
    Undisturbed directory watched fs fs'' where
  directories place hp hd := h'.directories place hp (h.directories place hp hd)
  names name hw := (h'.names name hw).trans (h.names name hw)

/-- Names lead to the same place. -/
theorem follow (h : Undisturbed directory watched fs fs') {target : Location} {names : List String}
    (hf : fs.follow [] names = .ok target) : fs'.follow [] names = .ok target :=
  follow_of_keeps h.directories (fun _ hn => absurd hn List.not_mem_nil) hf

/-- A directory is found under the same path. -/
theorem find_directory (h : Undisturbed directory watched fs fs') {path : String} {place : Location}
    (hf : fs.find path = .ok (place, .directory)) : fs'.find path = .ok (place, .directory) := by
  obtain ⟨hc, hl, hn⟩ := find_eq_ok_iff.1 hf
  exact find_eq_ok_iff.2 ⟨hc, h.follow hl, h.directories place (given_of_find hf) hn⟩

/-- What stands under a watched name is found under the same path. -/
theorem find_watched (h : Undisturbed directory watched fs fs') {path : String} {name : Name}
    {node : Node} (hw : watched name) (hf : fs.find path = .ok (directory ++ [name], node)) :
    fs'.find path = .ok (directory ++ [name], node) := by
  obtain ⟨hc, hl, hn⟩ := find_eq_ok_iff.1 hf
  exact find_eq_ok_iff.2 ⟨hc, h.follow hl, (h.names name hw).trans hn⟩

/-- Something is put where nothing was, or under a name that no path leads to, and not under a watched
name. -/
theorem put {place : Location} {name : Name}
    (hfree : fs.node? (place ++ [name]) = none ∨ ¬ name.IsGiven)
    (hw : place = directory → ¬ watched name) (node : Node) :
    Undisturbed directory watched fs (fs.put (place ++ [name]) node) where
  directories other hg hd := by
    by_cases he : other = place ++ [name]
    · subst he
      rcases hfree with hfree | hfree
      · rw [hfree] at hd
        cases hd
      · exact absurd (hg name (List.mem_append_right _ List.mem_cons_self)) hfree
    · rw [node?_put_ne he]
      exact hd
  names other ho := by
    by_cases he : directory ++ [other] = place ++ [name]
    · obtain ⟨rfl, hn⟩ := List.append_inj' he rfl
      cases hn
      exact absurd ho (hw rfl)
    · rw [node?_put_ne he]

/-- A file or something under a name that no path leads to is erased, and not under a watched name. -/
theorem erase {place : Location} {name : Name}
    (hfile : fs.node? (place ++ [name]) ≠ some .directory ∨ ¬ name.IsGiven) (hw : ¬ watched name) :
    Undisturbed directory watched fs (fs.erase (place ++ [name])) where
  directories other hg hd := by
    by_cases he : other = place ++ [name]
    · subst he
      rcases hfile with hfile | hfile
      · exact absurd hd hfile
      · exact absurd (hg name (List.mem_append_right _ List.mem_cons_self)) hfile
    · rw [node?_erase_ne he]
      exact hd
  names other ho := by
    by_cases he : directory ++ [other] = place ++ [name]
    · obtain ⟨-, hn⟩ := List.append_inj' he rfl
      cases hn
      exact absurd ho hw
    · rw [node?_erase_ne he]

/-- Removing a file under a name that is not watched. -/
theorem removeFile {entry : Entry} (hw : ¬ watched entry.name) (h : fs.removeFile entry = .ok fs') :
    Undisturbed directory watched fs fs' := by
  obtain ⟨place, bytes, hp, hfile, rfl⟩ := removeFile_eq_ok_iff.1 h
  obtain ⟨above, rfl⟩ := placeOf_eq_ok hp
  exact erase (.inl (by rw [hfile]; nofun)) hw

/-- Discarding a file under a name that is not watched. -/
theorem discardFile {entry : Entry} (hw : ¬ watched entry.name) :
    Undisturbed directory watched fs (fs.discardFile entry) := by
  unfold FileSystem.discardFile
  cases h : fs.removeFile entry with
  | error e => exact refl fs
  | ok fs' => exact removeFile hw h

/-- Putting directories where nothing was, when no name without slashes is watched. -/
theorem of_grown (hw : ∀ name, Path.Slashless name → ¬ watched (.given name)) (h : Grown fs fs') :
    Undisturbed directory watched fs fs' := by
  induction h with
  | refl => exact refl fs
  | step _ hname hfree ih => exact ih.trans (put (.inl hfree) (fun _ => hw _ hname) .directory)

/-- Creating a directory and those above it, when no name without slashes is watched. -/
theorem createDirectories (hw : ∀ name, Path.Slashless name → ¬ watched (.given name)) (path : String) :
    Undisturbed directory watched fs (fs.createDirectories path).1 :=
  of_grown hw (grown_createDirectories fs path)

/-- Creating a temporary file, when no drawn name with its ending is watched. -/
theorem createTemporary {ending : String} (hw : ∀ start serial, ¬ watched (.drawn start ending serial))
    {path start : String} {entry : Entry} (h : fs.createTemporary path start ending = .ok (entry, fs')) :
    Undisturbed directory watched fs fs' ∧ ∃ start serial, entry.name = .drawn start ending serial := by
  obtain ⟨above, rfl, rfl⟩ := createTemporary_eq_ok h
  have hput : Undisturbed directory watched fs
      (fs.put (above ++ [(temporaryEntry path start ending fs.temporaries).name]) (.file [])) :=
    put (.inr id) (fun _ => hw ((Path.parts start).getLast?.getD "") fs.temporaries) (.file [])
  exact ⟨⟨hput.directories, hput.names⟩, _, _, rfl⟩

end Undisturbed

/-- Discarding a file draws no name. -/
theorem temporaries_discardFile (fs : FileSystem) (entry : Entry) :
    (fs.discardFile entry).temporaries = fs.temporaries := by
  unfold FileSystem.discardFile
  cases h : fs.removeFile entry with
  | error e => rfl
  | ok fs' =>
    obtain ⟨place, bytes, -, -, rfl⟩ := removeFile_eq_ok_iff.1 h
    rfl

/-- A file that was moved to a free name stands there, and its old name is gone. -/
theorem moveToFree_eq_ok {source : Entry} {destination : String} {bytes : List UInt8}
    (h : fs.moveToFree source destination bytes = .ok fs') :
    ∃ old place name, fs.slot destination = .ok (place, name) ∧ Path.isRelative name = false ∧
      Path.checkName name = .ok () ∧ fs.node? (place ++ [.given name]) = none ∧
      fs' = (fs.erase (old ++ [source.name])).put (place ++ [.given name]) (.file bytes) := by
  simp only [moveToFree, placeOf, Except.refuse_eq_ok_iff, Except.bind_eq_ok_iff] at h
  obtain ⟨-, ⟨⟩, -, target, ⟨⟨old, last⟩, -, ht⟩, ⟨place, name⟩, hs, hrel, -, ⟨⟩, hc, hfree, -, hr⟩ := h
  cases ht
  cases hr
  exact ⟨old, place, name, hs, by simpa using hrel, hc, by simpa using hfree, rfl⟩

/-- A file that is there is moved to a free name that something can have. -/
theorem moveToFree_ok {source : Entry} {destination : String} {bytes : List UInt8} {old place : Location}
    {name : String} (hcheck : Path.check destination = .ok ()) (hold : fs.placeOf source = .ok old)
    (hthere : (fs.node? old).isSome = true) (hslot : fs.slot destination = .ok (place, name))
    (hrel : Path.isRelative name = false) (hname : Path.checkName name = .ok ())
    (hfree : fs.node? (place ++ [.given name]) = none) (hends : Path.endsInSlash destination = false) :
    fs.moveToFree source destination bytes =
      .ok ((fs.erase old).put (place ++ [.given name]) (.file bytes)) := by
  have hzero : ¬ destination.toList.contains '\x00' = true := by
    intro hz
    unfold Path.check at hcheck
    rw [if_pos hz] at hcheck
    nomatch hcheck
  simp only [moveToFree, Except.refuse_eq_ok_iff, Except.bind_eq_ok_iff]
  refine ⟨hzero, (), hcheck, old, hold, (place, name), hslot, ?_, ?_, (), hname, ?_, ?_, rfl⟩
  · rw [hrel]
    exact Bool.false_ne_true
  · rw [← Option.not_isSome, hthere]
    exact Bool.false_ne_true
  · rw [hfree]
    exact Bool.false_ne_true
  · rw [hends]
    exact Bool.false_ne_true

/-- Moving a temporary file to a free name that is not watched. -/
theorem Undisturbed.moveToFree {source : Entry} {destination : String} {bytes : List UInt8}
    (hsource : ¬ source.name.IsGiven) (hw : ¬ watched source.name)
    (hd : ∀ place name, fs.slot destination = .ok (place, name) → place = directory →
      ¬ watched (.given name))
    (h : fs.moveToFree source destination bytes = .ok fs') : Undisturbed directory watched fs fs' := by
  obtain ⟨old, place, name, hs, -, -, hfree, rfl⟩ := moveToFree_eq_ok h
  have hne : place ++ [.given name] ≠ old ++ [source.name] := by
    intro he
    obtain ⟨-, hn⟩ := List.append_inj' he rfl
    rw [← List.singleton_inj.1 hn] at hsource
    exact hsource trivial
  refine (erase (.inr hsource) hw).trans (put (.inl ?_) (hd place name hs) (.file bytes))
  rw [node?_erase_ne hne]
  exact hfree

end Chronicle.FileSystem
