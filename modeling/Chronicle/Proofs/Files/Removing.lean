import Chronicle.Proofs.Files.Trees

/-!
# Removing files

When a file is removed, everything else stays where it is. So whatever was removed, what is found in the
tree that is left was found before, and every directory is still there. A file in a directory is removed
by the entry that the directory lists for it, unless its path is refused for its text.
-/

namespace Chronicle.FileSystem

variable {fs fs' fs'' : FileSystem}

/-- A file is removed from its place. -/
theorem removeFile_eq_ok_iff {entry : Entry} : fs.removeFile entry = .ok fs' ↔
    ∃ place bytes, fs.placeOf entry = .ok place ∧ fs.node? place = some (.file bytes) ∧
      fs' = fs.erase place := by
  unfold removeFile
  rw [Except.bind_eq_ok_iff]
  constructor
  · rintro ⟨place, hp, h⟩
    cases hn : fs.node? place with
    | none =>
      rw [hn] at h
      nomatch h
    | some node =>
      rw [hn] at h
      cases node with
      | directory => nomatch h
      | file bytes => exact ⟨place, bytes, hp, hn, (Except.ok.inj h).symm⟩
  · rintro ⟨place, bytes, hp, hn, rfl⟩
    refine ⟨place, hp, ?_⟩
    rw [hn]
    rfl

/-- An entry stands under its name in a directory. -/
theorem placeOf_eq_ok {entry : Entry} {place : Location} (h : fs.placeOf entry = .ok place) :
    ∃ above, place = above ++ [entry.name] := by
  obtain ⟨⟨above, last⟩, -, hp⟩ := Except.bind_eq_ok_iff.1 h
  exact ⟨above, (Except.ok.inj hp).symm⟩

/-- Nothing was done to a tree but that files were removed. -/
structure Thinned (fs fs' : FileSystem) : Prop where
  /-- What is there was there. -/
  nodes : ∀ {place node}, fs'.node? place = some node → fs.node? place = some node
  /-- No directory is gone. -/
  directories : ∀ {place}, fs.node? place = some .directory → fs'.node? place = some .directory

namespace Thinned

/-- Nothing is removed by doing nothing. -/
theorem refl (fs : FileSystem) : Thinned fs fs where
  nodes h := h
  directories h := h

/-- Files are removed after others were. -/
theorem trans (h : Thinned fs fs') (h' : Thinned fs' fs'') : Thinned fs fs'' where
  nodes hn := h.nodes (h'.nodes hn)
  directories hd := h'.directories (h.directories hd)

/-- Removing a file removes nothing else. -/
theorem removeFile {entry : Entry} (h : fs.removeFile entry = .ok fs') : Thinned fs fs' := by
  obtain ⟨place, bytes, hp, hfile, rfl⟩ := removeFile_eq_ok_iff.1 h
  obtain ⟨above, rfl⟩ := placeOf_eq_ok hp
  refine ⟨?_, ?_⟩
  · intro other node hn
    by_cases he : other = above ++ [entry.name]
    · rw [he, node?_erase_self] at hn
      nomatch hn
    · rwa [node?_erase_ne he] at hn
  · intro other hd
    have hne : other ≠ above ++ [entry.name] := by
      rintro rfl
      rw [hfile] at hd
      nomatch hd
    rwa [node?_erase_ne hne]

/-- Something is there as it was, or it is gone. -/
theorem node?_eq_or_eq_none (h : Thinned fs fs') (place : Location) :
    fs'.node? place = fs.node? place ∨ fs'.node? place = none := by
  cases hn : fs'.node? place with
  | none => exact .inr rfl
  | some node => exact .inl (h.nodes hn).symm

/-- What is found was found before. -/
theorem find (h : Thinned fs fs') {path : String} {place : Location} {node : Node}
    (hf : fs'.find path = .ok (place, node)) : fs.find path = .ok (place, node) := by
  obtain ⟨hc, hl, hn⟩ := find_eq_ok_iff.1 hf
  have hfollow : fs.follow [] (Path.names path) = .ok place :=
    follow_of_keeps (fun _ _ hd => h.nodes hd) (fun _ hm => absurd hm List.not_mem_nil) hl
  exact find_eq_ok_iff.2 ⟨hc, hfollow, h.nodes hn⟩

/-- A directory is found as it was. -/
theorem find_directory (h : Thinned fs fs') {path : String} {place : Location}
    (hf : fs.find path = .ok (place, .directory)) : fs'.find path = .ok (place, .directory) := by
  obtain ⟨hc, hl, hn⟩ := find_eq_ok_iff.1 hf
  have hfollow : fs'.follow [] (Path.names path) = .ok place :=
    follow_of_keeps (fun _ _ hd => h.directories hd) (fun _ hm => absurd hm List.not_mem_nil) hl
  exact find_eq_ok_iff.2 ⟨hc, hfollow, h.directories hn⟩

end Thinned

/-- A file in a directory is removed by its entry there, or its path is refused for its text. -/
theorem removeFile_within {directory : String} {place : Location} {name : Name} {bytes : List UInt8}
    (h : fs.find directory = .ok (place, .directory)) (hn : Path.Slashless name.text)
    (hne : name.text ≠ "") (hfile : fs.node? (place ++ [name]) = some (.file bytes)) :
    fs.removeFile (.within directory name) = .ok (fs.erase (place ++ [name])) ∨
      ∃ e, fs.removeFile (.within directory name) = .error e ∧ e ≠ .notFound := by
  cases hc : Path.check (Path.join directory name.text) with
  | ok u =>
    have hplace : fs.placeOf (.within directory name) = .ok (place ++ [name]) :=
      Except.bind_eq_ok_iff.2 ⟨_, slot_join h hn hne hc, rfl⟩
    exact .inl (removeFile_eq_ok_iff.2 ⟨_, bytes, hplace, hfile, rfl⟩)
  | error e =>
    have hjoined : Path.join directory name.text ≠ "" := by
      obtain ⟨above, hparts, -⟩ := Path.parts_join (ne_empty_of_check (find_eq_ok_iff.1 h).1) hn
      intro hempty
      rw [hempty] at hparts
      have hlast : ([] : List String) ++ [""] = above ++ [name.text] := hparts
      exact hne (List.singleton_inj.1 (List.append_inj_right' hlast rfl)).symm
    refine .inr ⟨e, ?_, (check_error hjoined hc).1⟩
    unfold FileSystem.removeFile placeOf slot Entry.within
    rw [hc]
    rfl

end Chronicle.FileSystem
