import Chronicle.Proofs.Files.Removing
import Mathlib.Data.List.Basic

/-!
# Trees without the files of somebody else

Some names in a directory belong to somebody, and files under them are that one's files. Whether an operation
on the tree takes notice of them is told by leaving them out: an operation that does the same to the tree
without them, and answers the same, neither saw them nor did anything to them. Paths lead along directories, so
they lead where they led, and what bears other names is where it was.
-/

namespace Chronicle.FileSystem

section Owned

variable (fs : FileSystem) (place : Location) (owned : String → Bool)

/-- Whether a file stands at a place, under an owned name of a directory. -/
def holdsOwned (target : Location) : Bool :=
  match nameIn place target, fs.node? target with
  | some name, some (.file _) => owned name.text
  | _, _ => false

/-- The tree without the files under the owned names of a directory. -/
def without : FileSystem :=
  { fs with nodes := fs.nodes.filter fun entry => !fs.holdsOwned place owned entry.1 }

variable {fs place owned}

/-- A name in a directory makes a place there. -/
theorem nameIn_eq_some_iff {target : Location} {name : Name} :
    nameIn place target = some name ↔ target = place ++ [name] := by
  unfold nameIn
  constructor
  · intro h
    split at h
    · rename_i last hlast
      split at h
      · rename_i hplace
        cases h
        obtain ⟨before, rfl⟩ := List.getLast?_eq_some_iff.1 hlast
        rw [List.dropLast_concat] at hplace
        rw [hplace]
      · nomatch h
    · nomatch h
  · rintro rfl
    rw [List.getLast?_concat, List.dropLast_concat]
    exact if_pos rfl

/-- An owned file has an owned name in the directory. -/
theorem holdsOwned_iff {target : Location} : fs.holdsOwned place owned target = true ↔
    ∃ name bytes, target = place ++ [name] ∧ owned name.text = true ∧
      fs.node? target = some (.file bytes) := by
  unfold holdsOwned
  constructor
  · intro h
    split at h
    · rename_i name bytes hname hnode
      exact ⟨name, bytes, nameIn_eq_some_iff.1 hname, h, hnode⟩
    · nomatch h
  · rintro ⟨name, bytes, htarget, howned, hnode⟩
    rw [nameIn_eq_some_iff.2 htarget, hnode]
    exact howned

/-- What stands under a name that is not owned is no owned file. -/
theorem holdsOwned_of_unowned {name : Name} (h : owned name.text = false) (above : Location) :
    fs.holdsOwned place owned (above ++ [name]) = false := by
  rw [Bool.eq_false_iff]
  intro hheld
  obtain ⟨other, bytes, htarget, howned, -⟩ := holdsOwned_iff.1 hheld
  obtain rfl : name = other := List.singleton_inj.1 (List.append_inj_right' htarget rfl)
  rw [h] at howned
  nomatch howned

/-- Everything but the owned files stands where it stood. -/
theorem node?_without (target : Location) : (fs.without place owned).node? target =
    if fs.holdsOwned place owned target then none else fs.node? target := by
  have hlookup := lookup_filter_key (fun key => !fs.holdsOwned place owned key) target fs.nodes
  cases target with
  | nil =>
    have hroot : fs.holdsOwned place owned [] = false := rfl
    rw [hroot]
    rfl
  | cons first rest =>
    unfold node? without
    rw [if_neg (by simp), hlookup]
    cases fs.holdsOwned place owned (first :: rest) <;> rfl

/-- What is not owned stands where it stood. -/
theorem node?_without_of_unowned {name : Name} (h : owned name.text = false) (above : Location) :
    (fs.without place owned).node? (above ++ [name]) = fs.node? (above ++ [name]) := by
  rw [node?_without, holdsOwned_of_unowned h]
  rfl

/-- Directories stand where they stood, and there are no others. -/
theorem node?_without_directory {target : Location} :
    (fs.without place owned).node? target = some .directory ↔ fs.node? target = some .directory := by
  rw [node?_without]
  cases hheld : fs.holdsOwned place owned target with
  | false => exact Iff.rfl
  | true =>
    obtain ⟨name, bytes, -, -, hnode⟩ := holdsOwned_iff.1 hheld
    rw [hnode]
    exact ⟨nofun, nofun⟩

/-- Names lead where they led. -/
theorem follow_without {names : List String} {target : Location} :
    (fs.without place owned).follow [] names = .ok target ↔ fs.follow [] names = .ok target :=
  ⟨follow_of_keeps (fun _ _ hd => node?_without_directory.1 hd) (fun _ hn => absurd hn List.not_mem_nil),
    follow_of_keeps (fun _ _ hd => node?_without_directory.2 hd) (fun _ hn => absurd hn List.not_mem_nil)⟩

/-- Directories are found where they were found. -/
theorem find_directory_without {path : String} {target : Location} :
    (fs.without place owned).find path = .ok (target, .directory) ↔
      fs.find path = .ok (target, .directory) := by
  rw [find_eq_ok_iff, find_eq_ok_iff, follow_without, node?_without_directory]

/-- What is found behind the path of the directory is found there without the owned files, if its name is not
owned. -/
theorem find_join_without {directory name : String} (h : fs.find directory = .ok (place, .directory))
    (hn : Path.Slashless name) (hne : name ≠ "") (hrel : Path.isRelative name = false)
    (howned : owned name = false) :
    (fs.without place owned).find (Path.join directory name) = fs.find (Path.join directory name) := by
  have hnode : (fs.without place owned).node? (place ++ [.given name]) = fs.node? (place ++ [.given name]) :=
    node?_without_of_unowned howned place
  rw [find_join_eq (find_directory_without.2 h) hn hne hrel, find_join_eq h hn hne hrel, hnode]

/-- A path that leads into a directory, unless it is refused for its text, leads there or is refused likewise. -/
theorem slot_without {path : String}
    (h : Path.check path = .ok () → ∃ target, fs.slot path = .ok target) :
    (fs.without place owned).slot path = fs.slot path := by
  cases hcheck : Path.check path with
  | error e =>
    unfold slot
    rw [hcheck]
    rfl
  | ok u =>
    obtain ⟨⟨target, name⟩, hslot⟩ := h hcheck
    obtain ⟨hc, hfollow, hdirectory, hname⟩ := slot_eq_ok_iff.1 hslot
    rw [hslot]
    exact slot_eq_ok_iff.2 ⟨hc, follow_without.2 hfollow, node?_without_directory.2 hdirectory, hname⟩

/-- Whether an owned file stands at a place depends on what stands there. -/
theorem holdsOwned_congr {fs' : FileSystem} {target : Location} (h : fs'.node? target = fs.node? target) :
    fs'.holdsOwned place owned target = fs.holdsOwned place owned target := by
  unfold holdsOwned
  rw [h]

/-- Entries at other places are left out likewise. -/
theorem filter_holdsOwned {fs' : FileSystem} {target : Location}
    (h : ∀ other, other ≠ target → fs'.node? other = fs.node? other) :
    (fs.nodes.filter (·.1 ≠ target)).filter (fun entry => !fs'.holdsOwned place owned entry.1) =
      (fs.nodes.filter fun entry => !fs.holdsOwned place owned entry.1).filter (·.1 ≠ target) := by
  rw [List.filter_filter, List.filter_filter]
  refine List.filter_congr fun entry _ => ?_
  by_cases he : entry.1 = target
  · rw [decide_eq_false (fun hne => hne he), Bool.and_false, Bool.false_and]
  · rw [holdsOwned_congr (h entry.1 he), Bool.and_comm]

/-- What is put under a name that is not owned is put there without the owned files, too. -/
theorem without_put {name : Name} (h : owned name.text = false) (above : Location) (node : Node) :
    (fs.put (above ++ [name]) node).without place owned =
      (fs.without place owned).put (above ++ [name]) node := by
  have hput : (fs.put (above ++ [name]) node).holdsOwned place owned (above ++ [name]) = false :=
    holdsOwned_of_unowned h above
  have hothers : ∀ other, other ≠ above ++ [name] →
      (fs.put (above ++ [name]) node).node? other = fs.node? other :=
    fun _ hne => node?_put_ne hne node
  refine congrArg (FileSystem.mk · fs.temporaries) ?_
  exact (List.filter_cons_of_pos (by rw [hput]; rfl)).trans
    (congrArg ((above ++ [name], node) :: ·) (filter_holdsOwned hothers))

/-- What is erased is erased without the owned files, too. -/
theorem without_erase {target : Location} :
    (fs.erase target).without place owned = (fs.without place owned).erase target := by
  have hothers : ∀ other, other ≠ target → (fs.erase target).node? other = fs.node? other :=
    fun _ hne => node?_erase_ne hne
  exact congrArg (FileSystem.mk · fs.temporaries) (filter_holdsOwned hothers)

/-- The names in a directory are those that were there but for the owned files. -/
theorem list_without (owned : String → Bool) {path : String}
    (h : fs.find path = .ok (place, .directory)) :
    ∃ names, fs.list path = .ok names ∧
      (fs.without place owned).list path =
        .ok (names.filter fun name => !fs.holdsOwned place owned (place ++ [name])) := by
  refine ⟨(fs.nodes.filterMap fun entry => nameIn place entry.1).eraseDups, ?_, ?_⟩
  · unfold list
    rw [h]
    rfl
  · have hnames : ((fs.without place owned).nodes.filterMap fun entry => nameIn place entry.1) =
        (fs.nodes.filterMap fun entry => nameIn place entry.1).filter
          fun name => !fs.holdsOwned place owned (place ++ [name]) := by
      unfold without
      dsimp only
      rw [List.filterMap_filter, List.filter_filterMap]
      refine List.filterMap_congr fun entry _ => ?_
      cases hname : nameIn place entry.1 with
      | none => exact ite_self none
      | some name =>
        rw [nameIn_eq_some_iff.1 hname]
        rfl
    unfold list
    rw [find_directory_without.2 h, filter_eraseDups, ← hnames]
    rfl

/-- An entry whose path leads into a directory stands where it stood. -/
theorem placeOf_without {entry : Entry} (h : (fs.without place owned).slot entry.path = fs.slot entry.path) :
    (fs.without place owned).placeOf entry = fs.placeOf entry := by
  unfold placeOf
  rw [h]

/-- Removing a file that is not owned does the same without the owned files. -/
theorem removeFile_without {entry : Entry}
    (hslot : (fs.without place owned).slot entry.path = fs.slot entry.path)
    (hname : owned entry.name.text = false) :
    (fs.without place owned).removeFile entry = (fs.removeFile entry).map (·.without place owned) := by
  unfold removeFile
  rw [placeOf_without hslot]
  cases hp : fs.placeOf entry with
  | error e => rfl
  | ok target =>
    obtain ⟨above, rfl⟩ := placeOf_eq_ok hp
    dsimp only [Bind.bind, Except.bind]
    rw [node?_without_of_unowned hname]
    cases fs.node? (above ++ [entry.name]) with
    | none => rfl
    | some node =>
      cases node with
      | directory => rfl
      | file bytes => exact congrArg Except.ok without_erase.symm

/-- Discarding a file that is not owned does the same without the owned files. -/
theorem discardFile_without {entry : Entry}
    (hslot : (fs.without place owned).slot entry.path = fs.slot entry.path)
    (hname : owned entry.name.text = false) :
    (fs.without place owned).discardFile entry = (fs.discardFile entry).without place owned := by
  unfold discardFile
  rw [removeFile_without hslot hname]
  cases fs.removeFile entry <;> rfl

/-- Creating a temporary file whose name is not owned does the same without the owned files. -/
theorem createTemporary_without {directory start ending : String}
    (hslot : ∀ serial, (fs.without place owned).slot (temporaryEntry directory start ending serial).path =
      fs.slot (temporaryEntry directory start ending serial).path)
    (hname : ∀ serial, owned (temporaryEntry directory start ending serial).name.text = false) :
    (fs.without place owned).createTemporary directory start ending =
      (fs.createTemporary directory start ending).map fun created =>
        (created.1, created.2.without place owned) := by
  have hplace := placeOf_without (hslot fs.temporaries)
  unfold createTemporary
  change ((fs.without place owned).placeOf (temporaryEntry directory start ending fs.temporaries) >>= _) = _
  rw [hplace]
  refine Except.bind_eq_map fun target hp => Except.bind_eq_map fun _ _ => ?_
  obtain ⟨above, rfl⟩ := placeOf_eq_ok hp
  rw [← without_put (hname _)]
  rfl

/-- Moving a file that is not owned to a name that is not does the same without the owned files. -/
theorem moveToFree_without {source : Entry} {destination : String} {bytes : List UInt8}
    (hsource : (fs.without place owned).slot source.path = fs.slot source.path)
    (hdestination : (fs.without place owned).slot destination = fs.slot destination)
    (hold : owned source.name.text = false)
    (hnew : ∀ target name, fs.slot destination = .ok (target, name) → owned name = false) :
    (fs.without place owned).moveToFree source destination bytes =
      (fs.moveToFree source destination bytes).map (·.without place owned) := by
  simp only [moveToFree, placeOf_without hsource, hdestination]
  refine Except.refuse_eq_map fun _ => Except.bind_eq_map fun _ _ => Except.bind_eq_map fun old hp =>
    Except.bind_eq_map fun slot hs => ?_
  obtain ⟨above, rfl⟩ := placeOf_eq_ok hp
  obtain ⟨target, name⟩ := slot
  have howned : owned (Name.given name).text = false := hnew target name hs
  dsimp only
  rw [node?_without_of_unowned hold, node?_without_of_unowned howned, ← without_erase,
    ← without_put howned]
  exact Except.refuse_eq_map fun _ => Except.refuse_eq_map fun _ => Except.bind_eq_map fun _ _ =>
    Except.refuse_eq_map fun _ => Except.refuse_eq_map fun _ => rfl

end Owned

end Chronicle.FileSystem
