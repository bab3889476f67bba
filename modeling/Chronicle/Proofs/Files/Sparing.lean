import Chronicle.Access.Place
import Chronicle.Proofs.Files.Hiding
import Chronicle.Proofs.Files.Undisturbed

/-!
# Overlooking the files of somebody else

An operation spares somebody's files if they stand where they stood, with the bytes they had. It overlooks
them if moreover it does the same where they are not there: then it has not seen them either. Operations
that overlook files can be done one after the other, and what the second does may depend on what the first
has answered.
-/

namespace Chronicle

namespace FileSystem

/-- Directories that paths can lead along stay, and so do the files under owned names, in every directory. -/
structure Spared (owned : String → Bool) (fs fs' : FileSystem) : Prop where
  /-- Directories that paths can lead along stay. -/
  directories : ∀ place : Location, place.Given → fs.node? place = some .directory →
    fs'.node? place = some .directory
  /-- Files under owned names stay as they are. -/
  files : ∀ above name bytes, owned name.text = true → fs.node? (above ++ [name]) = some (.file bytes) →
    fs'.node? (above ++ [name]) = some (.file bytes)

namespace Spared

variable {owned : String → Bool} {fs fs' fs'' : FileSystem}

/-- Files are spared by doing nothing. -/
theorem refl (fs : FileSystem) : Spared owned fs fs where
  directories _ _ h := h
  files _ _ _ _ h := h

/-- What is spared twice is spared. -/
theorem trans (h : Spared owned fs fs') (h' : Spared owned fs' fs'') : Spared owned fs fs'' where
  directories place hp hd := h'.directories place hp (h.directories place hp hd)
  files above name bytes ho hf := h'.files above name bytes ho (h.files above name bytes ho hf)

/-- A directory is found under the same path. -/
theorem find_directory (h : Spared owned fs fs') {path : String} {place : Location}
    (hf : fs.find path = .ok (place, .directory)) : fs'.find path = .ok (place, .directory) := by
  obtain ⟨hc, hl, hn⟩ := find_eq_ok_iff.1 hf
  have hfollow : fs'.follow [] (Path.names path) = .ok place :=
    follow_of_keeps h.directories (fun _ hm => absurd hm List.not_mem_nil) hl
  exact find_eq_ok_iff.2 ⟨hc, hfollow, h.directories place (given_of_find hf) hn⟩

/-- Nothing that was there changes but what stands under one name, which is not owned. -/
theorem of_unowned {above : Location} {name : Name} (hname : owned name.text = false)
    (hplace : fs.node? (above ++ [name]) ≠ some .directory ∨ ¬ name.IsGiven)
    (hothers : ∀ place, place ≠ above ++ [name] → fs'.node? place = fs.node? place) : Spared owned fs fs' where
  directories place hg hd := by
    have hne : place ≠ above ++ [name] := by
      rintro rfl
      rcases hplace with hplace | hplace
      · exact hplace hd
      · exact hplace (hg name (List.mem_append_right _ List.mem_cons_self))
    rw [hothers place hne]
    exact hd
  files above' name' bytes ho hf := by
    have hne : above' ++ [name'] ≠ above ++ [name] := by
      intro he
      rw [List.singleton_inj.1 (List.append_inj_right' he rfl), hname] at ho
      nomatch ho
    rw [hothers _ hne]
    exact hf

/-- Something is put where nothing was. -/
theorem put_free {place : Location} (hfree : fs.node? place = none) (node : Node) :
    Spared owned fs (fs.put place node) where
  directories other _ hd := by
    have hne : other ≠ place := by
      rintro rfl
      rw [hfree] at hd
      nomatch hd
    rw [node?_put_ne hne]
    exact hd
  files above name bytes _ hf := by
    have hne : above ++ [name] ≠ place := by
      rintro rfl
      rw [hfree] at hf
      nomatch hf
    rw [node?_put_ne hne]
    exact hf

/-- Putting directories where nothing was. -/
theorem of_grown (h : Grown fs fs') : Spared owned fs fs' := by
  induction h with
  | refl => exact refl fs
  | step _ _ hfree ih => exact ih.trans (put_free hfree .directory)

/-- Removing a file that is not owned. -/
theorem removeFile {entry : Entry} (hname : owned entry.name.text = false)
    (h : fs.removeFile entry = .ok fs') : Spared owned fs fs' := by
  obtain ⟨place, bytes, hp, hfile, rfl⟩ := removeFile_eq_ok_iff.1 h
  obtain ⟨above, rfl⟩ := placeOf_eq_ok hp
  exact of_unowned hname (.inl (by rw [hfile]; nofun)) fun _ hne => node?_erase_ne hne

/-- Discarding a file that is not owned. -/
theorem discardFile {entry : Entry} (hname : owned entry.name.text = false) :
    Spared owned fs (fs.discardFile entry) := by
  unfold FileSystem.discardFile
  cases h : fs.removeFile entry with
  | error e => exact refl fs
  | ok fs' => exact removeFile hname h

/-- Creating a temporary file that is not owned. -/
theorem createTemporary {directory start ending : String} {entry : Entry}
    (hname : ∀ serial, owned (temporaryEntry directory start ending serial).name.text = false)
    (h : fs.createTemporary directory start ending = .ok (entry, fs')) : Spared owned fs fs' := by
  obtain ⟨above, rfl, rfl⟩ := createTemporary_eq_ok h
  exact of_unowned (hname fs.temporaries) (.inr id) fun _ hne => node?_put_ne hne (.file [])

/-- Moving a temporary file that is not owned to a free name. -/
theorem moveToFree {source : Entry} {destination : String} {bytes : List UInt8}
    (hsource : ¬ source.name.IsGiven) (hname : owned source.name.text = false)
    (h : fs.moveToFree source destination bytes = .ok fs') : Spared owned fs fs' := by
  obtain ⟨old, place, name, -, -, -, hfree, rfl⟩ := moveToFree_eq_ok h
  have hne : place ++ [.given name] ≠ old ++ [source.name] := by
    intro he
    rw [← List.singleton_inj.1 (List.append_inj_right' he rfl)] at hsource
    exact hsource trivial
  have herase : Spared owned fs (fs.erase (old ++ [source.name])) :=
    of_unowned hname (.inr hsource) fun _ hother => node?_erase_ne hother
  refine herase.trans (put_free ?_ (.file bytes))
  rw [node?_erase_ne hne]
  exact hfree

end Spared

end FileSystem

/-- The files in a directory of a world that have names of somebody's choosing. -/
structure Share (W : Type) where
  /-- Where the world keeps its files. -/
  files : Place W FileSystem
  /-- The path of the directory. -/
  directory : String
  /-- The place of the directory. -/
  place : Location
  /-- Which names are owned. -/
  owned : String → Bool

namespace Share

variable {W A B : Type}

/-- The directory is there. -/
def Ready (share : Share W) (w : W) : Prop :=
  (share.files.get w).find share.directory = .ok (share.place, .directory)

/-- The world without the owned files in the directory. -/
def hide (share : Share W) (w : W) : W :=
  share.files.set w ((share.files.get w).without share.place share.owned)

/-- The same names in the same directory of a tree that is the whole world. -/
def alone (share : Share W) : Share FileSystem := { share with files := .whole FileSystem }

/-- An operation overlooks owned files: it spares them, wherever they stand, and where those in the directory
are not there it does and answers the same. What it answers has a property. -/
structure Overlooks (share : Share W) (op : W → W × A) (answers : A → Prop := fun _ => True) : Prop where
  /-- Owned files stay. -/
  spared : ∀ w, (share.files.get w).Spared share.owned (share.files.get (op w).1)
  /-- The same is done without them. -/
  same : ∀ w, share.Ready w → op (share.hide w) = (share.hide (op w).1, (op w).2)
  /-- What is answered has the property. -/
  answered : ∀ w, answers (op w).2

variable {share : Share W}

namespace Overlooks

variable {op : W → W × A} {answers : A → Prop}

/-- What an operation on a tree that is the whole world has to do. -/
theorem of_tree {change : FileSystem → FileSystem × A} {answers : A → Prop}
    (hspared : ∀ fs : FileSystem, fs.Spared share.owned (change fs).1)
    (hsame : ∀ fs : FileSystem, fs.find share.directory = .ok (share.place, .directory) →
      change (fs.without share.place share.owned) =
        ((change fs).1.without share.place share.owned, (change fs).2))
    (hanswered : ∀ fs, answers (change fs).2) : share.alone.Overlooks change answers :=
  ⟨hspared, hsame, hanswered⟩

/-- The directory is still there. -/
theorem ready (h : share.Overlooks op answers) {w : W} (hr : share.Ready w) : share.Ready (op w).1 :=
  (h.spared w).find_directory hr

/-- Nothing is done. -/
theorem pure {a : A} (ha : answers a) : share.Overlooks (fun w => (w, a)) answers where
  spared _ := .refl _
  same _ _ := rfl
  answered _ := ha

/-- Something is looked at that is the same without the owned files. -/
theorem look {see : W → A} (hsee : ∀ w, share.Ready w → see (share.hide w) = see w)
    (ha : ∀ w, answers (see w)) : share.Overlooks (fun w => (w, see w)) answers where
  spared _ := .refl _
  same w hr := by rw [hsee w hr]
  answered := ha

/-- What is done next depends on what was answered. -/
theorem bind (h : share.Overlooks op answers) (next : A → W → W × B) {answers' : B → Prop}
    (hnext : ∀ a, answers a → share.Overlooks (next a) answers') :
    share.Overlooks (fun w => next (op w).2 (op w).1) answers' where
  spared w := (h.spared w).trans ((hnext _ (h.answered w)).spared (op w).1)
  same w hr := by
    rw [h.same w hr]
    exact (hnext _ (h.answered w)).same (op w).1 (h.ready hr)
  answered w := (hnext _ (h.answered w)).answered (op w).1

/-- What is done depends on something that is the same without the owned files. -/
theorem look_bind {see : W → A} (hsee : ∀ w, share.Ready w → see (share.hide w) = see w)
    (next : A → W → W × B) {answers' : B → Prop} (hnext : ∀ a, share.Overlooks (next a) answers') :
    share.Overlooks (fun w => next (see w) w) answers' := by
  have hlook : share.Overlooks fun w => (w, see w) := look hsee fun _ => trivial
  exact hlook.bind next fun a _ => hnext a

/-- What is answered is answered in another way. -/
theorem map (h : share.Overlooks op answers) (f : A → B) {answers' : B → Prop}
    (hf : ∀ a, answers a → answers' (f a)) :
    share.Overlooks (fun w => ((op w).1, f (op w).2)) answers' :=
  h.bind (fun a w => (w, f a)) fun a ha => pure (hf a ha)

/-- What is answered has a weaker property, too. -/
theorem mono (h : share.Overlooks op answers) {answers' : A → Prop} (ha : ∀ a, answers a → answers' a) :
    share.Overlooks op answers' :=
  ⟨h.spared, h.same, fun w => ha _ (h.answered w)⟩

/-- An operation on the files of a world overlooks what it overlooks in a tree. -/
theorem lift (hplace : share.files.Lawful) {change : FileSystem → FileSystem × A}
    (h : share.alone.Overlooks change answers) :
    share.Overlooks
      (fun w => (share.files.set w (change (share.files.get w)).1, (change (share.files.get w)).2))
      answers where
  spared w := by
    dsimp only
    rw [hplace.get_set]
    exact h.spared (share.files.get w)
  same w hr := by
    have hsame := h.same (share.files.get w) hr
    unfold hide
    dsimp only
    rw [hplace.get_set, hplace.get_set, hplace.set_set, hplace.set_set]
    exact congrArg (fun result => (share.files.set w result.1, result.2)) hsame
  answered w := h.answered (share.files.get w)

end Overlooks

end Share

end Chronicle
