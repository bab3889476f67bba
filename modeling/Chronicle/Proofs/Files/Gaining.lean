import Chronicle.Proofs.Files.Undisturbed

/-!
# Trees that gain a file

A file is written under a name that was drawn for it, and moved to its own name when it is whole. Whoever looks
at the tree before and after finds everything that stood there, perhaps more directories, and one file more or
none. Between the two the tree has one file more under the drawn name, and nothing else. Whether a file can be
moved to its own name does not depend on what it holds.
-/

namespace Chronicle.FileSystem

variable {fs fs' fs'' : FileSystem}

/-- Everything that stood in a tree stands there still, and one file more at most. Directories may appear. -/
structure Gains (fs fs' : FileSystem) (added : Option (Location × List UInt8)) : Prop where
  /-- Everything stays. -/
  stays : ∀ {place node}, fs.node? place = some node → fs'.node? place = some node
  /-- The file that is added stands where nothing was. -/
  has : ∀ {place bytes}, added = some (place, bytes) →
    fs.node? place = none ∧ fs'.node? place = some (.file bytes)
  /-- No other file has appeared. -/
  only : ∀ {place bytes}, fs'.node? place = some (.file bytes) →
    fs.node? place = some (.file bytes) ∨ added = some (place, bytes)

namespace Gains

variable {above : Location} {name : Name} {bytes : List UInt8}

/-- Nothing is gained by doing nothing. -/
theorem refl (fs : FileSystem) : Gains fs fs none where
  stays h := h
  has h := nomatch h
  only h := .inl h

/-- Trees in which the same stands everywhere have gained the same. -/
theorem congr {added : Option (Location × List UInt8)} (h : Gains fs fs' added)
    (hsame : ∀ place, fs''.node? place = fs'.node? place) : Gains fs fs'' added where
  stays hn := (hsame _).trans (h.stays hn)
  has hadded := ⟨(h.has hadded).1, (hsame _).trans (h.has hadded).2⟩
  only hn := h.only ((hsame _).symm.trans hn)

/-- A path still names the same in a directory. -/
theorem slot {added : Option (Location × List UInt8)} (h : Gains fs fs' added) {path : String}
    {place : Location} {name : String} (hslot : fs.slot path = .ok (place, name)) :
    fs'.slot path = .ok (place, name) :=
  slot_of_keeps (fun _ _ => h.stays) hslot

/-- A file is put where nothing was. -/
theorem put (h : Gains fs fs' none) (hfree : fs'.node? (above ++ [name]) = none) (bytes : List UInt8) :
    Gains fs (fs'.put (above ++ [name]) (.file bytes)) (some (above ++ [name], bytes)) where
  stays {place node} hn := by
    have hstill := h.stays hn
    have hne : place ≠ above ++ [name] := by
      rintro rfl
      rw [hfree] at hstill
      nomatch hstill
    rwa [node?_put_ne hne]
  has hadded := by
    obtain ⟨rfl, rfl⟩ := Prod.mk.inj (Option.some.inj hadded)
    refine ⟨?_, node?_put_self above name _⟩
    cases hn : fs.node? (above ++ [name]) with
    | none => rfl
    | some node =>
      rw [h.stays hn] at hfree
      nomatch hfree
  only {place bytes'} hn := by
    by_cases he : place = above ++ [name]
    · subst he
      rw [node?_put_self] at hn
      cases hn
      exact .inr rfl
    · rw [node?_put_ne he] at hn
      exact (h.only hn).imp_right fun hnone => nomatch hnone

/-- A file that was added is erased. -/
theorem erase (h : Gains fs fs' (some (above ++ [name], bytes))) :
    Gains fs (fs'.erase (above ++ [name])) none where
  stays {place node} hn := by
    have hne : place ≠ above ++ [name] := by
      rintro rfl
      rw [(h.has rfl).1] at hn
      nomatch hn
    rw [node?_erase_ne hne]
    exact h.stays hn
  has hadded := nomatch hadded
  only {place bytes'} hn := by
    have hne : place ≠ above ++ [name] := by
      rintro rfl
      rw [node?_erase_self] at hn
      nomatch hn
    rw [node?_erase_ne hne] at hn
    refine (h.only hn).imp_right fun hadded => ?_
    exact absurd (Prod.mk.inj (Option.some.inj hadded)).1.symm hne

/-- Directories are put where nothing was. -/
theorem grown (h : Gains fs fs' none) (hg : Grown fs' fs'') : Gains fs fs'' none := by
  induction hg with
  | refl => exact h
  | @step tree above name _ _ hfree ih =>
    refine ⟨fun {place node} hn => ?_, nofun, fun {place bytes} hn => ?_⟩
    · have hstill := ih.stays hn
      have hne : place ≠ above ++ [.given name] := by
        rintro rfl
        rw [hfree] at hstill
        nomatch hstill
      rwa [node?_put_ne hne]
    · by_cases he : place = above ++ [.given name]
      · rw [he, node?_put_self] at hn
        nomatch hn
      · rw [node?_put_ne he] at hn
        exact ih.only hn

end Gains

section Drawing

/-- No name that is yet to be drawn stands in a tree. -/
def Fresh (fs : FileSystem) : Prop :=
  ∀ above start ending serial, fs.temporaries ≤ serial →
    fs.node? (above ++ [.drawn start ending serial]) = none

/-- A tree in which no name was drawn is fresh. -/
theorem fresh_of_given (h : ∀ entry ∈ fs.nodes, Location.Given entry.1) : fs.Fresh := by
  intro above start ending serial _
  rw [← Option.not_isSome_iff_eq_none, ← exists_entry_iff]
  rintro ⟨entry, he, hplace⟩
  have hgiven := h entry he
  rw [hplace] at hgiven
  exact hgiven _ (List.mem_append_right _ List.mem_cons_self)

/-- Directories have no drawn names. -/
theorem Fresh.grown (h : fs.Fresh) (hg : Grown fs fs') : fs'.Fresh := by
  induction hg with
  | refl => exact h
  | @step tree above' name _ _ _ ih =>
    intro above start ending serial hserial
    have hne : above ++ [.drawn start ending serial] ≠ above' ++ [.given name] := fun he =>
      nomatch List.singleton_inj.1 (List.append_inj_right' he rfl)
    rw [node?_put_ne hne]
    exact ih above start ending serial hserial

/-- All that a tree has gained is an empty file under a name that was drawn for it. -/
structure Begun (fs fs' : FileSystem) (temporary : Entry) (place : Location) : Prop where
  /-- The file stands at the place of its entry. -/
  place_eq : fs'.placeOf temporary = .ok place
  /-- Nothing else was gained. -/
  gains : Gains fs fs' (some (place, []))

/-- A temporary file is created under a name that was never drawn before. -/
theorem begun_createTemporary {directory start ending : String} {temporary : Entry}
    (hg : Gains fs fs' none) (hfresh : fs'.Fresh)
    (h : fs'.createTemporary directory start ending = .ok (temporary, fs'')) :
    ∃ place, Begun fs fs'' temporary place := by
  unfold createTemporary at h
  obtain ⟨target, hplace, h⟩ := Except.bind_eq_ok_iff.1 h
  obtain ⟨⟨⟩, -, h⟩ := Except.bind_eq_ok_iff.1 h
  obtain ⟨hentry, htree⟩ := Prod.mk.inj (Except.ok.inj h)
  obtain ⟨⟨above, last⟩, hslot, htarget⟩ := Except.bind_eq_ok_iff.1 hplace
  cases htarget
  rw [hentry] at hslot htree
  have hfree : fs'.node? (above ++ [temporary.name]) = none := by
    rw [← hentry]
    exact hfresh above _ ending fs'.temporaries (Nat.le_refl _)
  have hnode : ∀ place, fs''.node? place = (fs'.put (above ++ [temporary.name]) (.file [])).node? place := by
    intro place
    rw [← htree]
    rfl
  have hslot' : fs''.slot temporary.path = .ok (above, last) :=
    (((Gains.refl fs').put hfree []).congr hnode).slot hslot
  exact ⟨_, Except.bind_eq_ok_iff.2 ⟨_, hslot', rfl⟩, (hg.put hfree []).congr hnode⟩

/-- A temporary file is discarded. -/
theorem Begun.discard {temporary : Entry} {place : Location} (h : Begun fs fs' temporary place) :
    Gains fs (fs'.discardFile temporary) none := by
  obtain ⟨above, rfl⟩ := placeOf_eq_ok h.place_eq
  have hremoved : fs'.removeFile temporary = .ok (fs'.erase (above ++ [temporary.name])) :=
    removeFile_eq_ok_iff.2 ⟨_, [], h.place_eq, (h.gains.has rfl).2, rfl⟩
  unfold discardFile
  rw [hremoved]
  exact h.gains.erase

end Drawing

section Moving

/-- The free place that a path names, or why a file cannot be moved there. -/
def freePlace (fs : FileSystem) (destination : String) : Except FileError Location := do
  if destination.toList.contains '\x00' then throw .invalidArgument
  Path.check destination
  let (place, name) ← fs.slot destination
  if Path.isRelative name then throw .alreadyExists
  Path.checkName name
  if (fs.node? (place ++ [.given name])).isSome then throw .alreadyExists
  if Path.endsInSlash destination then throw .notADirectory
  return place ++ [.given name]

/-- A file that is there is moved to the free place that a path names, whatever it holds then. -/
theorem moveToFree_eq_map {source : Entry} {old : Location} (hold : fs.placeOf source = .ok old)
    (hthere : (fs.node? old).isSome = true) (destination : String) (bytes : List UInt8) :
    fs.moveToFree source destination bytes =
      (fs.freePlace destination).map fun place => (fs.erase old).put place (.file bytes) := by
  have hstands : ¬ (fs.node? old).isNone = true := by
    rw [← Option.not_isSome, hthere]
    exact Bool.false_ne_true
  unfold moveToFree freePlace
  refine Except.refuse_eq_map fun _ => Except.bind_eq_map fun _ _ => ?_
  rw [hold]
  refine Except.bind_eq_map fun target _ => Except.refuse_eq_map fun _ => ?_
  dsimp only
  rw [if_neg hstands]
  exact Except.bind_eq_map fun _ _ => Except.refuse_eq_map fun _ => Except.refuse_eq_map fun _ => rfl

/-- A path is not refused for being there, as far as its text goes. -/
theorem check_ne_alreadyExists (path : String) : Path.check path ≠ .error .alreadyExists := by
  unfold Path.check
  repeat' split
  all_goals exact nofun

/-- A name is not refused for being there, as far as its text goes. -/
theorem checkName_ne_alreadyExists (name : String) : Path.checkName name ≠ .error .alreadyExists := by
  unfold Path.checkName
  split <;> exact nofun

/-- A path is not refused for being there on the way to the directory of what it names. -/
theorem slot_ne_alreadyExists (fs : FileSystem) (path : String) : fs.slot path ≠ .error .alreadyExists := by
  have hneed : ∀ place, fs.needDirectory place ≠ .error .alreadyExists := by
    intro place
    unfold needDirectory
    split <;> exact nofun
  have hfollow : ∀ names place, fs.follow place names ≠ .error .alreadyExists := by
    intro names
    induction names with
    | nil => exact fun _ => nofun
    | cons name rest ih =>
      intro place
      rw [follow_cons]
      refine Except.bind_ne_error (hneed place) fun _ _ => ?_
      split
      · exact ih place
      · split
        · exact ih _
        · exact Except.bind_ne_error (checkName_ne_alreadyExists name) fun _ _ => ih _
  exact Except.bind_ne_error (check_ne_alreadyExists path) fun _ _ =>
    Except.bind_ne_error (hfollow _ []) fun place _ => Except.bind_ne_error (hneed place) fun _ _ => nofun

section Naming

variable {path last name : String} {parts : List String} {place : Location}

/-- A path whose last part is a name leads to what stands under that name in the directory of the path. -/
theorem find_of_slot (hparts : Path.parts path = parts ++ [last]) (hne : last ≠ "")
    (hrel : Path.isRelative last = false) (hslot : fs.slot path = .ok (place, name))
    (hname : Path.checkName name = .ok ()) : fs.find path =
      match fs.node? (place ++ [.given name]) with
      | none => .error .notFound
      | some node => .ok (place ++ [.given name], node) := by
  obtain ⟨hcheck, hfollow, hd, rfl⟩ := slot_eq_ok_iff.1 hslot
  rw [Path.entry_of_parts hparts hne] at hfollow hname ⊢
  have hr : last ≠ "." ∧ last ≠ ".." := by simpa [Path.isRelative] using hrel
  have hlast : fs.follow place [last] = .ok (place ++ [.given last]) :=
    follow_cons_eq_ok_iff.2 ⟨hd, by rw [if_neg hr.1, if_neg hr.2]; exact ⟨hname, rfl⟩⟩
  unfold find resolve
  rw [hcheck, Path.names_of_parts hparts hne, follow_append, hfollow]
  dsimp only [Bind.bind, Except.bind]
  rw [hlast]
  dsimp only
  cases fs.node? (place ++ [.given last]) <;> rfl

/-- A file cannot be moved where a path leads only if something is there. -/
theorem freePlace_ne_alreadyExists (hparts : Path.parts path = parts ++ [last]) (hne : last ≠ "")
    (hrel : Path.isRelative last = false) (hfree : ∀ found, fs.find path ≠ .ok found) :
    fs.freePlace path ≠ .error .alreadyExists := by
  unfold freePlace
  refine Except.refuse_ne_error nofun fun _ => Except.bind_ne_error (check_ne_alreadyExists path) fun _ _ => ?_
  refine Except.bind_ne_error (slot_ne_alreadyExists fs path) ?_
  rintro ⟨place, name⟩ hslot
  obtain rfl : last = name := by
    rw [← (slot_eq_ok_iff.1 hslot).2.2.2, Path.entry_of_parts hparts hne]
  dsimp only
  rw [hrel, if_neg Bool.false_ne_true]
  refine Except.bind_ne_error (checkName_ne_alreadyExists last) fun _ hname => ?_
  have hnone : fs.node? (place ++ [.given last]) = none := by
    have hfind := find_of_slot hparts hne hrel hslot hname
    cases hn : fs.node? (place ++ [.given last]) with
    | none => rfl
    | some node =>
      rw [hn] at hfind
      exact absurd hfind (hfree _)
  rw [hnone, Option.isSome_none, if_neg Bool.false_ne_true]
  exact Except.refuse_ne_error nofun fun _ => nofun

/-- Nothing stands at a free place, and it has the last part of the path for its name. -/
theorem freePlace_eq_ok (hparts : Path.parts path = parts ++ [last]) (hne : last ≠ "")
    (h : fs.freePlace path = .ok place) :
    ∃ above, place = above ++ [.given last] ∧ fs.slot path = .ok (above, last) ∧
      Path.checkName last = .ok () ∧ fs.node? place = none := by
  simp only [freePlace, Except.refuse_eq_ok_iff, Except.bind_eq_ok_iff] at h
  obtain ⟨-, ⟨⟩, -, ⟨above, name⟩, hslot, -, ⟨⟩, hname, hfree, -, hplace⟩ := h
  obtain rfl : last = name := by
    rw [← (slot_eq_ok_iff.1 hslot).2.2.2, Path.entry_of_parts hparts hne]
  cases hplace
  exact ⟨above, rfl, hslot, hname, by simpa using hfree⟩

/-- A free place is named by a path with a last part. -/
theorem exists_parts_of_freePlace (h : fs.freePlace path = .ok place) :
    ∃ above name, Path.parts path = above ++ [name] ∧ name ≠ "" ∧ Path.isRelative name = false := by
  simp only [freePlace, Except.refuse_eq_ok_iff, Except.bind_eq_ok_iff] at h
  obtain ⟨-, ⟨⟩, hcheck, ⟨target, name⟩, hslot, hrel, ⟨⟩, -, -, hslash, -⟩ := h
  have hne : path ≠ "" := by
    rintro rfl
    nomatch hcheck
  obtain ⟨above, name', hparts, hlast⟩ := Path.exists_parts hne (Bool.eq_false_iff.2 hslash)
  have hentry : name' = name := by
    rw [← (slot_eq_ok_iff.1 hslot).2.2.2, Path.entry_of_parts hparts hlast]
  exact ⟨above, name', hparts, hlast, hentry ▸ Bool.eq_false_iff.2 hrel⟩

/-- A temporary file is moved to a free place: one file was gained, and the path leads to it. -/
theorem Begun.move {temporary : Entry} {old : Location} (h : Begun fs fs' temporary old)
    (hparts : Path.parts path = parts ++ [last]) (hne : last ≠ "") (hrel : Path.isRelative last = false)
    (hfree : fs'.freePlace path = .ok place) (bytes : List UInt8) :
    Gains fs ((fs'.erase old).put place (.file bytes)) (some (place, bytes)) ∧
      ((fs'.erase old).put place (.file bytes)).find path = .ok (place, .file bytes) := by
  obtain ⟨above, rfl, hslot, hname, hnone⟩ := freePlace_eq_ok hparts hne hfree
  obtain ⟨other, rfl⟩ := placeOf_eq_ok h.place_eq
  have hthere := (h.gains.has rfl).2
  have hapart : above ++ [.given last] ≠ other ++ [temporary.name] := by
    intro he
    rw [he, hthere] at hnone
    nomatch hnone
  have hstill : (fs'.erase (other ++ [temporary.name])).node? (above ++ [.given last]) = none := by
    rw [node?_erase_ne hapart]
    exact hnone
  refine ⟨h.gains.erase.put hstill bytes, ?_⟩
  have hkeeps : ∀ place : Location, place.Given → fs'.node? place = some .directory →
      ((fs'.erase (other ++ [temporary.name])).put (above ++ [.given last]) (.file bytes)).node? place =
        some .directory := by
    intro place _ hd
    have hfile : place ≠ other ++ [temporary.name] := by
      rintro rfl
      rw [hthere] at hd
      nomatch hd
    have htarget : place ≠ above ++ [.given last] := by
      rintro rfl
      rw [hnone] at hd
      nomatch hd
    rw [node?_put_ne htarget, node?_erase_ne hfile]
    exact hd
  rw [find_of_slot hparts hne hrel (slot_of_keeps hkeeps hslot) hname, node?_put_self]

end Naming

end Moving

end Chronicle.FileSystem
