import Chronicle.Maintenance.Cleaning
import Chronicle.Maintenance.Listing
import Chronicle.Maintenance.Verification
import Chronicle.Proofs.Cache.Overlooking
import Chronicle.Proofs.Cache.Reading
import Chronicle.Proofs.Maintenance.Steps

/-!
# Caches that share a directory

Caches of different stems share a directory, and what is done with one overlooks the files of the other: reading
through it, listing and verifying it, and cleaning it. There is one exception. Where a stem with a dash begins
the other stem, files that are being written for the other are counted and removed with those of this one.
-/

namespace Chronicle.Maintenance

open Cache

/-- Foreign names that are not taken for those of files being written either. -/
structure Unseen (stem : String) (owned : String → Bool) : Prop extends Foreign stem owned where
  /-- None is taken for that of a file being written. -/
  uncounted : ∀ text, owned text = true → isInProgress stem text = false

/-- Names of another cache that are owned apart are unseen. -/
theorem unseen_ownsApart {stem other : String} (hne : stem ≠ other) : Unseen stem (ownsApart stem other) where
  toForeign := (foreign_owns hne).mono fun _ => owns_of_ownsApart
  uncounted _ h := isInProgress_of_ownsApart hne h

section Unseen

variable {directory stem : String} {place : Location} {owned : String → Bool} {fs : FileSystem}

/-- A directory is one without the files in it. -/
theorem isDirectory_without (h : fs.find directory = .ok (place, .directory)) :
    (fs.without place owned).isDirectory directory = fs.isDirectory directory := by
  unfold FileSystem.isDirectory
  rw [h, FileSystem.find_directory_without.2 h]

/-- The events of segments are listed as they are without foreign files. -/
theorem listSegments_without (hs : Path.Slashless stem) (hf : Foreign stem owned)
    (h : fs.find directory = .ok (place, .directory)) {paths : List String}
    (hpaths : ∀ path ∈ paths, ∃ index, path = segmentPath directory stem index) :
    listSegments (fs.without place owned) paths = listSegments fs paths := by
  induction paths with
  | nil => rfl
  | cons path rest ih =>
    obtain ⟨index, rfl⟩ := hpaths path List.mem_cons_self
    funext room
    unfold listSegments
    rw [open_segment_without hs hf h, ih fun path hp => hpaths path (List.mem_cons_of_mem _ hp)]

/-- A cache is listed as it is without foreign files. -/
theorem list_foreign_without (hs : Path.Slashless stem) (hf : Foreign stem owned)
    (h : fs.find directory = .ok (place, .directory)) (json : Bool) (limit : Option Nat) :
    list (fs.without place owned) directory stem json limit = list fs directory stem json limit := by
  unfold list
  rw [isDirectory_without h, scanSegments_without hf h]
  cases scanSegments fs directory stem with
  | error e => rfl
  | ok scan =>
    dsimp only
    rw [listSegments_without hs hf h fun _ => exists_index_of_replayable]

/-- The files that are being written are listed as they are without unseen files. -/
theorem listInProgress_without (hu : Unseen stem owned) (h : fs.find directory = .ok (place, .directory)) :
    listInProgress (fs.without place owned) directory stem = listInProgress fs directory stem := by
  obtain ⟨names, hnames, hwithout⟩ := FileSystem.list_without owned h
  have hfilter : (names.filter fun name => !fs.holdsOwned place owned (place ++ [name])).filter
      (isInProgress stem ·.text) = names.filter (isInProgress stem ·.text) := by
    rw [List.filter_filter]
    refine List.filter_congr fun name _ => ?_
    cases hheld : fs.holdsOwned place owned (place ++ [name]) with
    | false => exact Bool.and_true _
    | true =>
      obtain ⟨other, -, hplace, howned, -⟩ := FileSystem.holdsOwned_iff.1 hheld
      rw [List.singleton_inj.1 (List.append_cancel_left hplace), hu.uncounted _ howned]
      rfl
  unfold listInProgress
  rw [hnames, hwithout]
  dsimp only
  rw [hfilter]

/-- A cache is looked at as it is without unseen files. -/
theorem inspect_without (hs : Path.Slashless stem) (hu : Unseen stem owned)
    (h : fs.find directory = .ok (place, .directory)) :
    inspect (fs.without place owned) directory stem = inspect fs directory stem := by
  have hcheck : checkSegment (fs.without place owned) directory stem = checkSegment fs directory stem := by
    funext index
    unfold checkSegment
    rw [readFile_segment_without hs hu.toForeign h]
  unfold inspect
  rw [scanSegments_without hu.toForeign h, listInProgress_without hu h, hcheck]

/-- A cache is verified as it is without unseen files. -/
theorem verify_without (hs : Path.Slashless stem) (hu : Unseen stem owned)
    (h : fs.find directory = .ok (place, .directory)) (strict json : Bool) :
    verify (fs.without place owned) directory stem strict json = verify fs directory stem strict json := by
  unfold verify
  rw [isDirectory_without h, inspect_without hs hu h]

/-- The segments that are of no use are the same without foreign files. -/
theorem unusableSegments_without (hs : Path.Slashless stem) (hf : Foreign stem owned)
    (h : fs.find directory = .ok (place, .directory)) :
    unusableSegments (fs.without place owned) directory stem = unusableSegments fs directory stem := by
  have hdecodes : ∀ index, decodes (fs.without place owned) (segmentPath directory stem index) =
      decodes fs (segmentPath directory stem index) := by
    intro index
    unfold decodes
    rw [readFile_segment_without hs hf h]
  unfold unusableSegments
  rw [scanSegments_without hf h, funext hdecodes]

/-- Files that are not owned are removed, and owned files are spared. -/
theorem spared_removeFiles (fs : FileSystem) (n : Nat) {entries : List Entry}
    (hnames : ∀ entry ∈ entries, owned entry.name.text = false) :
    fs.Spared owned (removeFiles fs n entries).1 := by
  induction entries generalizing fs n with
  | nil => exact .refl fs
  | cons entry rest ih =>
    have hrest : ∀ other ∈ rest, owned other.name.text = false :=
      fun other ho => hnames other (List.mem_cons_of_mem _ ho)
    unfold removeFiles
    split
    · rename_i hremoved
      exact (FileSystem.Spared.removeFile (hnames entry List.mem_cons_self) hremoved).trans (ih _ _ hrest)
    · exact ih _ _ hrest
    · exact .refl fs

/-- An entry of the directory under a name that is not owned. -/
def Removable (directory : String) (owned : String → Bool) (entry : Entry) : Prop :=
  ∃ name : Name, entry = .within directory name ∧ Path.Slashless name.text ∧ name.text ≠ "" ∧
    owned name.text = false

/-- Files that are not owned are removed as they are without owned files. -/
theorem removeFiles_without (h : fs.find directory = .ok (place, .directory)) (n : Nat)
    {entries : List Entry} (hentries : ∀ entry ∈ entries, Removable directory owned entry) :
    removeFiles (fs.without place owned) n entries =
      ((removeFiles fs n entries).1.without place owned, (removeFiles fs n entries).2) := by
  induction entries generalizing fs n with
  | nil => rfl
  | cons entry rest ih =>
    obtain ⟨name, rfl, hslashless, hne, hname⟩ := hentries _ List.mem_cons_self
    have hrest : ∀ other ∈ rest, Removable directory owned other :=
      fun other ho => hentries other (List.mem_cons_of_mem _ ho)
    have hslot : (fs.without place owned).slot (Entry.within directory name).path =
        fs.slot (Entry.within directory name).path :=
      FileSystem.slot_without fun hcheck => ⟨_, FileSystem.slot_join h hslashless hne hcheck⟩
    unfold removeFiles
    rw [FileSystem.removeFile_without hslot hname]
    cases hremoved : fs.removeFile (.within directory name) with
    | ok fs' => exact ih ((FileSystem.Thinned.removeFile hremoved).find_directory h) _ hrest
    | error e =>
      cases e with
      | notFound => exact ih h n hrest
      | _ => rfl

/-- A file that is listed as being written does not have an unseen name. -/
theorem unowned_of_listInProgress (hu : Unseen stem owned) {entries : List Entry}
    (hl : listInProgress fs directory stem = .ok entries) {entry : Entry} (he : entry ∈ entries) :
    owned entry.name.text = false := by
  obtain ⟨-, name, -, -, rfl, hp⟩ := Cleaning.exists_name_of_listInProgress hl he
  rw [Bool.eq_false_iff]
  intro howned
  have huncounted : isInProgress stem name.text = false := hu.uncounted _ howned
  rw [huncounted] at hp
  nomatch hp

/-- Where names hold no slash, a file that is listed as being written is removed by its name. -/
theorem removable_of_listInProgress (hu : Unseen stem owned)
    (h : fs.find directory = .ok (place, .directory))
    (hnames : ∀ name, (fs.node? (place ++ [name])).isSome = true → Path.Slashless name.text)
    {entries : List Entry} (hl : listInProgress fs directory stem = .ok entries) {entry : Entry}
    (he : entry ∈ entries) : Removable directory owned entry := by
  have hunowned := unowned_of_listInProgress hu hl he
  obtain ⟨names, name, hlist, hm, rfl, hp⟩ := Cleaning.exists_name_of_listInProgress hl he
  obtain ⟨listed, hlisted, -, hthere⟩ := FileSystem.list_of_find h
  obtain rfl := Except.ok.inj (hlist.symm.trans hlisted)
  refine ⟨name, rfl, hnames name ((hthere name).1 hm), ?_, hunowned⟩
  intro hempty
  unfold isInProgress at hp
  rw [hempty, Bool.and_eq_true, List.isPrefixOf_iff_prefix, toList_inProgressStart] at hp
  nomatch List.eq_nil_of_prefix_nil hp.1

/-- A segment that is of no use is removed by its name. -/
theorem removable_of_unusableSegments (hs : Path.Slashless stem) (hf : Foreign stem owned)
    {entries : List Entry} (hl : unusableSegments fs directory stem = .ok entries) {entry : Entry}
    (he : entry ∈ entries) : Removable directory owned entry := by
  obtain ⟨scan, -, hl⟩ := Except.bind_eq_ok_iff.1 hl
  obtain rfl := Except.ok.inj hl
  obtain ⟨index, -, rfl⟩ := List.mem_map.1 he
  exact ⟨_, rfl, slashless_segmentName hs index, (segmentName_ne stem index).1, hf.segment index⟩

/-- Segments that are of no use are removed as they are without foreign files. -/
theorem cleanSegments_without (hs : Path.Slashless stem) (hf : Foreign stem owned)
    (h : fs.find directory = .ok (place, .directory)) (lines : List String) :
    cleanSegments (fs.without place owned) directory stem lines =
      ((cleanSegments fs directory stem lines).1.without place owned,
        (cleanSegments fs directory stem lines).2) := by
  unfold cleanSegments
  rw [unusableSegments_without hs hf h]
  cases hl : unusableSegments fs directory stem with
  | error e => rfl
  | ok entries =>
    dsimp only
    rw [removeFiles_without h 0 fun _ he => removable_of_unusableSegments hs hf hl he]
    rcases removeFiles fs 0 entries with ⟨fs', _ | _⟩ <;> rfl

/-- A cleaning that is about to remove no files under owned names. -/
def Cleaning.Sparing (owned : String → Bool) : Cleaning → Prop
  | .removing _ _ _ entries => ∀ entry ∈ entries, owned entry.name.text = false
  | _ => True

/-- Segments are not removed under foreign names. -/
theorem unowned_of_segmentEntry (hf : Foreign stem owned) (indices : List Nat) {entry : Entry}
    (he : entry ∈ indices.map (segmentEntry directory stem)) : owned entry.name.text = false := by
  obtain ⟨index, -, rfl⟩ := List.mem_map.1 he
  exact hf.segment index

/-- A step of a cleaning spares unseen files and leaves a cleaning that will not remove any. -/
theorem spared_step (hu : Unseen stem owned) (corrupt : Bool) (fs : FileSystem) {cleaning : Cleaning}
    (h : cleaning.Sparing owned) :
    FileSystem.Spared owned fs (cleaning.step directory stem corrupt fs).1 ∧
      (cleaning.step directory stem corrupt fs).2.Sparing owned := by
  cases cleaning with
  | begun =>
    unfold Cleaning.step
    dsimp only
    split <;> exact ⟨.refl fs, trivial⟩
  | listing =>
    unfold Cleaning.step
    cases hl : listInProgress fs directory stem with
    | error e => exact ⟨.refl fs, trivial⟩
    | ok entries => exact ⟨.refl fs, fun _ he => unowned_of_listInProgress hu hl he⟩
  | removing rubbish lines n entries =>
    cases entries with
    | nil =>
      refine ⟨.refl fs, ?_⟩
      cases rubbish <;> cases corrupt <;> exact trivial
    | cons entry rest =>
      have hrest : ∀ other ∈ rest, owned other.name.text = false :=
        fun other ho => h other (List.mem_cons_of_mem _ ho)
      rw [Cleaning.step_removing_cons]
      cases hremoved : fs.removeFile entry with
      | ok fs' => exact ⟨.removeFile (h entry List.mem_cons_self) hremoved, hrest⟩
      | error e =>
        cases e with
        | notFound => exact ⟨.refl fs, hrest⟩
        | _ => exact ⟨.refl fs, trivial⟩
  | scanning lines =>
    unfold Cleaning.step
    cases scanSegments fs directory stem <;> exact ⟨.refl fs, trivial⟩
  | decoding lines indices stranded =>
    cases indices with
    | nil => exact ⟨.refl fs, fun _ => unowned_of_segmentEntry hu.toForeign stranded⟩
    | cons index rest =>
      rw [Cleaning.step_decoding_cons]
      split
      · exact ⟨.refl fs, trivial⟩
      · exact ⟨.refl fs, fun _ => unowned_of_segmentEntry hu.toForeign _⟩
  | ended report => exact ⟨.refl fs, trivial⟩

/-- The steps of a cleaning spare unseen files. -/
theorem spared_steps (hu : Unseen stem owned) (corrupt : Bool) (count : Nat) (fs : FileSystem)
    {cleaning : Cleaning} (h : cleaning.Sparing owned) :
    FileSystem.Spared owned fs (Cleaning.steps directory stem corrupt count (fs, cleaning)).1 := by
  induction count generalizing fs cleaning with
  | zero => exact .refl fs
  | succ count ih =>
    have hstep : FileSystem.Spared owned fs (cleaning.step directory stem corrupt fs).1 ∧
        (cleaning.step directory stem corrupt fs).2.Sparing owned := spared_step hu corrupt fs h
    exact hstep.1.trans (ih _ hstep.2)

/-- Cleaning a cache spares unseen files. -/
theorem spared_clean (hu : Unseen stem owned) (fs : FileSystem) (corrupt : Bool) :
    fs.Spared owned (clean fs directory stem corrupt).1 := by
  obtain ⟨count, hsteps⟩ := Cleaning.steps_eq_clean fs directory stem corrupt
  have hspared : fs.Spared owned (Cleaning.steps directory stem corrupt count (fs, .begun)).1 :=
    spared_steps hu corrupt count fs trivial
  rwa [hsteps] at hspared

/-- Where names hold no slash, a cache is cleaned as it is without unseen files. -/
theorem clean_without (hs : Path.Slashless stem) (hu : Unseen stem owned)
    (h : fs.find directory = .ok (place, .directory))
    (hnames : ∀ name, (fs.node? (place ++ [name])).isSome = true → Path.Slashless name.text)
    (corrupt : Bool) : clean (fs.without place owned) directory stem corrupt =
      ((clean fs directory stem corrupt).1.without place owned, (clean fs directory stem corrupt).2) := by
  unfold clean
  rw [isDirectory_without h, listInProgress_without hu h]
  split
  · rfl
  · cases hl : listInProgress fs directory stem with
    | error e => rfl
    | ok entries =>
      dsimp only
      rw [removeFiles_without h 0 fun _ he => removable_of_listInProgress hu h hnames hl he]
      have hspared : fs.Spared owned (removeFiles fs 0 entries).1 :=
        spared_removeFiles fs 0 fun _ he => unowned_of_listInProgress hu hl he
      rcases hdone : removeFiles fs 0 entries with ⟨fs', _ | n⟩
      · rfl
      · rw [hdone] at hspared
        dsimp only
        cases corrupt with
        | false => rfl
        | true => exact cleanSegments_without hs hu.toForeign (hspared.find_directory h) [removedInProgress n]

end Unseen

/-- A store that is kept elsewhere than the files is read aside of all of them. -/
theorem aside_store {W : Type} {storePlace : Place W Store} {share : Share W}
    (helsewhere : ∀ w fs, storePlace.get (share.files.set w fs) = storePlace.get w) :
    (Store.eventReader storePlace).Aside share where
  opens _ _ _ := rfl
  extent w c _ _ := congrArg (·.log.extent c) (helsewhere w _)
  pull c _ := .look (fun w _ => congrArg (·.log.pull c) (helsewhere w _)) fun _ => trivial
  close _ _ := .pure trivial

section Sharing

variable {W P : Type} [DecidableEq P] {files : Place W FileSystem} {other : String}

/-- The commands do the same in a directory without the files of another cache. -/
structure CommandsApart (directory stem other : String) (place : Location) (fs : FileSystem) : Prop where
  /-- A listing is the same without any of these files. -/
  list : ∀ json limit, list (fs.without place (owns other)) directory stem json limit =
    list fs directory stem json limit
  /-- A verification is the same without those that are told apart. -/
  verify : ∀ strict json, verify (fs.without place (ownsApart stem other)) directory stem strict json =
    verify fs directory stem strict json
  /-- A cleaning is, too, and leaves the same files otherwise. -/
  clean : (∀ name, (fs.node? (place ++ [name])).isSome = true → Path.Slashless name.text) →
    ∀ corrupt, clean (fs.without place (ownsApart stem other)) directory stem corrupt =
      ((clean fs directory stem corrupt).1.without place (ownsApart stem other),
        (clean fs directory stem corrupt).2)

/-- Whatever is done with a cache takes no notice of the files of another one in the same directory, and harms none
of them. Files that are being written for the other are told apart unless the stem with a dash begins the other
stem. -/
structure KeepsApart (files : Place W FileSystem) (options : Options) (source : EventReader W P) (place : Location)
    (other : String) : Prop where
  /-- A read through the cache is opened, pulled and given up in the same way without the files of the other, which
  stay as they are, whatever others do to the world between two steps. -/
  reads : (eventReader files options source).Aside (options.beside files place (owns other))
  /-- So is its next result found. -/
  next : ∀ c, (eventReader files options source).Held c →
    (options.beside files place (owns other)).Overlooks fun w => (eventReader files options source).next w c
  /-- So is it taken to an end. -/
  take : ∀ c, (eventReader files options source).Held c → ∀ limit,
    (options.beside files place (owns other)).Overlooks fun w => (eventReader files options source).take limit w c
  /-- The commands do the same. -/
  commands : ∀ fs : FileSystem, fs.find options.directory = .ok (place, .directory) →
    CommandsApart options.directory options.stem other place fs
  /-- A cleaning leaves the files that are told apart. -/
  cleaned : ∀ fs corrupt, FileSystem.Spared (ownsApart options.stem other) fs
    (clean fs options.directory options.stem corrupt).1
  /-- So does each of its steps, whatever others do between them. -/
  step : ∀ fs corrupt (cleaning : Cleaning), cleaning.Sparing (ownsApart options.stem other) →
    FileSystem.Spared (ownsApart options.stem other) fs
        (cleaning.step options.directory options.stem corrupt fs).1 ∧
      (cleaning.step options.directory options.stem corrupt fs).2.Sparing (ownsApart options.stem other)
  /-- All files are told apart unless the stem with a dash begins the other stem. -/
  apart : covers options.stem other = false → ownsApart options.stem other = owns other
  /-- If it does, those that are being written are taken for files of this cache. -/
  taken : ∀ text, ownsTemporary other text = true → isInProgress options.stem text = covers options.stem other

/-- Of two caches that share a directory, nothing that is done with the one takes notice of the files of the other,
or harms them, but for files that are being written for a cache whose stem is begun by this one's and a dash:
these are counted and removed. This is so if it is so of the source below, which may itself be a cache. -/
theorem stems_keep_apart (hplace : files.Lawful) (options : Options) (source : EventReader W P)
    (place : Location) (hstem : Path.Slashless options.stem) (hne : options.stem ≠ other)
    (hsource : source.Aside (options.beside files place (owns other))) :
    KeepsApart files options source place other := by
  have hforeign : Foreign options.stem (owns other) := foreign_owns hne
  have hunseen : Unseen options.stem (ownsApart options.stem other) := unseen_ownsApart hne
  have haside := aside_eventReader hplace hstem hforeign hsource
  exact {
    reads := haside
    next := fun c hc => (haside.next hc).mono fun _ _ => trivial
    take := fun c hc limit => (haside.take limit hc).mono fun _ _ => trivial
    commands := fun fs hfound =>
      { list := list_foreign_without hstem hforeign hfound
        verify := verify_without hstem hunseen hfound
        clean := clean_without hstem hunseen hfound }
    cleaned := fun fs corrupt => spared_clean hunseen fs corrupt
    step := fun fs corrupt _ hsparing => spared_step hunseen corrupt fs hsparing
    apart := fun hcovers => by
      funext text
      unfold ownsApart owns
      rw [hcovers, Bool.not_false, Bool.and_true]
    taken := fun _ ht => isInProgress_eq_covers hne ht }

/-- A directory with the files of two caches, of which the stem of one and a dash begin the other's. -/
def sharedFiles : FileSystem where
  nodes := [([.given "d"], .directory),
    ([.given "d", .given "cache-00000000.gz"], .file [1]),
    ([.given "d", .drawn ".cache-" ".tmp" 0], .file [2]),
    ([.given "d", .given "cache-2-00000000.gz"], .file [31, 139]),
    ([.given "d", .drawn ".cache-2-" ".tmp" 1], .file [4])]
  temporaries := 2

/-- The names in the directory hold no slash. -/
theorem slashless_sharedFiles {name : Name}
    (h : (sharedFiles.node? ([.given "d"] ++ [name])).isSome = true) : Path.Slashless name.text := by
  obtain ⟨entry, he, hname⟩ := (FileSystem.exists_entry_iff _ _).2 h
  simp only [sharedFiles, List.mem_cons, List.not_mem_nil, or_false] at he
  unfold Path.Slashless
  rcases he with rfl | rfl | rfl | rfl | rfl
  · nomatch hname
  · cases hname
    decide
  · cases hname
    decide +kernel
  · cases hname
    decide
  · cases hname
    decide +kernel

/-- What is done with the longer of the two stems overlooks the files of the other cache, so that a cleaning
leaves its segment and its temporary file. -/
theorem stems_keep_apart_extended :
    let options : Options := { directory := "d", stem := "cache-2" }
    let share := options.beside Site.filesPlace [.given "d"] (owns "cache")
    let reader := eventReader Site.filesPlace options Site.source
    let site : Site := ⟨Store.withClock fun _ => .epoch, sharedFiles⟩
    let alone := sharedFiles.without [.given "d"] (owns "cache")
    let cleaned := clean sharedFiles "d" "cache-2" true
    let removing : Cleaning := .removing .inProgress [] 0 [.within "d" (.drawn ".cache-2-" ".tmp" 1)]
    Site.filesPlace.Lawful ∧ Path.Slashless options.stem ∧ options.stem ≠ "cache" ∧
      Site.source.Aside share ∧ reader.Aside share ∧
      (∃ c, reader.forwardsFrom site 0 = .ok c ∧ share.Overlooks fun w => reader.next w c) ∧
      list alone "d" "cache-2" false none = list sharedFiles "d" "cache-2" false none ∧
      verify alone "d" "cache-2" true false = verify sharedFiles "d" "cache-2" true false ∧
      clean alone "d" "cache-2" true = (cleaned.1.without [.given "d"] (owns "cache"), cleaned.2) ∧
      cleaned.1.node? [.given "d", .given "cache-00000000.gz"] = some (.file [1]) ∧
      cleaned.1.node? [.given "d", .drawn ".cache-" ".tmp" 0] = some (.file [2]) ∧
      FileSystem.Spared (owns "cache") sharedFiles (removing.step "d" "cache-2" true sharedFiles).1 := by
  intro options share reader site alone cleaned removing
  have hlawful : Site.filesPlace.Lawful := ⟨fun _ _ => rfl, fun _ => rfl, fun _ _ _ => rfl⟩
  have hslashless : Path.Slashless options.stem := by
    unfold Path.Slashless
    decide
  have hne : options.stem ≠ "cache" := by decide
  have hsource : Site.source.Aside share := aside_store fun _ _ => rfl
  have hkept := stems_keep_apart hlawful options Site.source [.given "d"] hslashless hne hsource
  have hapart : ownsApart options.stem "cache" = owns "cache" := hkept.apart (by decide)
  have hspared := hkept.cleaned
  have hstep := hkept.step
  have hfound : sharedFiles.find "d" = .ok ([.given "d"], .directory) := rfl
  obtain ⟨hlist, hverify, hclean⟩ := hkept.commands sharedFiles hfound
  rw [hapart] at hspared hstep hverify hclean
  have hopened : reader.forwardsFrom site 0 =
      .ok (.cached (startRead Site.filesPlace options Site.source site)) := rfl
  have hfiles := (hspared sharedFiles true).files [.given "d"]
  have hsparing : removing.Sparing (owns "cache") := by
    intro entry he
    rw [List.mem_singleton.1 he]
    decide +kernel
  exact ⟨hlawful, hslashless, hne, hsource, hkept.reads, ⟨_, hopened, hkept.next _ (.opened hopened)⟩,
    hlist false none, hverify true false, hclean (fun _ => slashless_sharedFiles) true,
    hfiles (.given "cache-00000000.gz") [1] (by decide +kernel) rfl,
    hfiles (.drawn ".cache-" ".tmp" 0) [2] (by decide +kernel) rfl, (hstep sharedFiles true removing hsparing).1⟩

/-- A file that is being written for a cache is removed when the directory is cleaned for a stem that begins its
own with a dash. -/
theorem cleaning_removes_temporary_of_extended_stem :
    let temporary : Name := .drawn ".cache-2-" ".tmp" 0
    let fs : FileSystem :=
      { nodes := [([.given "d"], .directory), ([.given "d", temporary], .file [])], temporaries := 1 }
    "cache" ≠ "cache-2" ∧ ownsTemporary "cache-2" temporary.text = true ∧
      fs.node? [.given "d", temporary] = some (.file []) ∧
      (clean fs "d" "cache" false).1.node? [.given "d", temporary] = none ∧
      (clean fs "d" "cache" false).2 = .success [removedInProgress 1] := by
  intro temporary fs
  have hlisted : listInProgress fs "d" "cache" = .ok [.within "d" temporary] := by
    have hnames : fs.list "d" = .ok [temporary] := rfl
    have hfilter : [temporary].filter (isInProgress "cache" ·.text) = [temporary] := by decide +kernel
    unfold listInProgress
    rw [hnames]
    dsimp only
    rw [hfilter, List.map_singleton, List.mergeSort_singleton]
  have hremoved : removeFiles fs 0 [.within "d" temporary] =
      ({ nodes := [([.given "d"], .directory)], temporaries := 1 }, .ok 1) := by
    decide +kernel
  have hclean : clean fs "d" "cache" false =
      ({ nodes := [([.given "d"], .directory)], temporaries := 1 }, .success [removedInProgress 1]) := by
    unfold clean
    rw [hlisted]
    dsimp only
    rw [hremoved]
    rfl
  rw [hclean]
  exact ⟨by decide, by decide +kernel, rfl, rfl, rfl⟩

end Sharing

end Chronicle.Maintenance
