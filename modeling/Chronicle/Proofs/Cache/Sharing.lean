import Chronicle.Proofs.Cache.Reading
import Chronicle.Proofs.Maintenance.Steps

/-!
# A shared cache

Any number of caching readers of one store share a directory and a stem, while others append to the
store and clean the directory. Readers are pulled, dropped and killed, and cleanings take their steps, in
any order. What carries all of them is one invariant: the segments on the shelf hold a prefix of the log,
every open read stands on the shelf, and no cleaning is about to remove a segment.
-/

namespace Chronicle.Cache

open Site Maintenance

/-- A caching reader of the store of a site. -/
def cachingReader (options : Options) : EventReader Site Nat := eventReader filesPlace options source

/-- Whether an open read of a caching reader replays segments. -/
def Cursor.isReplaying : Cursor source.Cursor Nat → Bool
  | .direct _ => false
  | .cached read => read.isReplaying

/-- A read that was opened through a cache. -/
structure Reading where
  /-- How its reader is set up. -/
  options : Options
  /-- The open read, none once it was dropped or killed. -/
  cursor : Option (Cursor source.Cursor Nat)
  /-- What it has yielded. -/
  yield : Yield := {}

namespace Reading

/-- Opens a read from the empty position. -/
def fromStart (options : Options) (site : Site) : Option Reading :=
  match (cachingReader options).forwardsFrom site (cachingReader options).emptyPosition with
  | .ok cursor => some { options := options, cursor := some cursor }
  | .error _ => none

/-- Pulls a read, if it is open. -/
def pull (site : Site) (reading : Reading) : Site × Reading :=
  match reading.cursor with
  | none => (site, reading)
  | some cursor =>
    let (site', cursor', found) := (cachingReader reading.options).pull site cursor
    (site', { reading with
      cursor := some cursor'
      yield := reading.yield.add cursor.isReplaying site.store.log found })

/-- Drops a read, if it is open. -/
def drop (site : Site) (reading : Reading) : Site × Reading :=
  match reading.cursor with
  | none => (site, reading)
  | some cursor => ((cachingReader reading.options).close site cursor, { reading with cursor := none })

/-- Kills a read. What it was writing stays behind. -/
def kill (reading : Reading) : Reading := { reading with cursor := none }

/-- A pull leaves the store as it is. -/
theorem store_pull (site : Site) (reading : Reading) :
    (reading.pull site).1.store = site.store := by
  unfold pull
  split
  · rfl
  · rename_i cursor _
    cases cursor with
    | direct cursor => rfl
    | cached read => exact store_pullCached reading.options site read

/-- Dropping a read leaves the store as it is. -/
theorem store_drop (site : Site) (reading : Reading) :
    (reading.drop site).1.store = site.store := by
  unfold drop
  split
  · rfl
  · rename_i cursor _
    cases cursor with
    | direct cursor => rfl
    | cached read => exact (congrArg Site.store (closeCached_eq site read)).trans (store_stopWriting site read)

end Reading

/-- What happens around a shared cache. -/
inductive Act where
  /-- Somebody appends to the store. -/
  | append (stream : StreamId) (events : List NewEvent)
  /-- Somebody opens a read through the cache; the directory and the stem are the shared ones. -/
  | start (options : Options)
  /-- A read is pulled. -/
  | pull (reader : Nat)
  /-- A read is dropped. -/
  | drop (reader : Nat)
  /-- A read is killed. -/
  | kill (reader : Nat)
  /-- Somebody begins a cleaning. -/
  | clean (corrupt : Bool)
  /-- A cleaning takes a step. -/
  | step (cleaner : Nat)

/-- A store after what was appended in the course of some acts. -/
def appended (store : Store) : List Act → Store
  | [] => store
  | .append stream events :: rest => appended (store.append stream events) rest
  | _ :: rest => appended store rest

/-- A store grows by what is appended. -/
theorem size_le_appended (store : Store) (acts : List Act) : store.size ≤ (appended store acts).size := by
  induction acts generalizing store with
  | nil => exact Nat.le_refl _
  | cons act rest ih =>
    cases act with
    | append stream events =>
      have hp := store.log.prefix_append stream events (store.clock store.asked)
      exact Nat.le_trans hp.length_le (ih (store.append stream events))
    | _ => exact ih store

/-- What is appended in the course of acts and of later ones. -/
theorem appended_append (store : Store) (acts more : List Act) :
    appended store (acts ++ more) = appended (appended store acts) more := by
  induction acts generalizing store with
  | nil => rfl
  | cons act rest ih =>
    cases act with
    | append stream events => exact ih (store.append stream events)
    | _ => exact ih store

/-- A site with all that goes on around its cache. -/
structure Scene where
  /-- The store and the files. -/
  site : Site
  /-- The reads, in the order in which they were opened. -/
  readings : List Reading := []
  /-- The cleanings, in the order in which they began, each with whether it removes segments. -/
  cleanings : List (Bool × Cleaning) := []

namespace Scene

variable (directory stem : String)

/-- Something happens around a cache. -/
def act (scene : Scene) : Act → Scene
  | .append stream events =>
    { scene with site := storePlace.set scene.site (scene.site.store.append stream events) }
  | .start options =>
    let options := { options with directory := directory, stem := stem }
    { scene with readings := scene.readings ++ (Reading.fromStart options scene.site).toList }
  | .pull reader =>
    match scene.readings[reader]? with
    | none => scene
    | some reading =>
      let (site, reading) := reading.pull scene.site
      { scene with site := site, readings := scene.readings.set reader reading }
  | .drop reader =>
    match scene.readings[reader]? with
    | none => scene
    | some reading =>
      let (site, reading) := reading.drop scene.site
      { scene with site := site, readings := scene.readings.set reader reading }
  | .kill reader =>
    match scene.readings[reader]? with
    | none => scene
    | some reading => { scene with readings := scene.readings.set reader reading.kill }
  | .clean corrupt => { scene with cleanings := scene.cleanings ++ [(corrupt, .begun)] }
  | .step cleaner =>
    match scene.cleanings[cleaner]? with
    | none => scene
    | some (corrupt, cleaning) =>
      let (files, cleaning) := cleaning.step directory stem corrupt scene.site.files
      { scene with
        site := filesPlace.set scene.site files
        cleanings := scene.cleanings.set cleaner (corrupt, cleaning) }

/-- Things happen one after the other. -/
def acts (scene : Scene) : List Act → Scene
  | [] => scene
  | act :: rest => (scene.act directory stem act).acts rest

end Scene

section Invariant

variable {directory stem : String} {place : Location} {segments : List (List (Placed Nat))}

/-- A read shares the cache, stands on the shelf while it is open, and is complete once it has ended. -/
structure Reading.Sound (directory stem : String) (segments : List (List (Placed Nat)))
    (events : List (Placed Nat)) (reading : Reading) : Prop where
  /-- It shares the directory. -/
  directory_eq : reading.options.directory = directory
  /-- It shares the stem. -/
  stem_eq : reading.options.stem = stem
  /-- An open read stands on the shelf. -/
  stands : ∀ cursor, reading.cursor = some cursor →
    ∃ read, cursor = .cached read ∧ Stands directory stem segments events read reading.yield
  /-- A read that has ended is complete. -/
  complete : reading.yield.ended.isSome = true → reading.yield.Complete

namespace Reading

/-- A read through the cache that stands is sound. -/
theorem Sound.of_stands {events : List (Placed Nat)} {reading : Reading} {read : SiteRead}
    (hd : reading.options.directory = directory) (hs : reading.options.stem = stem)
    (hc : reading.cursor = some (.cached read))
    (h : Stands directory stem segments events read reading.yield) :
    reading.Sound directory stem segments events where
  directory_eq := hd
  stem_eq := hs
  stands cursor hcursor := by
    rw [hc] at hcursor
    cases hcursor
    exact ⟨read, rfl, h⟩
  complete := h.complete

/-- A read stays sound when the log has grown and segments were added. -/
theorem Sound.grow {events events' : List (Placed Nat)} {reading : Reading}
    (h : reading.Sound directory stem segments events) (he : events <+: events')
    (more : List (List (Placed Nat))) : reading.Sound directory stem (segments ++ more) events' where
  directory_eq := h.directory_eq
  stem_eq := h.stem_eq
  stands cursor hc := by
    obtain ⟨read, hr, hs⟩ := h.stands cursor hc
    exact ⟨read, hr, hs.grow he more⟩
  complete := h.complete

/-- A read is opened, through the cache. -/
theorem fromStart_eq (options : Options) (site : Site) : fromStart options site =
    some { options := options, cursor := some (.cached (startRead filesPlace options source site)) } := by
  unfold fromStart cachingReader eventReader
  dsimp only
  rw [if_pos rfl]

/-- A read is opened, and is sound. -/
theorem sound_fromStart {options : Options} {site : Site}
    (h : Stocked options.directory options.stem place segments site) :
    ∃ reading, fromStart options site = some reading ∧
      reading.Sound options.directory options.stem segments site.events :=
  ⟨_, fromStart_eq options site, .of_stands rfl rfl rfl (stands_startRead h)⟩

/-- A read that is killed is sound. -/
theorem Sound.kill {events : List (Placed Nat)} {reading : Reading}
    (h : reading.Sound directory stem segments events) :
    reading.kill.Sound directory stem segments events where
  directory_eq := h.directory_eq
  stem_eq := h.stem_eq
  stands cursor hc := by cases hc
  complete := h.complete

/-- A read that is dropped is sound, and the shelf is as it was. -/
theorem Sound.drop {site : Site} {reading : Reading}
    (h : reading.Sound directory stem segments site.events)
    (hsite : Stocked directory stem place segments site) :
    Stocked directory stem place segments (reading.drop site).1 ∧
      (reading.drop site).1.store = site.store ∧
      (reading.drop site).2.Sound directory stem segments site.events := by
  obtain ⟨options, cursor, yield⟩ := reading
  obtain rfl := h.directory_eq
  obtain rfl := h.stem_eq
  cases cursor with
  | none => exact ⟨hsite, rfl, h⟩
  | some cursor =>
    obtain ⟨read, rfl, hs⟩ := h.stands cursor rfl
    have hdrop : drop site ⟨options, some (.cached read), yield⟩ =
        (closeCached filesPlace source site read, ⟨options, none, yield⟩) := rfl
    obtain ⟨hstocked, hstore⟩ := stocked_closeCached hsite hs.sink_drawn
    rw [hdrop]
    refine ⟨hstocked, hstore, rfl, rfl, ?_, hs.complete⟩
    intro other hc
    cases hc

/-- A read that is pulled is sound, and segments may have been added to the shelf. -/
theorem Sound.pull {site : Site} {reading : Reading}
    (h : reading.Sound directory stem segments site.events)
    (hsite : Stocked directory stem place segments site) :
    ∃ more, Stocked directory stem place (segments ++ more) (reading.pull site).1 ∧
      (reading.pull site).1.store = site.store ∧
      (reading.pull site).2.Sound directory stem (segments ++ more) site.events := by
  obtain ⟨options, cursor, yield⟩ := reading
  obtain rfl := h.directory_eq
  obtain rfl := h.stem_eq
  cases cursor with
  | none =>
    refine ⟨[], ?_, rfl, ?_⟩
    · rw [List.append_nil]
      exact hsite
    · rw [List.append_nil]
      exact h
  | some cursor =>
    obtain ⟨read, rfl, hs⟩ := h.stands cursor rfl
    obtain ⟨more, hstocked, hstore, hs'⟩ := pullKeeps_pullCached hsite hs
    exact ⟨more, hstocked, hstore, .of_stands rfl rfl rfl hs'⟩

end Reading

namespace Scene

/-- The segments on the shelf hold a prefix of the log, every read is sound, and no cleaning is about to
remove a segment. -/
structure Sound (directory stem : String) (place : Location) (segments : List (List (Placed Nat)))
    (scene : Scene) : Prop where
  /-- The segments on the shelf hold a prefix of the log. -/
  stocked : Stocked directory stem place segments scene.site
  /-- Every read is sound. -/
  readings : ∀ reading ∈ scene.readings, reading.Sound directory stem segments scene.site.events
  /-- No cleaning is about to remove a segment. -/
  cleanings : ∀ entry ∈ scene.cleanings, entry.2.Harmless stem segments.length

variable {scene : Scene}

/-- A scene stays sound when one read has changed and segments were added, while the log is as it was. -/
theorem Sound.change (h : scene.Sound directory stem place segments) {more : List (List (Placed Nat))}
    {site : Site} {reading : Reading} (reader : Nat)
    (hsite : Stocked directory stem place (segments ++ more) site) (hstore : site.store = scene.site.store)
    (hreading : reading.Sound directory stem (segments ++ more) scene.site.events) :
    { scene with site := site, readings := scene.readings.set reader reading }.Sound directory stem place
      (segments ++ more) where
  stocked := hsite
  readings other ho := by
    have hevents : site.events = scene.site.events := by
      unfold Site.events
      rw [hstore]
    dsimp only at ho ⊢
    rw [hevents]
    rcases List.mem_or_eq_of_mem_set ho with ho | rfl
    · exact (h.readings other ho).grow List.prefix_rfl more
    · exact hreading
  cleanings entry he := by
    refine (h.cleanings entry he).mono ?_
    rw [List.length_append]
    omega

/-- An append keeps a scene sound, as long as the numbers of events have eight bytes. -/
theorem Sound.append (h : scene.Sound directory stem place segments) (stream : StreamId)
    (events : List NewEvent)
    (hsize : 2 * (scene.site.store.append stream events).size ≤ Bytes.modulus64) :
    (scene.act directory stem (.append stream events)).Sound directory stem place segments := by
  have hgrown : scene.site.events <+: (scene.site.store.append stream events).log.events :=
    scene.site.store.log.prefix_append stream events _
  refine ⟨⟨h.stocked.reached.append stream events, hsize, h.stocked.shelf, h.stocked.held.trans hgrown⟩,
    ?_, h.cleanings⟩
  intro reading hr
  have hsound := (h.readings reading hr).grow hgrown []
  rw [List.append_nil] at hsound
  exact hsound

/-- A step of a cleaning keeps a scene sound. -/
theorem Sound.step (h : scene.Sound directory stem place segments) (cleaner : Nat) :
    (scene.act directory stem (.step cleaner)).Sound directory stem place segments ∧
      (scene.act directory stem (.step cleaner)).site.store = scene.site.store := by
  unfold act
  dsimp only
  cases hc : scene.cleanings[cleaner]? with
  | none => exact ⟨h, rfl⟩
  | some entry =>
    obtain ⟨corrupt, cleaning⟩ := entry
    have hharmless : cleaning.Harmless stem (segments.map (·.map cachedOf)).length := by
      rw [List.length_map]
      exact h.cleanings _ (List.mem_of_getElem? hc)
    have hstep : Shelf directory stem place (segments.map (·.map cachedOf))
          (cleaning.step directory stem corrupt scene.site.files).1 ∧
        (cleaning.step directory stem corrupt scene.site.files).2.Harmless stem
          (segments.map (·.map cachedOf)).length :=
      Cleaning.shelf_step h.stocked.shelf hharmless
    obtain ⟨hshelf, hnext⟩ := hstep
    refine ⟨⟨h.stocked.refiled hshelf, h.readings, ?_⟩, rfl⟩
    intro other ho
    rcases List.mem_or_eq_of_mem_set ho with ho | rfl
    · exact h.cleanings other ho
    · rw [List.length_map] at hnext
      exact hnext

/-- Whatever happens keeps a scene sound, and may add segments to the shelf. -/
theorem Sound.act (h : scene.Sound directory stem place segments) (act : Act)
    (hsize : 2 * (appended scene.site.store [act]).size ≤ Bytes.modulus64) :
    ∃ more, (scene.act directory stem act).Sound directory stem place (segments ++ more) ∧
      (scene.act directory stem act).site.store = appended scene.site.store [act] := by
  have hnothing {scene' : Scene} (hs : scene'.Sound directory stem place segments) :
      scene'.Sound directory stem place (segments ++ []) := by
    rw [List.append_nil]
    exact hs
  cases act with
  | append stream events => exact ⟨[], hnothing (h.append stream events hsize), rfl⟩
  | start options =>
    have hopened : ∃ reading,
        Reading.fromStart { options with directory := directory, stem := stem } scene.site = some reading ∧
          reading.Sound directory stem segments scene.site.events :=
      Reading.sound_fromStart h.stocked
    obtain ⟨reading, hopen, hsound⟩ := hopened
    refine ⟨[], hnothing ⟨h.stocked, ?_, h.cleanings⟩, rfl⟩
    intro other ho
    unfold Scene.act at ho
    dsimp only at ho
    rw [hopen] at ho
    rcases List.mem_append.1 ho with ho | ho
    · exact h.readings other ho
    · rw [List.mem_singleton.1 ho]
      exact hsound
  | pull reader =>
    unfold Scene.act
    dsimp only
    cases hr : scene.readings[reader]? with
    | none => exact ⟨[], hnothing h, rfl⟩
    | some reading =>
      have hsound := h.readings reading (List.mem_of_getElem? hr)
      obtain ⟨more, hstocked, hstore, hreading⟩ := hsound.pull h.stocked
      exact ⟨more, h.change reader hstocked hstore hreading, hstore⟩
  | drop reader =>
    unfold Scene.act
    dsimp only
    cases hr : scene.readings[reader]? with
    | none => exact ⟨[], hnothing h, rfl⟩
    | some reading =>
      have hsound := h.readings reading (List.mem_of_getElem? hr)
      obtain ⟨hstocked, hstore, hreading⟩ := hsound.drop h.stocked
      rw [← List.append_nil segments] at hstocked hreading
      exact ⟨[], h.change reader hstocked hstore hreading, hstore⟩
  | kill reader =>
    unfold Scene.act
    dsimp only
    cases hr : scene.readings[reader]? with
    | none => exact ⟨[], hnothing h, rfl⟩
    | some reading =>
      have hsound := h.readings reading (List.mem_of_getElem? hr)
      have hstocked := h.stocked
      have hreading := hsound.kill
      rw [← List.append_nil segments] at hstocked hreading
      exact ⟨[], h.change reader hstocked rfl hreading, rfl⟩
  | clean corrupt =>
    refine ⟨[], hnothing ⟨h.stocked, h.readings, ?_⟩, rfl⟩
    intro other ho
    rcases List.mem_append.1 ho with ho | ho
    · exact h.cleanings other ho
    · rw [List.mem_singleton.1 ho]
      trivial
  | step cleaner =>
    obtain ⟨hs, hstore⟩ := h.step cleaner
    exact ⟨[], hnothing hs, hstore⟩

/-- Whatever happens in any order keeps a scene sound, and may add segments to the shelf. -/
theorem Sound.acts (h : scene.Sound directory stem place segments) (acts : List Act)
    (hsize : 2 * (appended scene.site.store acts).size ≤ Bytes.modulus64) :
    ∃ more, (scene.acts directory stem acts).Sound directory stem place (segments ++ more) ∧
      (scene.acts directory stem acts).site.store = appended scene.site.store acts := by
  induction acts generalizing scene segments with
  | nil =>
    refine ⟨[], ?_, rfl⟩
    rw [List.append_nil]
    exact h
  | cons act rest ih =>
    have hsplit : appended scene.site.store (act :: rest) =
        appended (appended scene.site.store [act]) rest := appended_append scene.site.store [act] rest
    rw [hsplit] at hsize ⊢
    have hfirst : 2 * (appended scene.site.store [act]).size ≤ Bytes.modulus64 :=
      Nat.le_trans (Nat.mul_le_mul_left 2 (size_le_appended _ rest)) hsize
    obtain ⟨some, hsome, hstore⟩ := h.act act hfirst
    rw [← hstore] at hsize ⊢
    obtain ⟨more, hmore, hlater⟩ := ih hsome hsize
    rw [List.append_assoc] at hmore
    exact ⟨some ++ more, hmore, hlater⟩

end Scene

/-- The segments of a cache are numbered from 0 without a gap, all decode, and hold a prefix of the log,
with timestamps in whole milliseconds. -/
structure HoldsPrefix (directory stem : String) (site : Site) (count : Nat) : Prop where
  /-- The segments are numbered without a gap. -/
  scanned : scanSegments site.files directory stem = .ok ⟨List.range count, []⟩
  /-- Each decodes to its end. -/
  decoded : ∀ index < count, (readFile site.files (segmentPath directory stem index)).2 = none
  /-- Their records are the first events of the log. -/
  held : ∃ held ≤ site.events.length,
    ((List.range count).flatMap fun index => (readFile site.files (segmentPath directory stem index)).1) =
      (site.events.take held).map fun event => (cachedOf event).floored

/-- A stocked site holds a prefix of its log. -/
theorem Site.Stocked.holdsPrefix {site : Site} (h : Stocked directory stem place segments site) :
    HoldsPrefix directory stem site segments.length := by
  have hread : ∀ index (hi : index < segments.length),
      readFile site.files (segmentPath directory stem index) =
        ((segments[index].map cachedOf).map (·.floored), none) := by
    intro index hi
    exact h.shelf.readFile_segment (getElem?_records hi)
  refine ⟨?_, ?_, segments.flatten.length, h.held.length_le, ?_⟩
  · have hscan := h.shelf.scan
    rw [List.length_map] at hscan
    exact hscan
  · intro index hi
    rw [hread index hi]
  · have hmap : (List.range segments.length).map
          (fun index => (readFile site.files (segmentPath directory stem index)).1) =
        segments.map fun records => records.map fun event => (cachedOf event).floored := by
      refine List.ext_getElem ?_ ?_
      · rw [List.length_map, List.length_map, List.length_range]
      · intro index hi hi'
        rw [List.length_map] at hi'
        rw [List.getElem_map, List.getElem_map, List.getElem_range, hread index hi', List.map_map]
        rfl
    rw [List.flatMap_def, hmap, ← List.prefix_iff_eq_take.1 h.held, List.map_flatten]

/-- However appends, reads that are pulled, dropped or killed, and cleanings interleave around a cache in
a directory that was empty: at every moment the segments are numbered without a gap, decode and hold a
prefix of the log, and none of them ever changes or goes away; and a read that has ended has yielded the
log as it was when its tail ended, first what was replayed and then the rest. The numbers of all events
have eight bytes. -/
theorem shared_cache_holds_prefix (directory stem : String) (site : Site) (acts more : List Act)
    (hempty : site.files.list directory = .ok []) (hstore : site.store.Reached)
    (hsize : 2 * (appended site.store (acts ++ more)).size ≤ Bytes.modulus64) :
    let now := Scene.acts directory stem { site := site } acts
    let later := now.acts directory stem more
    now.site.store = appended site.store acts ∧
      (∃ count count', HoldsPrefix directory stem now.site count ∧
        HoldsPrefix directory stem later.site count' ∧ count ≤ count' ∧
        ∀ index < count, later.site.files.find (segmentPath directory stem index) =
          now.site.files.find (segmentPath directory stem index)) ∧
      ∀ reading ∈ now.readings, ∀ log, reading.yield.ended = some log →
        ∃ replayed ≤ log.events.length,
          reading.yield.replayed = replays (log.events.take replayed) ∧
          reading.yield.passed = results (log.events.drop replayed) := by
  intro now later
  obtain ⟨place, hshelf⟩ := Shelf.of_list_nil hempty
  rw [appended_append] at hsize
  have hsize' : 2 * (appended site.store acts).size ≤ Bytes.modulus64 :=
    Nat.le_trans (Nat.mul_le_mul_left 2 (size_le_appended _ more)) hsize
  have hbounded : 2 * site.store.size ≤ Bytes.modulus64 :=
    Nat.le_trans (Nat.mul_le_mul_left 2 (size_le_appended _ acts)) hsize'
  have hstart : Scene.Sound directory stem place [] { site := site } := {
    stocked := ⟨hstore, hbounded, hshelf, List.nil_prefix⟩
    readings := fun _ hr => absurd hr List.not_mem_nil
    cleanings := fun _ hc => absurd hc List.not_mem_nil }
  obtain ⟨segments, hnow, hstorenow⟩ := hstart.acts acts hsize'
  rw [List.nil_append] at hnow
  rw [← hstorenow] at hsize
  obtain ⟨added, hlater, -⟩ := hnow.acts more hsize
  refine ⟨hstorenow, ⟨segments.length, (segments ++ added).length, hnow.stocked.holdsPrefix,
    hlater.stocked.holdsPrefix, ?_, ?_⟩, ?_⟩
  · rw [List.length_append]
    omega
  · intro index hi
    have hi' : index < (segments ++ added).length := by
      rw [List.length_append]
      omega
    have hfind := hlater.stocked.shelf.file (getElem?_records hi')
    rw [List.getElem_append_left hi] at hfind
    rw [hfind, hnow.stocked.shelf.file (getElem?_records hi)]
  · intro reading hr log hlog
    have hended : reading.yield.ended.isSome = true := by
      rw [hlog]
      rfl
    obtain ⟨log', replayed, hle, hyield⟩ := (hnow.readings reading hr).complete hended
    rw [hyield] at hlog ⊢
    cases hlog
    exact ⟨replayed, hle, rfl, rfl⟩

/-- Two reads race for the first segment, meet an event that arrives meanwhile, and both end, while a third
is killed and what it wrote is about to be cleaned away. -/
theorem shared_cache_holds_prefix_racing :
    let orders : StreamId := ⟨"orders", "1", by decide⟩
    let site : Site := ⟨(Store.withClock fun _ => .epoch).append orders [⟨"Placed", [1], []⟩],
      { nodes := [([.given "cache"], .directory)] }⟩
    let acts : List Act := [.start { directory := "" }, .start { directory := "" },
      .start { directory := "" }, .pull 0, .pull 0, .pull 1, .pull 1, .pull 2, .pull 2, .kill 2,
      .append orders [⟨"Paid", [2], []⟩], .pull 0, .pull 1, .pull 1, .pull 0]
    let more : List Act := [.clean true, .step 0, .step 0, .step 0,
      .start { directory := "", readOnly := true }, .pull 3]
    let now := Scene.acts "cache" "events" { site := site } acts
    site.files.list "cache" = .ok [] ∧ site.store.Reached ∧
      2 * (appended site.store (acts ++ more)).size ≤ Bytes.modulus64 ∧
      now.readings.map (·.yield.ended.isSome) = [true, true, false] ∧
      now.readings.map (·.yield.passed.length) = [2, 2, 1] ∧
      (now.site.files.node? [.given "cache", .given (segmentName "events" 0)]).isSome = true ∧
      ∃ count, HoldsPrefix "cache" "events" now.site count := by
  intro orders site acts more now
  have hempty : site.files.list "cache" = .ok [] := rfl
  have hstore : site.store.Reached := .append _ _ (.start _)
  have hsize : 2 * (appended site.store (acts ++ more)).size ≤ Bytes.modulus64 := by decide
  obtain ⟨-, ⟨count, -, hnow, -⟩, -⟩ :=
    shared_cache_holds_prefix "cache" "events" site acts more hempty hstore hsize
  have hfacts : now.readings.map (·.yield.ended.isSome) = [true, true, false] ∧
      now.readings.map (·.yield.passed.length) = [2, 2, 1] ∧
      (now.site.files.node? [.given "cache", .given (segmentName "events" 0)]).isSome = true := by
    decide +kernel
  obtain ⟨hended, hpassed, hfile⟩ := hfacts
  exact ⟨hempty, hstore, hsize, hended, hpassed, hfile, count, hnow⟩

end Invariant

end Chronicle.Cache
