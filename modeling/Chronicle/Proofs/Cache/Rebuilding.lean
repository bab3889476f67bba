import Chronicle.Proofs.Cache.Histories

/-!
# Completing a cache in one read

A directory may hold segments of which it is only known that their records are the first ones of a log.
If these stand in a row and decode, a caching reader that nobody disturbs yields the whole log, from the
cache as far as that goes and then from the store. When it has ended and is closed, the cache holds the
whole log.
-/

namespace Chronicle.Cache

open Site

/-- The records of the first segments, one after the other. -/
def recordsOf (files : FileSystem) (directory stem : String) (count : Nat) : List CachedRecord :=
  ((List.range count).map fun index => (readFile files (segmentPath directory stem index)).1).flatten

/-- A store whose log begins with the records of some segments and can be cached whole. -/
structure Continues (directory stem : String) (count : Nat) (files : FileSystem) (store : Store) : Prop where
  /-- The store was filled by appends. -/
  reached : store.Reached
  /-- The numbers of its events have eight bytes. -/
  bounded : 2 * store.size ≤ Bytes.modulus64
  /-- Its events are within the limits of the format. -/
  storable : ∀ e ∈ store.log.events, (cachedOf e).Storable
  /-- Its first events are those in the segments. -/
  begins : recordsOf files directory stem count <+:
    (store.log.events.map cachedOf).map (·.floored)
  /-- Another segment can be numbered. -/
  few : count < segmentLimit
  /-- The names of the files can be given. -/
  nameable : Nameable directory stem (count + 1) (files.temporaries + 1)

/-- What a read through a cache yields that goes on from the cached events to the rest of a log, and what it
leaves. -/
structure Rebuilt (directory stem : String) (store : Store) (held : Nat) (items : List (Item Nat))
    (later : Site) : Prop where
  /-- The events that were cached come with the timestamps that the cache holds. -/
  items_eq : items = replays (store.log.events.take held) ++ results (store.log.events.drop held)
  /-- These are the same if the clock gives whole milliseconds. -/
  exact_eq : (∀ asked, (store.clock asked).floored = store.clock asked) → items = results store.log.events
  /-- The cache yields the whole log to whoever reads it. -/
  cached : ∀ (reader : Options) (clock : Nat → Timestamp) (limit : Nat), reader.directory = directory →
    reader.stem = stem →
      readFresh reader clock later.files limit = .ok ((replays store.log.events).take limit)

/-- Reads through a cache from the empty position and closes the read: what it yields, and what it
leaves. -/
def readWhole (options : Options) (site : Site) (limit : Nat) :
    Except StoreError (List (Item Nat) × Site) :=
  let reader := cachingReader options
  (fun cursor =>
    let (later, cursor, items) := reader.take limit site cursor
    (items, reader.close later cursor)) <$> reader.forwardsFrom site reader.emptyPosition

section Records

/-- Segments that decode to the records of events are replayed whole, and yield these events. -/
theorem replaySegments_of_records {fs : FileSystem} {paths : List String} {events : List (Placed Nat)}
    (hdecodes : ∀ path ∈ paths, (readFile fs path).2 = none)
    (hrecords : (paths.map fun path => (readFile fs path).1).flatten =
      (events.map cachedOf).map (·.floored))
    (hpositions : ∀ e ∈ events,
      source.codec.deserialize (source.codec.serialize e.position) = .ok e.position) :
    (∀ path ∈ paths, (replayOf source.codec (readFile fs path)).2 = true) ∧
      replaySegments source.codec fs paths = events.map .floored := by
  induction paths generalizing events with
  | nil =>
    have hnil : events = [] := by simpa using hrecords.symm
    rw [hnil]
    exact ⟨fun path hp => absurd hp List.not_mem_nil, rfl⟩
  | cons path rest ih =>
    -- the records of the first segment are those of the first events
    rw [List.map_cons, List.flatten_cons, List.map_map, List.append_eq_map_iff] at hrecords
    obtain ⟨first, later, rfl, hfirst, hlater⟩ := hrecords
    have hread : readFile fs path = ((first.map cachedOf).map (·.floored), none) := by
      rw [List.map_map, ← hdecodes path List.mem_cons_self, hfirst]
    have hreplayed := replayOf_cachedOf fun e he => hpositions e (List.mem_append_left later he)
    rw [← hread] at hreplayed
    obtain ⟨hwhole, hrest⟩ := ih (fun other ho => hdecodes other (List.mem_cons_of_mem path ho))
      (by rw [List.map_map, hlater]) fun e he => hpositions e (List.mem_append_right first he)
    refine ⟨?_, ?_⟩
    · intro other ho
      rcases List.mem_cons.1 ho with rfl | ho
      · rw [hreplayed]
      · exact hwhole other ho
    · rw [replaySegments, hreplayed]
      dsimp only
      rw [if_pos rfl, hrest, List.map_append]

variable {directory stem : String} {place : Location} {count : Nat} {files : FileSystem} {store : Store}

/-- A cache keeps the events whose records are in its segments. -/
theorem Continues.kept (h : Continues directory stem count files store)
    (hrow : Row directory stem place count files)
    (hdecodes : ∀ index < count, (readFile files (segmentPath directory stem index)).2 = none) :
    Kept directory stem place count (recordsOf files directory stem count).length ⟨store, files⟩ := by
  have hheld := h.begins.length_le
  have hrecords := List.prefix_iff_eq_take.1 h.begins
  rw [List.length_map, List.length_map] at hheld
  rw [← List.map_take, ← List.map_take] at hrecords
  have hpaths : ∀ path ∈ (List.range count).map (segmentPath directory stem),
      (readFile files path).2 = none := by
    intro path hp
    obtain ⟨index, hi, rfl⟩ := List.mem_map.1 hp
    exact hdecodes index (List.mem_range.1 hi)
  obtain ⟨hwhole, hreplayed⟩ := replaySegments_of_records hpaths
    (by rw [List.map_map]; exact hrecords)
    fun e he => @denotes_position ⟨store, files⟩ h.reached h.bounded e (List.mem_of_mem_take he)
  refine ⟨h.reached, h.bounded, hrow, ?_, hreplayed, hheld⟩
  intro index hi
  exact hwhole _ (List.mem_map_of_mem (List.mem_range.2 hi))

end Records

section Whole

variable {directory stem : String} {place : Location} {count held : Nat} {site : Site}

/-- A read that nobody disturbs stays alone, and ends at the log of the store. -/
structure LoneRead (directory stem : String) (place : Location) (count held drawn : Nat) (store : Store)
    (site : Site) (cursor : Cursor source.Cursor Nat) : Prop where
  /-- The store is the same. -/
  store_eq : site.store = store
  /-- The read is alone. -/
  solo : ∃ read ended, cursor = .cached read ∧ Solo directory stem place count held drawn site read ended ∧
    ∀ log ∈ ended, log = store.log

/-- Pulls do not disturb a read. -/
theorem LoneRead.pull {options : Options} {drawn : Nat} {store : Store} {later : Site}
    {c next : Cursor source.Cursor Nat} {found : Found Nat}
    (h : LoneRead directory stem place count held drawn store site c)
    (hdirectory : options.directory = directory) (hstem : options.stem = stem)
    (hlimit : count < segmentLimit) (hn : Nameable directory stem (count + 1) (drawn + 1))
    (hstorable : ∀ e ∈ store.log.events, (cachedOf e).Storable)
    (hpull : (reads filesPlace options source).pull site c = (later, next, found)) :
    LoneRead directory stem place count held drawn store later next := by
  obtain ⟨rfl, read, ended, rfl, hsolo, hended⟩ := h
  have hpulled := hsolo.pull hdirectory hstem hlimit hn hstorable
  have hstore := store_pullCached options site read
  cases hpull
  refine ⟨hstore, _, _, rfl, hpulled, ?_⟩
  intro log hlog
  unfold endedAfter at hlog
  split at hlog
  · rcases Option.or_eq_some_iff.1 hlog with hbefore | ⟨-, hnow⟩
    · exact hended log hbefore
    · exact (Option.some.inj hnow).symm
  · exact hended log hlog

/-- A read that is opened behind a cache that keeps some events is to yield as many results as the log has
events. -/
theorem Kept.owed_startRead (h : Kept directory stem place count held site) {options : Options}
    (hdirectory : options.directory = directory) (hstem : options.stem = stem) :
    owed site (.cached (startRead filesPlace options source site)) =
        replays (site.events.take held) ++ results (site.events.drop held) ∧
      (owed site (.cached (startRead filesPlace options source site))).length = site.events.length := by
  have howes : owed site (.cached (startRead filesPlace options source site)) =
      replays (site.events.take held) ++ results (site.events.drop held) := by
    rw [Cache.owed_startRead, hdirectory, hstem, h.replayable_eq, last_position h.reached h.held_le]
    exact List.map_append
  refine ⟨howes, ?_⟩
  have hheld := h.held_le
  rw [howes]
  simp only [replays, results, List.length_append, List.length_map, List.length_take, List.length_drop]
  omega

/-- One read that is run to its end behind a cache that keeps some events yields the whole log, and leaves a
cache that keeps it. -/
theorem Kept.readWhole (h : Kept directory stem place count held site) {options : Options}
    (hdirectory : options.directory = directory) (hstem : options.stem = stem)
    (hwrites : options.readOnly = false) (hlimit : count < segmentLimit)
    (hn : Nameable directory stem (count + 1) (site.files.temporaries + 1))
    (hstorable : ∀ e ∈ site.events, (cachedOf e).Storable) {limit : Nat}
    (hmore : site.events.length < limit) :
    ∃ later, Cache.readWhole options site limit =
        .ok (replays (site.events.take held) ++ results (site.events.drop held), later) ∧
      later.store = site.store ∧
      Kept directory stem place (count + if held < site.events.length then 1 else 0) site.events.length
        later := by
  have hopened : LoneRead directory stem place count held site.files.temporaries site.store site
      (.cached (startRead filesPlace options source site)) :=
    ⟨rfl, _, none, rfl, h.solo hdirectory hstem hwrites (Nat.le_refl _),
      fun log hlog => absurd hlog (Option.not_mem_none log)⟩
  have hforecast : Reads.Forecast (reads filesPlace options source)
      (fun world c => Through c ∧
        LoneRead directory stem place count held site.files.temporaries site.store world c)
      (fun _ => AtEnd) owed (fun _ => turns) :=
    (forecast_reads options).restrict fun _ halone hpull =>
      halone.pull hdirectory hstem hlimit hn hstorable hpull
  rcases htake : (reads filesPlace options source).take limit site
    (.cached (startRead filesPlace options source site)) with ⟨later, cursor, items⟩
  obtain ⟨hitems, ⟨-, hstore, read, ended, rfl, hsolo, hended⟩, hend⟩ :=
    hforecast.of_take ⟨through_startRead options site, hopened⟩ htake
  obtain ⟨howes, hlength⟩ := h.owed_startRead hdirectory hstem
  -- the limit leaves room for more, so the read has ended, and at the log of the store
  have hphase : read.phase = .done := hend (by rw [hlength]; exact hmore)
  obtain ⟨log, rfl⟩ : ∃ log, ended = some log := by
    cases hsolo with
    | replaying _ hreplaying =>
      rw [hphase] at hreplaying
      cases hreplaying
    | tailing _ htailing =>
      rw [hphase] at htailing
      cases htailing
    | done => exact ⟨_, rfl⟩
  obtain rfl : log = site.store.log := hended log rfl
  obtain ⟨⟨hkept, -, -⟩, hclosed, -⟩ := hsolo.close
  refine ⟨closeCached filesPlace source later read, ?_, hclosed.trans hstore, hkept⟩
  have hall : items = replays (site.events.take held) ++ results (site.events.drop held) := by
    rw [hitems, ← howes]
    exact List.take_of_length_le (by rw [hlength]; exact Nat.le_of_lt hmore)
  unfold Cache.readWhole cachingReader eventReader
  dsimp only
  rw [if_pos rfl]
  change Except.ok (_, _) = _
  rw [htake, hall]
  rfl

/-- One read that is run to its end behind segments that hold the first records of a log yields the whole
log, and leaves a cache that yields the whole log. -/
theorem Continues.readWhole {files : FileSystem} {store : Store}
    (h : Continues directory stem count files store) (hrow : Row directory stem place count files)
    (hdecodes : ∀ index < count, (readFile files (segmentPath directory stem index)).2 = none)
    {options : Options} (hdirectory : options.directory = directory) (hstem : options.stem = stem)
    (hwrites : options.readOnly = false) {limit : Nat} (hmore : store.log.events.length < limit) :
    ∃ items later, Cache.readWhole options ⟨store, files⟩ limit = .ok (items, later) ∧
      Rebuilt directory stem store (recordsOf files directory stem count).length items later := by
  obtain ⟨later, hread, hstore, hkept⟩ :=
    (h.kept hrow hdecodes).readWhole hdirectory hstem hwrites h.few h.nameable h.storable hmore
  refine ⟨_, later, hread, rfl, ?_, ?_⟩
  · intro hclock
    dsimp only [Site.events]
    generalize (recordsOf files directory stem count).length = held
    have hfirst : replays (store.log.events.take held) = results (store.log.events.take held) :=
      replays_of_whole_millis h.reached hclock fun e he => List.mem_of_mem_take he
    rw [hfirst]
    unfold results
    rw [← List.map_append, List.take_append_drop]
  · rintro reader clock limit rfl rfl
    have hall : later.events.take (Site.mk store files).events.length = store.log.events := by
      unfold Site.events
      rw [hstore]
      exact List.take_length
    rw [readFresh_eq, hkept.replayable_eq, hall]
    rfl

end Whole

end Chronicle.Cache
