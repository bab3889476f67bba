import Chronicle.Proofs.Cache.Sharing

/-!
# Deleting the segments of a cache

Readers share a cache of a store, and at any time all of its segments may be deleted. A read that was
opened on an empty cache does not care, and neither does one that is opened later. But a read that had
found segments goes on with the number that the next segment had before the deletion, and if the cache
has been built anew up to that number by the time the read ends, its segment joins a row that it does not
continue. A later read then yields events twice.

Nothing else goes wrong. As long as no such stale read has put a segment in place, the segments hold a
prefix of the log, and all other reads yield the log.
-/

namespace Chronicle.Cache

open Site

/-- Removes all segments of a cache, one file after the other. -/
def deleteSegments (fs : FileSystem) (directory stem : String) : FileSystem :=
  match fs.list directory with
  | .ok names =>
    (names.filter fun name => (segmentIndex? stem name.text).isSome).foldl
      (fun fs name => fs.discardFile (.within directory name)) fs
  | .error _ => fs

/-- What happens around a shared cache whose segments may be deleted. -/
inductive Deed where
  /-- Somebody appends to the store. -/
  | append (stream : StreamId) (events : List NewEvent)
  /-- Somebody opens a read through the cache; the directory and the stem are the shared ones. -/
  | start (options : Options)
  /-- A read is pulled. -/
  | pull (reader : Nat)
  /-- A read is dropped. -/
  | drop (reader : Nat)
  /-- A read is killed. -/
  | kill (reader : Nat)
  /-- Somebody deletes all segments. -/
  | delete

/-- Whether a read is under way and goes by segments that it has found. -/
def Reading.reliesOnSegments (reading : Reading) : Bool :=
  match reading.cursor with
  | some (.cached read) => reading.yield.ended.isNone && read.nextIndex != 0
  | _ => false

/-- A read, and whether segments that it relies on were deleted. -/
structure Tracked where
  /-- The read. -/
  reading : Reading
  /-- Whether it goes by segments that are gone. -/
  stale : Bool := false

/-- A read after a deletion. -/
def Tracked.afterDeletion (tracked : Tracked) : Tracked :=
  { tracked with stale := tracked.stale || tracked.reading.reliesOnSegments }

/-- A site with the reads through its cache. -/
structure Course where
  /-- The store and the files. -/
  site : Site
  /-- The reads, in the order in which they were opened. -/
  readings : List Tracked := []
  /-- Whether a stale read has put a segment in place. -/
  spoilt : Bool := false

section

variable (directory stem : String)

/-- The segments that are found in a cache, if its directory can be listed. -/
def found (site : Site) : Option SegmentScan := (scanSegments site.files directory stem).toOption

namespace Course

/-- A deed around a cache. -/
def deed (course : Course) : Deed → Course
  | .append stream events =>
    { course with site := storePlace.set course.site (course.site.store.append stream events) }
  | .start options =>
    let options := { options with directory := directory, stem := stem }
    { course with
      readings := course.readings ++
        (Reading.fromStart options course.site).toList.map fun reading => { reading := reading } }
  | .pull reader =>
    match course.readings[reader]? with
    | none => course
    | some tracked =>
      let (site, reading) := tracked.reading.pull course.site
      { site := site
        readings := course.readings.set reader { tracked with reading := reading }
        spoilt := course.spoilt ||
          (tracked.stale && found directory stem site != found directory stem course.site) }
  | .drop reader =>
    match course.readings[reader]? with
    | none => course
    | some tracked =>
      let (site, reading) := tracked.reading.drop course.site
      { course with
        site := site
        readings := course.readings.set reader { tracked with reading := reading } }
  | .kill reader =>
    match course.readings[reader]? with
    | none => course
    | some tracked =>
      { course with
        readings := course.readings.set reader { tracked with reading := tracked.reading.kill } }
  | .delete =>
    { course with
      site := filesPlace.set course.site (deleteSegments course.site.files directory stem)
      readings := course.readings.map Tracked.afterDeletion }

/-- Deeds one after the other. -/
def deeds (course : Course) : List Deed → Course
  | [] => course
  | deed :: rest => (course.deed directory stem deed).deeds rest

end Course

end

section Emptying

variable {directory stem : String} {place : Location} {fs : FileSystem}

/-- A file that a path leads to by a name in a directory is discarded there. -/
theorem discardFile_within (hd : fs.find directory = .ok (place, .directory)) {name : String}
    {bytes : List UInt8} (hne : name ≠ "")
    (hf : fs.find (Path.join directory name) = .ok (place ++ [.given name], .file bytes)) :
    fs.discardFile (.within directory (.given name)) = fs.erase (place ++ [.given name]) := by
  obtain ⟨hcheck, -, hnode⟩ := FileSystem.find_eq_ok_iff.1 hf
  have hname : Path.Slashless name :=
    FileSystem.slashless_of_find hf (.given name) (List.mem_append_right _ List.mem_cons_self)
  have hslot : fs.slot (Entry.within directory (.given name)).path = .ok (place, name) :=
    FileSystem.slot_join hd hname hne hcheck
  have hplace : fs.placeOf (.within directory (.given name)) = .ok (place ++ [.given name]) := by
    unfold FileSystem.placeOf
    rw [hslot]
    rfl
  unfold FileSystem.discardFile FileSystem.removeFile
  rw [hplace]
  dsimp only [Bind.bind, Except.bind]
  rw [hnode]
  rfl

/-- Files in a directory that are named once each are all discarded. Under no other name does anything
change. -/
theorem discard_each {names : List Name} (hd : fs.find directory = .ok (place, .directory))
    (hnodup : names.Nodup) (hfiles : ∀ name ∈ names, ∃ text bytes, name = .given text ∧ text ≠ "" ∧
      fs.find (Path.join directory text) = .ok (place ++ [name], .file bytes)) :
    (names.foldl (fun fs name => fs.discardFile (.within directory name)) fs).find directory =
        .ok (place, .directory) ∧
      ∀ name, (names.foldl (fun fs name => fs.discardFile (.within directory name)) fs).node?
        (place ++ [name]) = if name ∈ names then none else fs.node? (place ++ [name]) := by
  induction names generalizing fs with
  | nil => exact ⟨hd, fun name => rfl⟩
  | cons first rest ih =>
    obtain ⟨hnot, hrest⟩ := List.nodup_cons.1 hnodup
    obtain ⟨text, bytes, rfl, hne, hf⟩ := hfiles first List.mem_cons_self
    have hnode := (FileSystem.find_eq_ok_iff.1 hf).2.2
    have hkeeps : FileSystem.Undisturbed place (fun other => other ≠ .given text) fs
        (fs.erase (place ++ [.given text])) :=
      .erase (.inl (by rw [hnode]; nofun)) (fun hother => hother rfl)
    have hlater : ∀ name ∈ rest, ∃ text' bytes, name = .given text' ∧ text' ≠ "" ∧
        (fs.erase (place ++ [.given text])).find (Path.join directory text') =
          .ok (place ++ [name], .file bytes) := by
      intro name hn
      obtain ⟨text', bytes', rfl, hne', hf'⟩ := hfiles name (List.mem_cons_of_mem _ hn)
      refine ⟨text', bytes', rfl, hne', hkeeps.find_watched ?_ hf'⟩
      intro he
      exact hnot (he ▸ hn)
    obtain ⟨hd', hnodes⟩ := ih (hkeeps.find_directory hd) hrest hlater
    rw [List.foldl_cons, discardFile_within hd hne hf]
    refine ⟨hd', fun name => ?_⟩
    rw [hnodes]
    by_cases he : name = .given text
    · rw [he, FileSystem.node?_erase_self, if_pos List.mem_cons_self, ite_self]
    · rw [hkeeps.names name he]
      simp only [List.mem_cons, he, false_or]

/-- Deleting the segments of a shelf leaves a shelf without segments. -/
theorem Shelf.deleted {segments : List (List CachedRecord)} (h : Shelf directory stem place segments fs) :
    Shelf directory stem place [] (deleteSegments fs directory stem) := by
  obtain ⟨names, hl, hnodup, hm⟩ := FileSystem.list_of_find h.found
  have hmem : ∀ name, name ∈ names.filter (fun name => (segmentIndex? stem name.text).isSome) ↔
      (fs.node? (place ++ [name])).isSome = true ∧ IsSegment stem name := by
    intro name
    rw [List.mem_filter, hm]
    rfl
  have hfiles : ∀ name ∈ names.filter (fun name => (segmentIndex? stem name.text).isSome),
      ∃ text bytes, name = .given text ∧ text ≠ "" ∧
        fs.find (Path.join directory text) = .ok (place ++ [name], .file bytes) := by
    intro name hn
    obtain ⟨hsome, hseg⟩ := (hmem name).1 hn
    obtain ⟨index, hi, rfl⟩ := h.only hseg hsome
    exact ⟨_, _, rfl, (segmentName_ne stem index).1, h.file (List.getElem?_eq_getElem hi)⟩
  obtain ⟨hd, hnodes⟩ := discard_each h.found (hnodup.filter _) hfiles
  unfold deleteSegments
  rw [hl]
  refine .of_none hd ?_
  intro name hseg
  rw [hnodes]
  split
  · rfl
  · rename_i hn
    rw [← Option.not_isSome_iff_eq_none]
    exact fun hsome => hn ((hmem name).2 ⟨hsome, hseg⟩)

end Emptying

section Scanning

/-- A segment among some names is scanned, before a gap or after it. -/
theorem mem_scanNames {stem : String} {names : List Name} {name : Name} {index : Nat} (hn : name ∈ names)
    (hi : segmentIndex? stem name.text = some index) :
    index ∈ (scanNames stem names).replayable ++ (scanNames stem names).stranded :=
  (scanNames_perm stem names).mem_iff.2 (List.mem_filterMap.2 ⟨name, hn, hi⟩)

variable {directory stem : String} {place : Location} {segments : List (List CachedRecord)}
  {fs : FileSystem} {index : Nat} {records : List CachedRecord} {sink : FileWriter}

/-- Finishing a file after which no other segments are found than before leaves the shelf as it is. -/
theorem Shelf.finish_unseen (h : Shelf directory stem place segments fs)
    (hp : Shelf.Pending directory stem index records sink)
    (hscan : (scanSegments (sink.finish fs).1 directory stem).toOption =
      (scanSegments fs directory stem).toOption) :
    Shelf directory stem place segments (sink.finish fs).1 := by
  unfold FileWriter.finish at hscan ⊢
  cases hm : fs.moveToFree sink.temporary sink.destination (Gzip.pack sink.contents) with
  | error e =>
    cases e with
    | alreadyExists => exact h.discard hp
    | _ => exact h.discard hp
  | ok fs' =>
    rw [hm] at hscan
    dsimp only at hscan ⊢
    obtain ⟨old, target, name, hs, -, -, hfree, hfs⟩ := FileSystem.moveToFree_eq_ok hm
    refine h.elsewhere hp hm hs ?_
    rintro ⟨rfl, hseg⟩
    -- a file that was moved to a segment is found, so its name was taken before
    rw [hp.destination_eq] at hs
    obtain ⟨-, -, rfl, hlimit, -⟩ := h.slot_segmentPath hs hseg
    have hkeeps : FileSystem.Undisturbed target (fun _ => False) fs fs' :=
      .moveToFree hp.not_given id (fun _ _ _ _ hw => hw) hm
    obtain ⟨names, hl, -, hnames⟩ := FileSystem.list_of_find (hkeeps.find_directory h.found)
    have hin : Name.given (segmentName stem index) ∈ names := by
      rw [hnames, hfs, FileSystem.node?_put_self]
      rfl
    have hfound := mem_scanNames hin (segmentIndex?_segmentName hlimit)
    have hsame : scanNames stem names = ⟨List.range segments.length, []⟩ := by
      rw [h.scan, scanSegments_of_list hl] at hscan
      exact Option.some.inj hscan
    rw [hsame, List.append_nil, List.mem_range] at hfound
    have hf := h.file (List.getElem?_eq_getElem hfound)
    rw [(FileSystem.find_eq_ok_iff.1 hf).2.2] at hfree
    cases hfree

end Scanning

section Adrift

variable {options : Options} {place : Location} {segments : List (List (Placed Nat))} {site : Site}
  {read : SiteRead} {yield : Yield} {events : List (Placed Nat)}

/-- A read that has lost its segments still writes a file of its own, if any, and passes the log. -/
structure Adrift (directory stem : String) (read : SiteRead) : Prop where
  /-- What it writes is a file of its own. -/
  holds : ∃ records, SinkHolds directory stem read records
  /-- It writes nothing before the tail. -/
  replaying : read.phase = .replaying → read.sink = none
  /-- Its tail is a read of the log. -/
  tail : ∀ cursor, read.phase = .tail cursor → ∃ passed, cursor = tailCursor passed

/-- A read that writes nothing is adrift, wherever it stands. -/
theorem Adrift.of_no_sink {directory stem : String} (hs : read.sink = none)
    (ht : ∀ cursor, read.phase = .tail cursor → ∃ passed, cursor = tailCursor passed) :
    Adrift directory stem read := by
  refine ⟨⟨[], ?_⟩, fun _ => hs, ht⟩
  unfold SinkHolds
  rw [hs]
  exact fun _ => rfl

/-- A read that stood on a shelf is adrift when the shelf is gone. -/
theorem Stands.adrift {directory stem : String} (h : Stands directory stem segments events read yield) :
    Adrift directory stem read := by
  cases h with
  | replaying hn hphase hr =>
    exact .of_no_sink hr.sink_eq fun cursor hc => by rw [hphase] at hc; cases hc
  | tailing hn hphase ht =>
    refine ⟨⟨_, ht.sink_holds⟩, ?_, ?_⟩
    · intro hp
      rw [hphase] at hp
      cases hp
    · intro cursor hc
      rw [hphase] at hc
      cases hc
      exact ⟨_, rfl⟩
  | done hphase hsink hc =>
    exact .of_no_sink hsink fun cursor hc => by rw [hphase] at hc; cases hc

/-- What a read writes has no name of a segment. -/
theorem Adrift.sink_drawn {directory stem : String} (h : Adrift directory stem read) {sink : FileWriter}
    (hs : read.sink = some sink) :
    ∃ records, Shelf.Pending directory stem read.nextIndex records sink := by
  obtain ⟨records, hholds⟩ := h.holds
  unfold SinkHolds at hholds
  rw [hs] at hholds
  exact ⟨records, hholds.2⟩

/-- Replaying a record leads to no tail and writes nothing. -/
theorem adrift_replayRecord {directory stem : String} (hphase : read.phase = .replaying)
    (hsink : read.sink = none) (file : FileReader) :
    Adrift directory stem (replayRecord source read file).1 := by
  have hkeeps : (replayRecord source read file).1.phase = read.phase ∧
      (replayRecord source read file).1.sink = read.sink := by
    unfold replayRecord
    split
    · exact ⟨rfl, rfl⟩
    · exact ⟨rfl, rfl⟩
    · split
      · exact ⟨rfl, rfl⟩
      · exact ⟨rfl, rfl⟩
  refine .of_no_sink (hkeeps.2.trans hsink) fun cursor hc => ?_
  rw [hkeeps.1, hphase] at hc
  cases hc

/-- Opening a segment writes nothing, and a tail that is opened is a read of the log. -/
theorem adrift_openNext {directory stem : String} (hphase : read.phase = .replaying)
    (hsink : read.sink = none) : Adrift directory stem (openNext filesPlace source site read).1 := by
  unfold openNext
  split
  · split
    · exact .of_no_sink hsink fun cursor hc => by rw [hphase] at hc; cases hc
    · exact .of_no_sink hsink fun cursor hc => by
        unfold abandonCache at hc
        rw [hphase] at hc
        cases hc
  · split
    · rename_i cursor hopen
      refine .of_no_sink hsink fun other hc => ?_
      cases hc
      cases hopen
      exact ⟨read.lastPosition, rfl⟩
    · exact .of_no_sink hsink fun cursor hc => by cases hc

/-- A pull of a read that is adrift leaves the shelf as it is, as long as no other segments are found after
it than before. -/
theorem adrift_pullCached (h : Stocked options.directory options.stem place segments site)
    (ha : Adrift options.directory options.stem read)
    (hscan : found options.directory options.stem (pullCached filesPlace options source site read).1 =
      found options.directory options.stem site) :
    Stocked options.directory options.stem place segments
        (pullCached filesPlace options source site read).1 ∧
      Adrift options.directory options.stem (pullCached filesPlace options source site read).2.1 := by
  unfold pullCached at hscan ⊢
  cases hphase : read.phase with
  | done =>
    exact ⟨h, ha⟩
  | replaying =>
    have hsink := ha.replaying hphase
    cases read.current with
    | some file => exact ⟨h, adrift_replayRecord hphase hsink file⟩
    | none => exact ⟨h, adrift_openNext hphase hsink⟩
  | tail cursor =>
    obtain ⟨passed, rfl⟩ := ha.tail cursor hphase
    rw [hphase] at hscan
    dsimp only at hscan ⊢
    cases he : site.events[passed]? with
    | some e =>
      obtain ⟨records, hholds⟩ := ha.holds
      have hwrote := wrote_writeThrough h (hholds.phase (.tail (tailCursor (passed + 1))))
        (h.number_fits (List.mem_of_getElem? he))
      rw [pullTail_of_some options read he]
      refine ⟨hwrote.stocked, ⟨_, hwrote.holds⟩, ?_, ?_⟩
      · intro hp
        rw [hwrote.phase_eq] at hp
        cases hp
      · intro other hp
        rw [hwrote.phase_eq] at hp
        cases hp
        exact ⟨passed + 1, rfl⟩
    | none =>
      rw [pullTail_of_none options read he] at hscan ⊢
      refine ⟨?_, ?_⟩
      · unfold finishSegment at hscan ⊢
        dsimp only at hscan ⊢
        cases hsink : read.sink with
        | none => exact h
        | some sink =>
          obtain ⟨records, hpending⟩ := ha.sink_drawn hsink
          rw [hsink] at hscan
          exact h.refiled (h.shelf.finish_unseen hpending hscan)
      · rw [finishSegment_read]
        exact .of_no_sink rfl fun other hc => by cases hc

end Adrift

section Reads

variable {directory stem : String} {place : Location} {segments : List (List (Placed Nat))}
  {events : List (Placed Nat)} {site : Site} {reading : Reading}

/-- A read through the cache that is adrift while it is open. -/
structure Reading.Adrift (directory stem : String) (reading : Reading) : Prop where
  /-- It shares the directory. -/
  directory_eq : reading.options.directory = directory
  /-- It shares the stem. -/
  stem_eq : reading.options.stem = stem
  /-- It is adrift. -/
  adrift : ∀ cursor, reading.cursor = some cursor →
    ∃ read, cursor = .cached read ∧ Cache.Adrift directory stem read

namespace Reading

/-- A sound read that has ended has yielded the log as it was, first what was replayed and then the
rest. -/
theorem Sound.yielded {events : List (Placed Nat)} {reading : Reading}
    (h : reading.Sound directory stem segments events) {log : Log}
    (hlog : reading.yield.ended = some log) :
    ∃ replayed ≤ log.events.length,
      reading.yield.replayed = replays (log.events.take replayed) ∧
      reading.yield.passed = results (log.events.drop replayed) := by
  have hended : reading.yield.ended.isSome = true := by
    rw [hlog]
    rfl
  obtain ⟨log', replayed, hle, hyield⟩ := h.complete hended
  rw [hyield] at hlog ⊢
  cases hlog
  exact ⟨replayed, hle, rfl, rfl⟩

/-- A sound read is adrift when the shelf is gone. -/
theorem Sound.adrift (h : reading.Sound directory stem segments events) :
    reading.Adrift directory stem where
  directory_eq := h.directory_eq
  stem_eq := h.stem_eq
  adrift cursor hc := by
    obtain ⟨read, hread, hs⟩ := h.stands cursor hc
    exact ⟨read, hread, hs.adrift⟩

/-- A sound read that does not rely on segments is sound without them. -/
theorem Sound.without_segments (h : reading.Sound directory stem segments events)
    (hr : reading.reliesOnSegments = false) : reading.Sound directory stem [] events where
  directory_eq := h.directory_eq
  stem_eq := h.stem_eq
  complete := h.complete
  stands cursor hc := by
    obtain ⟨read, rfl, hs⟩ := h.stands cursor hc
    refine ⟨read, rfl, ?_⟩
    unfold reliesOnSegments at hr
    rw [hc] at hr
    dsimp only at hr
    cases hs with
    | replaying hn hphase hreplaying =>
      have hzero : read.nextIndex = 0 := by
        simpa [hreplaying.yield_eq] using hr
      have hopened := Nat.eq_zero_of_le_zero (hzero ▸ hreplaying.opened_le)
      subst hopened
      have hevents := hreplaying.events_eq
      rw [List.take_zero] at hevents
      exact .replaying (Nat.le_of_eq hzero) hphase { hreplaying with events_eq := hevents }
    | tailing hn hphase htailing =>
      have hzero : read.nextIndex = 0 := by
        simpa [htailing.yield_eq] using hr
      have hreplayed := htailing.replayed_eq
      rw [hzero, List.take_zero] at hreplayed
      refine .tailing (Nat.le_of_eq hzero) hphase { htailing with replayed_eq := ?_ }
      rw [hreplayed, List.take_nil]
    | done hphase hsink hcomplete => exact .done hphase hsink hcomplete

/-- A read that is killed is adrift no more than before. -/
theorem Adrift.kill (h : reading.Adrift directory stem) : reading.kill.Adrift directory stem where
  directory_eq := h.directory_eq
  stem_eq := h.stem_eq
  adrift cursor hc := by cases hc

/-- Dropping a read that is adrift leaves the shelf as it is. -/
theorem Adrift.drop (h : reading.Adrift directory stem)
    (hsite : Stocked directory stem place segments site) :
    Stocked directory stem place segments (reading.drop site).1 ∧
      (reading.drop site).2.Adrift directory stem := by
  obtain ⟨options, cursor, yield⟩ := reading
  obtain rfl := h.directory_eq
  obtain rfl := h.stem_eq
  cases cursor with
  | none => exact ⟨hsite, h⟩
  | some cursor =>
    obtain ⟨read, rfl, ha⟩ := h.adrift cursor rfl
    have hdrop : drop site ⟨options, some (.cached read), yield⟩ =
        (closeCached filesPlace source site read, ⟨options, none, yield⟩) := rfl
    rw [hdrop]
    refine ⟨(stocked_closeCached hsite ha.sink_drawn).1, rfl, rfl, ?_⟩
    intro other hc
    cases hc

/-- Pulling a read that is adrift leaves the shelf as it is, as long as no other segments are found after
it than before. -/
theorem Adrift.pull (h : reading.Adrift directory stem)
    (hsite : Stocked directory stem place segments site)
    (hscan : found directory stem (reading.pull site).1 = found directory stem site) :
    Stocked directory stem place segments (reading.pull site).1 ∧
      (reading.pull site).2.Adrift directory stem := by
  obtain ⟨options, cursor, yield⟩ := reading
  obtain rfl := h.directory_eq
  obtain rfl := h.stem_eq
  cases cursor with
  | none => exact ⟨hsite, h⟩
  | some cursor =>
    obtain ⟨read, rfl, ha⟩ := h.adrift cursor rfl
    obtain ⟨hstocked, ha'⟩ := adrift_pullCached hsite ha hscan
    refine ⟨hstocked, rfl, rfl, ?_⟩
    intro other hc
    cases hc
    exact ⟨_, rfl, ha'⟩

end Reading

end Reads

namespace Tracked

variable {directory stem : String} {place : Location} {segments : List (List (Placed Nat))}
  {events : List (Placed Nat)} {site : Site} {tracked : Tracked}

/-- A read is sound, or adrift if it is stale. -/
def Sound (directory stem : String) (segments : List (List (Placed Nat))) (events : List (Placed Nat))
    (tracked : Tracked) : Prop :=
  match tracked.stale with
  | false => tracked.reading.Sound directory stem segments events
  | true => tracked.reading.Adrift directory stem

/-- A read stays sound when the log has grown and segments were added. -/
theorem Sound.grow {events' : List (Placed Nat)} (h : tracked.Sound directory stem segments events)
    (he : events <+: events') (more : List (List (Placed Nat))) :
    tracked.Sound directory stem (segments ++ more) events' := by
  obtain ⟨reading, stale⟩ := tracked
  cases stale with
  | false => exact Reading.Sound.grow h he more
  | true => exact h

/-- A read that is killed stays sound. -/
theorem Sound.kill (h : tracked.Sound directory stem segments events) :
    Sound directory stem segments events { tracked with reading := tracked.reading.kill } := by
  obtain ⟨reading, stale⟩ := tracked
  cases stale with
  | false => exact Reading.Sound.kill h
  | true => exact Reading.Adrift.kill h

/-- A read that is dropped stays sound, and the shelf is as it was. -/
theorem Sound.drop (h : tracked.Sound directory stem segments site.events)
    (hsite : Stocked directory stem place segments site) :
    Stocked directory stem place segments (tracked.reading.drop site).1 ∧
      Sound directory stem segments site.events
        { tracked with reading := (tracked.reading.drop site).2 } := by
  obtain ⟨reading, stale⟩ := tracked
  cases stale with
  | false =>
    obtain ⟨hstocked, -, hreading⟩ := Reading.Sound.drop h hsite
    exact ⟨hstocked, hreading⟩
  | true => exact Reading.Adrift.drop h hsite

/-- A read that is pulled stays sound, and segments may have been added to the shelf, unless it is
stale. -/
theorem Sound.pull (h : tracked.Sound directory stem segments site.events)
    (hsite : Stocked directory stem place segments site)
    (hseen : (tracked.stale && found directory stem (tracked.reading.pull site).1 !=
      found directory stem site) = false) :
    ∃ more, Stocked directory stem place (segments ++ more) (tracked.reading.pull site).1 ∧
      Sound directory stem (segments ++ more) site.events
        { tracked with reading := (tracked.reading.pull site).2 } := by
  obtain ⟨reading, stale⟩ := tracked
  cases stale with
  | false =>
    obtain ⟨more, hstocked, -, hreading⟩ := Reading.Sound.pull h hsite
    exact ⟨more, hstocked, hreading⟩
  | true =>
    rw [Bool.true_and, bne_eq_false_iff_eq] at hseen
    obtain ⟨hstocked, hreading⟩ := Reading.Adrift.pull h hsite hseen
    refine ⟨[], ?_, hreading⟩
    rw [List.append_nil]
    exact hstocked

/-- After a deletion a read is sound on the empty shelf, or it has become stale. -/
theorem Sound.afterDeletion (h : tracked.Sound directory stem segments events) :
    tracked.afterDeletion.Sound directory stem [] events := by
  obtain ⟨reading, stale⟩ := tracked
  unfold Tracked.afterDeletion
  cases stale with
  | true => exact h
  | false =>
    unfold Sound
    dsimp only
    rw [Bool.false_or]
    cases hr : reading.reliesOnSegments with
    | false => exact Reading.Sound.without_segments h hr
    | true => exact Reading.Sound.adrift h

end Tracked

namespace Course

variable {directory stem : String} {place : Location} {segments : List (List (Placed Nat))}
  {course : Course}

/-- The segments on the shelf hold a prefix of the log, and every read is sound. -/
structure Sound (directory stem : String) (place : Location) (segments : List (List (Placed Nat)))
    (course : Course) : Prop where
  /-- The segments on the shelf hold a prefix of the log. -/
  stocked : Stocked directory stem place segments course.site
  /-- Every read is sound. -/
  readings : ∀ tracked ∈ course.readings, tracked.Sound directory stem segments course.site.events

/-- A deed keeps the store, or somebody appends to it. -/
theorem store_deed (course : Course) (deed : Deed) :
    (course.deed directory stem deed).site.store =
      match deed with
      | .append stream events => course.site.store.append stream events
      | _ => course.site.store := by
  cases deed with
  | append stream events => rfl
  | start options => rfl
  | pull reader =>
    unfold Course.deed
    dsimp only
    split
    · rfl
    · exact Reading.store_pull _ _
  | drop reader =>
    unfold Course.deed
    dsimp only
    split
    · rfl
    · exact Reading.store_drop _ _
  | kill reader =>
    unfold Course.deed
    dsimp only
    split <;> rfl
  | delete => rfl

/-- A log only grows. -/
theorem events_deeds (course : Course) (deeds : List Deed) :
    course.site.events <+: (course.deeds directory stem deeds).site.events := by
  induction deeds generalizing course with
  | nil => exact List.prefix_rfl
  | cons deed rest ih =>
    refine List.IsPrefix.trans ?_ (ih (course.deed directory stem deed))
    unfold Site.events
    rw [store_deed]
    cases deed with
    | append stream events => exact Log.prefix_append _ _ _ _
    | _ => exact List.prefix_rfl

/-- What is spoilt stays spoilt by a deed. -/
theorem spoilt_deed (h : course.spoilt = true) (deed : Deed) :
    (course.deed directory stem deed).spoilt = true := by
  unfold Course.deed
  cases deed with
  | append stream events => exact h
  | start options => exact h
  | pull reader =>
    dsimp only
    split
    · exact h
    · dsimp only
      rw [h, Bool.true_or]
  | drop reader =>
    dsimp only
    split <;> exact h
  | kill reader =>
    dsimp only
    split <;> exact h
  | delete => exact h

/-- What is spoilt stays spoilt. -/
theorem spoilt_deeds (h : course.spoilt = true) (deeds : List Deed) :
    (course.deeds directory stem deeds).spoilt = true := by
  induction deeds generalizing course with
  | nil => exact h
  | cons deed rest ih => exact ih (spoilt_deed h deed)

/-- What a read does makes no read stale. -/
theorem stale_set {readings : List Tracked} {reader : Nat} {tracked : Tracked}
    (h : readings[reader]? = some tracked) (reading : Reading) :
    (readings.set reader { tracked with reading := reading }).map (·.stale) = readings.map (·.stale) :=
  map_set_of_eq h rfl

/-- A deed spoils a course only with a stale read, and a stale read stays stale. -/
theorem stale_deed (h : course.spoilt = true → true ∈ course.readings.map (·.stale)) (deed : Deed)
    (hs : (course.deed directory stem deed).spoilt = true) :
    true ∈ (course.deed directory stem deed).readings.map (·.stale) := by
  unfold Course.deed at hs ⊢
  cases deed with
  | append stream events => exact h hs
  | start options =>
    dsimp only at hs ⊢
    rw [List.map_append]
    exact List.mem_append_left _ (h hs)
  | pull reader =>
    dsimp only at hs ⊢
    cases hr : course.readings[reader]? with
    | none =>
      rw [hr] at hs
      exact h hs
    | some tracked =>
      rw [hr] at hs
      dsimp only at hs ⊢
      rw [stale_set hr]
      rcases Bool.or_eq_true_iff.1 hs with hs | hs
      · exact h hs
      · have hstale : tracked.stale = true := (Bool.and_eq_true_iff.1 hs).1
        exact hstale ▸ List.mem_map_of_mem (List.mem_of_getElem? hr)
  | drop reader =>
    dsimp only at hs ⊢
    cases hr : course.readings[reader]? with
    | none =>
      rw [hr] at hs
      exact h hs
    | some tracked =>
      rw [hr] at hs
      dsimp only
      rw [stale_set hr]
      exact h hs
  | kill reader =>
    dsimp only at hs ⊢
    cases hr : course.readings[reader]? with
    | none =>
      rw [hr] at hs
      exact h hs
    | some tracked =>
      rw [hr] at hs
      dsimp only
      rw [stale_set hr]
      exact h hs
  | delete =>
    obtain ⟨tracked, ht, hstale⟩ := List.mem_map.1 (h hs)
    dsimp only
    refine List.mem_map.2 ⟨tracked.afterDeletion, List.mem_map_of_mem ht, ?_⟩
    unfold Tracked.afterDeletion
    dsimp only
    rw [hstale, Bool.true_or]

/-- Only a stale read spoils a course: as long as whoever deletes the segments finds no read under way that
goes by them, no course is spoilt. -/
theorem stale_of_spoilt (h : course.spoilt = true → true ∈ course.readings.map (·.stale))
    (deeds : List Deed) (hs : (course.deeds directory stem deeds).spoilt = true) :
    true ∈ (course.deeds directory stem deeds).readings.map (·.stale) := by
  induction deeds generalizing course with
  | nil => exact h hs
  | cons deed rest ih => exact ih (stale_deed h deed) hs

/-- A course stays sound when one read has changed and segments were added, while the log is as it was. -/
theorem Sound.change (h : course.Sound directory stem place segments) {more : List (List (Placed Nat))}
    {site : Site} {tracked : Tracked} (reader : Nat) (spoilt : Bool)
    (hsite : Stocked directory stem place (segments ++ more) site) (hstore : site.store = course.site.store)
    (hread : tracked.Sound directory stem (segments ++ more) course.site.events) :
    Sound directory stem place (segments ++ more)
      { site := site, readings := course.readings.set reader tracked, spoilt := spoilt } where
  stocked := hsite
  readings other ho := by
    have hevents : site.events = course.site.events := by
      unfold Site.events
      rw [hstore]
    dsimp only at ho ⊢
    rw [hevents]
    rcases List.mem_or_eq_of_mem_set ho with ho | rfl
    · exact (h.readings other ho).grow List.prefix_rfl more
    · exact hread

/-- An append keeps a course sound, as long as the numbers of events have eight bytes. -/
theorem Sound.append (h : course.Sound directory stem place segments) (stream : StreamId)
    (events : List NewEvent)
    (hsize : 2 * (course.site.store.append stream events).size ≤ Bytes.modulus64) :
    (course.deed directory stem (.append stream events)).Sound directory stem place segments := by
  have hgrown : course.site.events <+: (course.site.store.append stream events).log.events :=
    course.site.store.log.prefix_append stream events _
  refine ⟨⟨h.stocked.reached.append stream events, hsize, h.stocked.shelf, h.stocked.held.trans hgrown⟩, ?_⟩
  intro tracked ht
  have hsound := (h.readings tracked ht).grow hgrown []
  rw [List.append_nil] at hsound
  exact hsound

/-- A read that is opened is sound. -/
theorem Sound.start (h : course.Sound directory stem place segments) (options : Options) :
    (course.deed directory stem (.start options)).Sound directory stem place segments := by
  have hopened : ∃ reading,
      Reading.fromStart { options with directory := directory, stem := stem } course.site = some reading ∧
        reading.Sound directory stem segments course.site.events :=
    Reading.sound_fromStart h.stocked
  obtain ⟨reading, hopen, hsound⟩ := hopened
  refine ⟨h.stocked, ?_⟩
  intro tracked ht
  unfold Course.deed at ht
  dsimp only at ht
  rw [hopen] at ht
  rcases List.mem_append.1 ht with ht | ht
  · exact h.readings tracked ht
  · rw [List.mem_singleton.1 ht]
    exact hsound

/-- A pull keeps a course sound and may add a segment, unless a stale read adds one. -/
theorem Sound.pull (h : course.Sound directory stem place segments) (reader : Nat)
    (hspoilt : (course.deed directory stem (.pull reader)).spoilt = false) :
    ∃ more, (course.deed directory stem (.pull reader)).Sound directory stem place (segments ++ more) := by
  unfold Course.deed at hspoilt ⊢
  dsimp only at hspoilt ⊢
  cases hr : course.readings[reader]? with
  | none =>
    refine ⟨[], ?_⟩
    rw [List.append_nil]
    exact h
  | some tracked =>
    rw [hr] at hspoilt
    have hseen := (Bool.or_eq_false_iff.1 hspoilt).2
    have hstore := Reading.store_pull course.site tracked.reading
    obtain ⟨more, hstocked, hread⟩ := (h.readings tracked (List.mem_of_getElem? hr)).pull h.stocked hseen
    exact ⟨more, h.change reader _ hstocked hstore hread⟩

/-- Dropping a read keeps a course sound. -/
theorem Sound.drop (h : course.Sound directory stem place segments) (reader : Nat) :
    (course.deed directory stem (.drop reader)).Sound directory stem place segments := by
  unfold Course.deed
  dsimp only
  cases hr : course.readings[reader]? with
  | none => exact h
  | some tracked =>
    have hstore := Reading.store_drop course.site tracked.reading
    obtain ⟨hstocked, hread⟩ := (h.readings tracked (List.mem_of_getElem? hr)).drop h.stocked
    rw [← List.append_nil segments] at hstocked hread ⊢
    exact h.change reader _ hstocked hstore hread

/-- Killing a read keeps a course sound. -/
theorem Sound.kill (h : course.Sound directory stem place segments) (reader : Nat) :
    (course.deed directory stem (.kill reader)).Sound directory stem place segments := by
  unfold Course.deed
  dsimp only
  cases hr : course.readings[reader]? with
  | none => exact h
  | some tracked =>
    have hstocked := h.stocked
    have hread := (h.readings tracked (List.mem_of_getElem? hr)).kill
    rw [← List.append_nil segments] at hstocked hread ⊢
    exact h.change reader _ hstocked rfl hread

/-- Deleting the segments keeps a course sound, with no segments on the shelf. -/
theorem Sound.delete (h : course.Sound directory stem place segments) :
    (course.deed directory stem .delete).Sound directory stem place [] where
  stocked := ⟨h.stocked.reached, h.stocked.bounded, h.stocked.shelf.deleted, List.nil_prefix⟩
  readings tracked ht := by
    obtain ⟨before, hb, rfl⟩ := List.mem_map.1 ht
    exact (h.readings before hb).afterDeletion

/-- A deed keeps a course sound, unless a stale read puts a segment in place. -/
theorem Sound.deed (h : course.Sound directory stem place segments) (deed : Deed)
    (hspoilt : (course.deed directory stem deed).spoilt = false)
    (hsize : 2 * (course.deed directory stem deed).site.store.size ≤ Bytes.modulus64) :
    ∃ segments, (course.deed directory stem deed).Sound directory stem place segments := by
  cases deed with
  | append stream events => exact ⟨segments, h.append stream events hsize⟩
  | start options => exact ⟨segments, h.start options⟩
  | pull reader =>
    obtain ⟨more, hmore⟩ := h.pull reader hspoilt
    exact ⟨segments ++ more, hmore⟩
  | drop reader => exact ⟨segments, h.drop reader⟩
  | kill reader => exact ⟨segments, h.kill reader⟩
  | delete => exact ⟨[], h.delete⟩

/-- A course stays sound until a stale read puts a segment in place. -/
theorem Sound.deeds (h : course.Sound directory stem place segments) (deeds : List Deed)
    (hspoilt : (course.deeds directory stem deeds).spoilt = false)
    (hsize : 2 * (course.deeds directory stem deeds).site.store.size ≤ Bytes.modulus64) :
    ∃ segments, (course.deeds directory stem deeds).Sound directory stem place segments := by
  induction deeds generalizing course segments with
  | nil => exact ⟨segments, h⟩
  | cons deed rest ih =>
    have hfirst : (course.deed directory stem deed).spoilt = false := by
      rw [Bool.eq_false_iff]
      intro hearly
      have hlater : ((course.deed directory stem deed).deeds directory stem rest).spoilt = true :=
        spoilt_deeds hearly rest
      exact absurd (hlater.symm.trans hspoilt) nofun
    have hgrown : (course.deed directory stem deed).site.events <+:
        ((course.deed directory stem deed).deeds directory stem rest).site.events :=
      events_deeds (course.deed directory stem deed) rest
    have hbounded : 2 * (course.deed directory stem deed).site.store.size ≤ Bytes.modulus64 :=
      Nat.le_trans (Nat.mul_le_mul_left 2 hgrown.length_le) hsize
    obtain ⟨between, hbetween⟩ := h.deed deed hfirst hbounded
    exact ih hbetween hspoilt hsize

end Course

/-- However appends, reads and deletions of all segments interleave around a cache in a directory that was
empty: as long as no stale read has put a segment in place, the segments hold a prefix of the log, and
every other read that has ended has yielded the log as it was when its tail ended, first what was replayed
and then the rest. A read is stale if segments that it had found were deleted before it ended, so this holds
whatever happens if all deletions find no read under way that goes by segments. The numbers of all events have
eight bytes. -/
theorem reads_survive_deletion (directory stem : String) (site : Site) (deeds : List Deed)
    (hempty : site.files.list directory = .ok []) (hstore : site.store.Reached)
    (hsize : 2 * (Course.deeds directory stem { site := site } deeds).site.store.size ≤ Bytes.modulus64) :
    let course := Course.deeds directory stem { site := site } deeds
    (course.spoilt = true → ∃ tracked ∈ course.readings, tracked.stale = true) ∧
      (course.spoilt = false → (∃ count, HoldsPrefix directory stem course.site count) ∧
        ∀ tracked ∈ course.readings, tracked.stale = false →
          ∀ log, tracked.reading.yield.ended = some log →
            ∃ replayed ≤ log.events.length,
              tracked.reading.yield.replayed = replays (log.events.take replayed) ∧
              tracked.reading.yield.passed = results (log.events.drop replayed)) := by
  intro course
  obtain ⟨place, hshelf⟩ := Shelf.of_list_nil hempty
  have hgrown : site.events <+: course.site.events := Course.events_deeds { site := site } deeds
  have hbounded : 2 * site.store.size ≤ Bytes.modulus64 :=
    Nat.le_trans (Nat.mul_le_mul_left 2 hgrown.length_le) hsize
  have hstart : Course.Sound directory stem place [] { site := site } := {
    stocked := ⟨hstore, hbounded, hshelf, List.nil_prefix⟩
    readings := fun _ ht => absurd ht List.not_mem_nil }
  refine ⟨fun hspoilt => ?_, fun hspoilt => ?_⟩
  · have hstale := Course.stale_of_spoilt (fun h => absurd h Bool.false_ne_true) deeds hspoilt
    exact List.mem_map.1 hstale
  · obtain ⟨segments, hsound⟩ := hstart.deeds deeds hspoilt hsize
    refine ⟨⟨segments.length, hsound.stocked.holdsPrefix⟩, ?_⟩
    intro tracked ht hstale log hlog
    have hreading := hsound.readings tracked ht
    unfold Tracked.Sound at hreading
    rw [hstale] at hreading
    exact hreading.yielded hlog

/-- The segments are deleted under two reads. The one that relies on them is dropped, the other was opened
on an empty cache and ends, and so does one that is opened after all of this. -/
theorem reads_survive_deletion_rebuilding :
    let orders : StreamId := ⟨"orders", "1", by decide⟩
    let site : Site := ⟨(Store.withClock fun _ => .epoch).append orders [⟨"Placed", [1], []⟩],
      { nodes := [([.given "cache"], .directory)] }⟩
    let deeds : List Deed := [.start { directory := "" }, .start { directory := "" }, .pull 0, .pull 0,
      .pull 0, .start { directory := "" }, .pull 1, .delete, .pull 1, .pull 1, .drop 2,
      .start { directory := "" }, .pull 3, .pull 3, .pull 3, .pull 3, .pull 3]
    let course := Course.deeds "cache" "events" { site := site } deeds
    site.files.list "cache" = .ok [] ∧ site.store.Reached ∧
      2 * course.site.store.size ≤ Bytes.modulus64 ∧ course.spoilt = false ∧
      course.readings.map (·.stale) = [false, false, true, false] ∧
      course.readings.map (·.reading.yield.ended.isSome) = [true, true, false, true] ∧
      ∃ count, HoldsPrefix "cache" "events" course.site count := by
  intro orders site deeds course
  have hempty : site.files.list "cache" = .ok [] := rfl
  have hstore : site.store.Reached := .append _ _ (.start _)
  have hfacts : 2 * course.site.store.size ≤ Bytes.modulus64 ∧ course.spoilt = false ∧
      course.readings.map (·.stale) = [false, false, true, false] ∧
      course.readings.map (·.reading.yield.ended.isSome) = [true, true, false, true] := by
    decide +kernel
  obtain ⟨hsize, hspoilt, hstale, hended⟩ := hfacts
  refine ⟨hempty, hstore, hsize, hspoilt, hstale, hended, ?_⟩
  -- at reducible transparency, or the whole course is run to compare the two sides
  have hall := (by
    with_reducible exact reads_survive_deletion "cache" "events" site deeds hempty hstore hsize : _)
  with_reducible exact (hall.2 hspoilt).1

/-- The positions among some results. -/
def positions (results : List (Item Nat)) : List Nat :=
  results.filterMap fun result => result.toOption.map (·.position)

/-- A read that has found one segment and passed one more event is stale after a deletion. Another read
builds the cache anew, with both events in one segment. The stale read ends and puts its event in place as
the next segment. -/
def spoiltCourse : Course :=
  let orders : StreamId := ⟨"orders", "1", by decide⟩
  Course.deeds "cache" "events"
    { site := ⟨(Store.withClock fun _ => .epoch).append orders [⟨"Placed", [1], []⟩],
        { nodes := [([.given "cache"], .directory)] }⟩ }
    [.start { directory := "" }, .pull 0, .pull 0, .pull 0, .append orders [⟨"Paid", [2], []⟩],
      .start { directory := "" }, .pull 1, .pull 1, .pull 1, .pull 1, .pull 1, .delete,
      .start { directory := "" }, .pull 2, .pull 2, .pull 2, .pull 2, .pull 1]

/-- The segment of the stale read is found behind the other. -/
theorem scan_spoiltCourse :
    scanSegments spoiltCourse.site.files "cache" "events" = .ok ⟨[0, 1], []⟩ := by
  have hlist : (spoiltCourse.site.files.list "cache").toOption =
      some [.given "events-00000001.gz", .given "events-00000000.gz"] := by
    decide +kernel
  have hindices : [Name.given "events-00000001.gz", .given "events-00000000.gz"].filterMap
      (segmentIndex? "events" ·.text) = [1, 0] := by
    decide +kernel
  have hmem : ∀ index, index ∈ [1, 0] ↔ index < 2 := by
    intro index
    simp only [List.mem_cons, List.not_mem_nil, or_false]
    omega
  have hsort : [1, 0].mergeSort (· ≤ ·) = List.range 2 :=
    mergeSort_eq_range (by decide : [1, 0].Nodup) hmem
  unfold scanSegments
  cases hl : spoiltCourse.site.files.list "cache" with
  | error e =>
    rw [hl] at hlist
    cases hlist
  | ok names =>
    rw [hl] at hlist
    rw [Option.some.inj hlist]
    dsimp only
    unfold scanNames
    rw [hindices, hsort]
    rfl

/-- A read that is opened after all of this replays both segments. -/
theorem start_spoiltCourse : spoiltCourse.deed "cache" "events" (.start { directory := "" }) =
    { spoiltCourse with readings := spoiltCourse.readings ++ [{ reading := {
        options := { directory := "cache", stem := "events" }
        cursor := some (.cached {
          segments := [segmentPath "cache" "events" 0, segmentPath "cache" "events" 1]
          nextIndex := 2
          lastPosition := 0
          writing := true }) } }] } := by
  have hscan : scanSegments spoiltCourse.site.files
      (⟨"cache", "events", false, 6, false⟩ : Options).directory
      (⟨"cache", "events", false, 6, false⟩ : Options).stem = .ok ⟨[0, 1], []⟩ := scan_spoiltCourse
  unfold Course.deed
  dsimp only
  rw [Reading.fromStart_eq, startRead_of_scan hscan]
  rfl

/-- One read that was opened last and is not stale ends and has yielded the second event of the log twice. -/
theorem stale_read_repeats_event :
    let course := spoiltCourse.deeds "cache" "events"
      (.start { directory := "" } :: List.replicate 9 (.pull 3))
    course.readings[3]?.map (fun tracked => (tracked.stale,
        tracked.reading.yield.ended.map (·.events.map (·.position)),
        positions (tracked.reading.yield.replayed ++ tracked.reading.yield.passed))) =
      some (false, some [1, 2], [1, 2, 2]) := by
  unfold Course.deeds
  rw [start_spoiltCourse]
  decide +kernel

end Chronicle.Cache
