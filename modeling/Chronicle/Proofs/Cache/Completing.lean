import Chronicle.Proofs.Cache.Replaying
import Chronicle.Proofs.Cache.Writing

/-!
# Reads that complete a cache

A cache keeps a store if its segments stand in a row, replay whole, and yield the first events of the
log. While one read alone writes behind such a cache, and no name or record stands in the way, every
event that it passes is in the segment that it writes. A read that ends leaves a cache that keeps all
events of the log, with one more segment if there was anything to add; a read that is given up leaves the
cache as it was. Meanwhile the log may grow.
-/

namespace Chronicle.Cache

open Site

section Segments

/-- Segments that hold what they held yield what they yielded. -/
theorem replaySegments_congr {P : Type} (codec : PositionCodec P) {fs fs' : FileSystem}
    {paths : List String} (h : ∀ path ∈ paths, readFile fs' path = readFile fs path) :
    replaySegments codec fs' paths = replaySegments codec fs paths := by
  induction paths with
  | nil => rfl
  | cons path rest ih =>
    have hrest := ih fun other ho => h other (List.mem_cons_of_mem path ho)
    unfold replaySegments
    rw [h path List.mem_cons_self, hrest]

/-- Segments that are whole are replayed before those that follow. -/
theorem replaySegments_append {P : Type} {codec : PositionCodec P} {fs : FileSystem} {paths : List String}
    (h : ∀ path ∈ paths, (replayOf codec (readFile fs path)).2 = true) (more : List String) :
    replaySegments codec fs (paths ++ more) =
      replaySegments codec fs paths ++ replaySegments codec fs more := by
  induction paths with
  | nil => rfl
  | cons path rest ih =>
    have hwhole := h path List.mem_cons_self
    have hrest := ih fun other ho => h other (List.mem_cons_of_mem path ho)
    rw [List.cons_append, replaySegments, replaySegments]
    dsimp only
    rw [hwhole, if_pos rfl, if_pos rfl, hrest, List.append_assoc]

/-- Records of events whose positions are read back are replayed whole. -/
theorem replayOf_cachedOf {events : List (Placed Nat)}
    (h : ∀ e ∈ events, source.codec.deserialize (source.codec.serialize e.position) = .ok e.position) :
    replayOf source.codec ((events.map cachedOf).map (·.floored), none) = (events.map .floored, true) :=
  replayOf_recordFor h

end Segments

section Keeping

variable {directory stem : String} {place : Location} {count held : Nat} {site : Site}

/-- A cache whose segments yield the first events of the log. -/
structure Kept (directory stem : String) (place : Location) (count held : Nat) (site : Site) : Prop where
  /-- The store was filled by appends. -/
  reached : site.store.Reached
  /-- The numbers of its events have eight bytes. -/
  bounded : 2 * site.store.size ≤ Bytes.modulus64
  /-- The segments stand in a row. -/
  row : Row directory stem place count site.files
  /-- Each is replayed whole. -/
  whole : ∀ index < count,
    (replayOf source.codec (readFile site.files (segmentPath directory stem index))).2 = true
  /-- They yield the first events. -/
  replayed : replaySegments source.codec site.files ((List.range count).map (segmentPath directory stem)) =
    (site.events.take held).map .floored
  /-- The log has these events. -/
  held_le : held ≤ site.events.length

/-- The position of an event in a log is read back. -/
theorem denotes_position (hreached : site.store.Reached) (hbounded : 2 * site.store.size ≤ Bytes.modulus64)
    {e : Placed Nat} (he : e ∈ site.events) :
    source.codec.deserialize (source.codec.serialize e.position) = .ok e.position := by
  obtain ⟨index, hi, rfl⟩ := List.mem_iff_getElem.1 he
  have hposition : site.events[index].position = index + 1 := hreached.coherent.position_getElem hi
  have hsize : site.events.length = site.store.size := rfl
  refine (PositionCodec.exact_log ?_).denotes
  simp only [Bytes.modulus64, Numeral.wordLimit] at hbounded ⊢
  omega

/-- The last of the first events of a log stands at the position that counts them. -/
theorem last_position (hreached : site.store.Reached) (hheld : held ≤ site.events.length) :
    (((site.events.take held).map Placed.floored).getLast?.map (·.position)).getD 0 = held := by
  cases held with
  | zero => rfl
  | succ held =>
    have hposition : site.events[held].position = held + 1 := hreached.coherent.position_getElem hheld
    rw [List.getLast?_map, List.take_succ_eq_append_getElem hheld, List.getLast?_concat]
    exact hposition

/-- A cache that keeps some events yields them to whoever reads it. -/
theorem Kept.replayable_eq (h : Kept directory stem place count held site) :
    replayable source.codec site.files directory stem = (site.events.take held).map .floored := by
  unfold replayable
  rw [h.row.scan]
  exact h.replayed

/-- A cache keeps what it kept while the log grows. -/
theorem Kept.append (h : Kept directory stem place count held site) (stream : StreamId)
    (events : List NewEvent) (hsize : 2 * (site.store.append stream events).size ≤ Bytes.modulus64) :
    Kept directory stem place count held (storePlace.set site (site.store.append stream events)) := by
  have hgrown : site.events <+: (site.store.append stream events).log.events :=
    site.store.log.prefix_append stream events _
  refine ⟨h.reached.append stream events, hsize, h.row, h.whole, ?_, Nat.le_trans h.held_le hgrown.length_le⟩
  have htake : (site.store.append stream events).log.events.take held = site.events.take held :=
    take_of_grown hgrown h.held_le
  exact h.replayed.trans (congrArg _ htake.symm)

/-- A cache keeps what it kept if its segments are left undisturbed. -/
theorem Kept.undisturbed (h : Kept directory stem place count held site) {files : FileSystem}
    (hu : FileSystem.Undisturbed place (IsSegment stem) site.files files) :
    Kept directory stem place count held { site with files := files } := by
  have hread : ∀ index < count, readFile files (segmentPath directory stem index) =
      readFile site.files (segmentPath directory stem index) := by
    intro index hi
    exact h.row.readFile_undisturbed hu hi
      (isSegment_segmentName (Nat.lt_of_lt_of_le hi h.row.limited))
  refine ⟨h.reached, h.bounded, h.row.undisturbed hu, ?_, ?_, h.held_le⟩
  · intro index hi
    dsimp only
    rw [hread index hi]
    exact h.whole index hi
  · have hsame : replaySegments source.codec files ((List.range count).map (segmentPath directory stem)) =
        replaySegments source.codec site.files ((List.range count).map (segmentPath directory stem)) := by
      refine replaySegments_congr source.codec fun path hp => ?_
      obtain ⟨index, hi, rfl⟩ := List.mem_map.1 hp
      exact hread index (List.mem_range.1 hi)
    exact hsame.trans h.replayed

/-- A cache to which a segment is added that holds the rest of the log keeps all of it. -/
theorem Kept.finish (h : Kept directory stem place count held site)
    (hstorable : ∀ e ∈ site.events, (cachedOf e).Storable) (hlimit : count < segmentLimit)
    {segments serials : Nat} (hn : Nameable directory stem segments serials) (hi : count < segments)
    {sink : FileWriter}
    (hs : Started directory stem place count ((site.events.drop held).map cachedOf) sink site.files) :
    Kept directory stem place (count + 1) site.events.length
        { site with files := (sink.finish site.files).1 } ∧
      (sink.finish site.files).1.temporaries = site.files.temporaries := by
  obtain ⟨hrow, hsame, hnew, htemporaries⟩ := hs.finish h.row hlimit hn hi
  have hread : ∀ index < count, readFile (sink.finish site.files).1 (segmentPath directory stem index) =
      readFile site.files (segmentPath directory stem index) := by
    intro index hi
    obtain ⟨node, hf⟩ := h.row.segment index hi
    exact readFile_of_find hf ((hsame index hi).trans hf)
  -- the new segment holds the events that the others do not
  have hlast : readFile (sink.finish site.files).1 (segmentPath directory stem count) =
      (((site.events.drop held).map cachedOf).map (·.floored), none) := by
    refine readFile_packed hnew fun r hr => ?_
    obtain ⟨e, he, rfl⟩ := List.mem_map.1 hr
    exact (hstorable e (List.mem_of_mem_drop he)).fits
  have hreplayed : replayOf source.codec (((site.events.drop held).map cachedOf).map (·.floored), none) = _ :=
    replayOf_cachedOf fun e he => denotes_position h.reached h.bounded (List.mem_of_mem_drop he)
  rw [← hlast] at hreplayed
  have hwhole : ∀ path ∈ (List.range count).map (segmentPath directory stem),
      (replayOf source.codec (readFile (sink.finish site.files).1 path)).2 = true := by
    intro path hp
    obtain ⟨index, hi, rfl⟩ := List.mem_map.1 hp
    rw [hread index (List.mem_range.1 hi)]
    exact h.whole index (List.mem_range.1 hi)
  refine ⟨⟨h.reached, h.bounded, hrow, ?_, ?_, Nat.le_refl _⟩, htemporaries⟩
  · intro index hi
    rcases Nat.lt_succ_iff_lt_or_eq.1 hi with hlt | rfl
    · exact hwhole _ (List.mem_map_of_mem (List.mem_range.2 hlt))
    · dsimp only
      rw [hreplayed]
  · have hbefore : replaySegments source.codec (sink.finish site.files).1
        ((List.range count).map (segmentPath directory stem)) = (site.events.take held).map .floored := by
      rw [← h.replayed]
      refine replaySegments_congr source.codec fun path hp => ?_
      obtain ⟨index, hi, rfl⟩ := List.mem_map.1 hp
      exact hread index (List.mem_range.1 hi)
    dsimp only
    rw [List.range_succ, List.map_append, replaySegments_append hwhole, hbefore, List.map_singleton,
      replaySegments, hreplayed]
    dsimp only
    rw [if_pos rfl, replaySegments, List.append_nil, ← List.map_append, List.take_append_drop]
    exact congrArg _ (List.take_length).symm

end Keeping

section Alone

/-- What a read has written that has passed some events of the log: those that the cache does not keep. It
has started a file with the first of them. -/
def Holds (directory stem : String) (place : Location) (count held drawn passed : Nat) (site : Site)
    (read : SiteRead) : Prop :=
  match read.sink with
  | none => passed = held ∧ site.files.temporaries ≤ drawn
  | some sink => held < passed ∧
      Started directory stem place count (((site.events.take passed).drop held).map cachedOf) sink site.files

/-- One read alone writes behind a cache that keeps some events. Either it has not ended, or the log was as
given when it did. -/
inductive Solo (directory stem : String) (place : Location) (count held drawn : Nat) (site : Site)
    (read : SiteRead) : Option Log → Prop where
  /-- It replays segments, and nothing is damaged. -/
  | replaying (hkept : Kept directory stem place count held site) (hphase : read.phase = .replaying)
    (hwriting : read.writing = true) (hnext : read.nextIndex = count) (hsink : read.sink = none)
    (hundamaged : undamaged site read = true) (hstart : tailStart site read = held)
    (hdrawn : site.files.temporaries ≤ drawn) : Solo directory stem place count held drawn site read none
  /-- It passes the tail and writes what it passes. -/
  | tailing (hkept : Kept directory stem place count held site) {passed : Nat}
    (hphase : read.phase = .tail (tailCursor passed)) (hwriting : read.writing = true)
    (hnext : read.nextIndex = count) (hpassed : passed ≤ site.events.length)
    (hholds : Holds directory stem place count held drawn passed site read)
    (hdrawn : site.files.temporaries ≤ drawn + 1) :
    Solo directory stem place count held drawn site read none
  /-- It has ended, and the cache keeps the log as it was then. -/
  | done {log : Log} (hkept : Kept directory stem place
      (count + if held < log.events.length then 1 else 0) log.events.length site)
    (hphase : read.phase = .done) (hsink : read.sink = none) (hheld : held ≤ log.events.length)
    (hgrown : log.events <+: site.events)
    (hdrawn : site.files.temporaries ≤ drawn + 1) :
    Solo directory stem place count held drawn site read (some log)

variable {directory stem : String} {place : Location} {count held drawn : Nat} {site : Site}
  {read : SiteRead} {ended : Option Log}

/-- A read that is opened to write behind a cache is the only one. -/
theorem Kept.solo (h : Kept directory stem place count held site) {options : Options}
    (hdirectory : options.directory = directory) (hstem : options.stem = stem)
    (hwrites : options.readOnly = false) (hdrawn : site.files.temporaries ≤ drawn) :
    Solo directory stem place count held drawn site (startRead filesPlace options source site) none := by
  subst hdirectory
  subst hstem
  have hstart := startRead_of_scan h.row.scan
  have hnext : (⟨List.range count, []⟩ : SegmentScan).nextIndex = count := List.length_range
  refine .replaying h rfl ?_ ?_ rfl ?_ ?_ hdrawn
  · rw [hstart, hwrites]
    rfl
  · rw [hstart, hnext]
  · have hall : ((List.range count).map (segmentPath options.directory options.stem)).all
        (fun path => (replayOf source.codec (readFile site.files path)).2) = true := by
      rw [List.all_eq_true]
      intro path hp
      obtain ⟨index, hi, rfl⟩ := List.mem_map.1 hp
      exact h.whole index (List.mem_range.1 hi)
    unfold undamaged
    rw [hstart]
    exact hall
  · have hlast : (startRead filesPlace options source site).lastPosition = 0 := rfl
    unfold tailStart
    rw [toReplay_startRead, h.replayable_eq, hlast]
    exact last_position h.reached h.held_le

/-- A read stays alone while the log grows. -/
theorem Solo.append (h : Solo directory stem place count held drawn site read ended) (stream : StreamId)
    (events : List NewEvent) (hsize : 2 * (site.store.append stream events).size ≤ Bytes.modulus64) :
    Solo directory stem place count held drawn (storePlace.set site (site.store.append stream events)) read
      ended := by
  have hgrown : site.events <+: (site.store.append stream events).log.events :=
    site.store.log.prefix_append stream events _
  cases h with
  | replaying hkept hphase hwriting hnext hsink hundamaged hstart hdrawn =>
    exact .replaying (hkept.append stream events hsize) hphase hwriting hnext hsink hundamaged hstart hdrawn
  | tailing hkept hphase hwriting hnext hpassed hholds hdrawn =>
    have htake := take_of_grown hgrown hpassed
    refine .tailing (hkept.append stream events hsize) hphase hwriting hnext
      (Nat.le_trans hpassed hgrown.length_le) ?_ hdrawn
    unfold Holds at hholds ⊢
    rw [← htake] at hholds
    exact hholds
  | done hkept hphase hsink hheld hbefore hdrawn =>
    exact .done (hkept.append stream events hsize) hphase hsink hheld (hbefore.trans hgrown) hdrawn

/-- What a cache keeps after a read: what it kept before if the read has not ended, and else the log as it
was then. -/
def KeptAfter (directory stem : String) (place : Location) (count held : Nat) (site : Site) :
    Option Log → Prop
  | none => Kept directory stem place count held site
  | some log =>
    Kept directory stem place (count + if held < log.events.length then 1 else 0) log.events.length site ∧
      held ≤ log.events.length ∧ log.events <+: site.events

/-- A read that is given up leaves a cache that keeps what it should. -/
theorem Solo.close (h : Solo directory stem place count held drawn site read ended) :
    KeptAfter directory stem place count held (closeCached filesPlace source site read) ended ∧
      (closeCached filesPlace source site read).store = site.store ∧
      (closeCached filesPlace source site read).files.temporaries ≤ drawn + 1 := by
  have hstore := store_stopWriting site read
  rw [closeCached_eq]
  unfold stopWriting at hstore ⊢
  cases h with
  | replaying hkept hphase hwriting hnext hsink hundamaged hstart hdrawn =>
    rw [hsink]
    exact ⟨hkept, rfl, Nat.le_succ_of_le hdrawn⟩
  | tailing hkept hphase hwriting hnext hpassed hholds hdrawn =>
    unfold Holds at hholds
    cases hsink : read.sink with
    | none => exact ⟨hkept, rfl, hdrawn⟩
    | some sink =>
      rw [hsink] at hholds
      refine ⟨hkept.undisturbed (.discardFile hholds.2.not_isSegment), rfl, ?_⟩
      exact Nat.le_trans (Nat.le_of_eq (FileSystem.temporaries_discardFile _ _)) hdrawn
  | done hkept hphase hsink hheld hgrown hdrawn =>
    rw [hsink]
    exact ⟨⟨hkept, hheld, hgrown⟩, rfl, hdrawn⟩

/-- The file for what a read passes is there, or it is started. -/
theorem Holds.sinkFor {options : Options} {passed : Nat}
    (h : Holds directory stem place count held drawn passed site read)
    (hkept : Kept directory stem place count held site) (hdirectory : options.directory = directory)
    (hstem : options.stem = stem) (hnext : read.nextIndex = count)
    (hn : Nameable directory stem (count + 1) (drawn + 1)) (hdrawn : site.files.temporaries ≤ drawn + 1) :
    ∃ files sink, Cache.sinkFor filesPlace options source site read = ({ site with files := files }, .ok sink) ∧
      Kept directory stem place count held { site with files := files } ∧ held ≤ passed ∧
      Started directory stem place count (((site.events.take passed).drop held).map cachedOf) sink files ∧
      files.temporaries ≤ drawn + 1 := by
  unfold Holds at h
  cases hsink : read.sink with
  | some sink =>
    rw [hsink] at h
    refine ⟨site.files, sink, ?_, hkept, Nat.le_of_lt h.1, h.2, hdrawn⟩
    unfold Cache.sinkFor
    rw [hsink]
  | none =>
    rw [hsink] at h
    obtain ⟨rfl, hfew⟩ := h
    obtain ⟨files, sink, hcreate, hstarted, hu, htemporaries⟩ :=
      hkept.row.start hn (Nat.lt_succ_self count) (Nat.lt_succ_of_le hfew)
    have hfor := sinkFor_none options site hsink
    unfold withSink newSink at hfor
    rw [hdirectory, hstem, hnext, hcreate] at hfor
    have hnil : (site.events.take passed).drop passed = [] :=
      List.drop_of_length_le (List.length_take_le _ _)
    rw [hnil]
    exact ⟨files, sink, hfor, hkept.undisturbed hu, Nat.le_refl _, hstarted, by omega⟩

/-- The writing of an event that a read has passed succeeds. -/
theorem Holds.write {options : Options} {passed : Nat}
    (h : Holds directory stem place count held drawn passed site read)
    (hkept : Kept directory stem place count held site) (hdirectory : options.directory = directory)
    (hstem : options.stem = stem) (hnext : read.nextIndex = count) (hwriting : read.writing = true)
    (hn : Nameable directory stem (count + 1) (drawn + 1)) (hdrawn : site.files.temporaries ≤ drawn + 1)
    (hlt : passed < site.events.length) (hstorable : (cachedOf site.events[passed]).Storable) :
    ∃ files sink, writeThrough filesPlace options source site read site.events[passed] =
        ({ site with files := files }, { read with sink := some sink }) ∧
      Kept directory stem place count held { site with files := files } ∧
      Holds directory stem place count held drawn (passed + 1) { site with files := files }
        { read with sink := some sink } ∧ files.temporaries ≤ drawn + 1 := by
  obtain ⟨files, sink, hfor, hkept', hheld, hstarted, hdrawn'⟩ :=
    h.sinkFor hkept hdirectory hstem hnext hn hdrawn
  obtain ⟨sink', happend, hstarted'⟩ := hstarted.append hstorable
  have hdrop : (site.events.take (passed + 1)).drop held =
      (site.events.take passed).drop held ++ [site.events[passed]] := by
    rw [List.take_succ_eq_append_getElem hlt, List.drop_append_of_le_length]
    rw [List.length_take_of_le (Nat.le_of_lt hlt)]
    exact hheld
  refine ⟨files, sink', ?_, hkept', ⟨Nat.lt_succ_of_le hheld, ?_⟩, hdrawn'⟩
  · rw [writeThrough_of_sinkFor hwriting hfor]
    unfold appendTo
    rw [happend]
  · have hevents : (Site.mk site.store files).events = site.events := rfl
    rw [hevents, hdrop, List.map_append]
    exact hstarted'

/-- At the end of the log the file that a read has written is finished, and the cache keeps the log. -/
theorem Holds.finish (h : Holds directory stem place count held drawn site.events.length site read)
    (hkept : Kept directory stem place count held site) (hlimit : count < segmentLimit)
    (hn : Nameable directory stem (count + 1) (drawn + 1)) (hdrawn : site.files.temporaries ≤ drawn + 1)
    (hstorable : ∀ e ∈ site.events, (cachedOf e).Storable) :
    Kept directory stem place (count + if held < site.events.length then 1 else 0) site.events.length
        (finishSegment filesPlace source site read).1 ∧
      (finishSegment filesPlace source site read).1.files.temporaries ≤ drawn + 1 := by
  unfold Holds at h
  unfold finishSegment
  cases hsink : read.sink with
  | none =>
    rw [hsink] at h
    obtain ⟨hall, -⟩ := h
    rw [← hall] at hkept
    rw [← hall, if_neg (Nat.lt_irrefl _)]
    exact ⟨hkept, hdrawn⟩
  | some sink =>
    rw [hsink, List.take_length] at h
    obtain ⟨hfinished, htemporaries⟩ :=
      hkept.finish hstorable hlimit hn (Nat.lt_succ_self count) h.2
    rw [if_pos h.1]
    exact ⟨hfinished, Nat.le_trans (Nat.le_of_eq htemporaries) hdrawn⟩

/-- The log as it was when a read ended, after one more pull. -/
def endedAfter (ended : Option Log) (log : Log) : Found Nat → Option Log
  | .finished => ended.or (some log)
  | _ => ended

/-- A pull of a read that is alone keeps it so, and it ends with the log. -/
theorem Solo.pull {options : Options} (h : Solo directory stem place count held drawn site read ended)
    (hdirectory : options.directory = directory) (hstem : options.stem = stem)
    (hlimit : count < segmentLimit) (hn : Nameable directory stem (count + 1) (drawn + 1))
    (hstorable : ∀ e ∈ site.events, (cachedOf e).Storable) :
    Solo directory stem place count held drawn (pullCached filesPlace options source site read).1
      (pullCached filesPlace options source site read).2.1
      (endedAfter ended site.store.log (pullCached filesPlace options source site read).2.2) := by
  cases h with
  | replaying hkept hphase hwriting hnext hsink hundamaged hstart hdrawn =>
    rcases pullCached_of_replaying options site hphase with
      ⟨next, found, hpull, hreplays⟩ | ⟨hfile, hsegments, hpull⟩
    · have hopen : endedAfter none site.store.log found = none := by
        obtain ⟨rfl, -, -⟩ | ⟨e, rfl, -⟩ := hreplays.found <;> rfl
      obtain ⟨hwhole, hsame⟩ := hreplays.undamaged hundamaged
      rw [hpull]
      dsimp only
      rw [hopen]
      exact .replaying hkept (hreplays.phase_eq.trans hphase) (hsame.trans hwriting)
        (hreplays.nextIndex_eq.trans hnext) (hreplays.sink_eq.trans hsink) hwhole
        (hreplays.tailStart_eq.trans hstart) hdrawn
    · have hlast : read.lastPosition = held := by
        rw [← hstart]
        exact (tailStart_of_nil hfile hsegments).2.symm
      rw [hpull]
      refine .tailing hkept rfl hwriting hnext (hlast ▸ hkept.held_le) ?_ (Nat.le_succ_of_le hdrawn)
      unfold Holds
      dsimp only
      rw [hsink]
      exact ⟨hlast, hdrawn⟩
  | @tailing hkept passed hphase hwriting hnext hpassed hholds hdrawn =>
    unfold pullCached
    rw [hphase]
    dsimp only
    by_cases hlt : passed < site.events.length
    · have he : site.events[passed]? = some site.events[passed] := List.getElem?_eq_getElem hlt
      have hstorable' := hstorable site.events[passed] (List.getElem_mem hlt)
      have hholds' : Holds directory stem place count held drawn passed site
          { read with phase := .tail (tailCursor (passed + 1)) } := hholds
      obtain ⟨files, sink, hwrite, hkept', hwritten, hdrawn'⟩ := hholds'.write hkept hdirectory hstem hnext
        hwriting hn hdrawn hlt hstorable'
      rw [pullTail_of_some options read he, hwrite]
      exact .tailing hkept' rfl hwriting hnext hlt hwritten hdrawn'
    · have hend : site.events.length ≤ passed := Nat.le_of_not_lt hlt
      have hall : passed = site.events.length := Nat.le_antisymm hpassed hend
      subst hall
      have hholds' : Holds directory stem place count held drawn site.events.length site
          { read with phase := .done } := hholds
      obtain ⟨hfinished, hdrawn'⟩ := hholds'.finish hkept hlimit hn hdrawn hstorable
      have hstore := store_finishSegment site { read with phase := .done }
      rw [pullTail_of_none options read (List.getElem?_eq_none hend), finishSegment_read]
      refine .done hfinished rfl rfl hkept.held_le ?_ hdrawn'
      exact ⟨[], (List.append_nil _).trans (congrArg (fun store => store.log.events) hstore).symm⟩
  | done hkept hphase hsink hheld hgrown hdrawn =>
    unfold pullCached
    rw [hphase]
    exact .done hkept hphase hsink hheld hgrown hdrawn

end Alone

end Chronicle.Cache
