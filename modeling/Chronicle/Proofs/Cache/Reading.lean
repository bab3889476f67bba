import Chronicle.Cache.Reader
import Chronicle.Proofs.Cache.Shelf
import Chronicle.Proofs.Position.Texts
import Chronicle.Proofs.Store.Coherence

/-!
# Reads through a cache of a store

A site is a store beside the files of its caches. It is stocked when the segments on a shelf hold a
prefix of the log, in order. A read through the cache stands on such a shelf: it has replayed the events
of the segments opened so far, or it has passed the tail up to some event and written what it passed.
What a read relies on does not change when the log grows or a segment is added, and every pull keeps it.
So the read yields the log, each event once and in order, and the segment that it adds is the next one
and holds what comes after the others.
-/

namespace Chronicle

/-- An event as a cache replays it. -/
def Placed.floored {P : Type} (event : Placed P) : Placed P := ⟨event.position, event.record.floored⟩

/-- Events at whole milliseconds are replayed as they are. -/
theorem Placed.map_floored {P : Type} {events : List (Placed P)}
    (h : ∀ e ∈ events, e.record.timestamp.floored = e.record.timestamp) : events.map .floored = events := by
  have hsame : ∀ e ∈ events, e.floored = e := by
    intro e he
    unfold Placed.floored
    rw [EventRecord.floored_eq (h e he)]
  rw [List.map_congr_left hsame, List.map_id']

namespace Cache

/-- An event as it is written to a cache of a store. -/
def cachedOf (event : Placed Nat) : CachedRecord :=
  ⟨PositionCodec.log.serialize event.position, event.record⟩

/-- A store beside the files of its caches. -/
structure Site where
  /-- The store. -/
  store : Store
  /-- The files. -/
  files : FileSystem

namespace Site

/-- Where the store is kept. -/
def storePlace : Place Site Store := ⟨store, fun site store => { site with store := store }⟩

/-- Where the files are kept. -/
def filesPlace : Place Site FileSystem := ⟨files, fun site files => { site with files := files }⟩

/-- The source that is cached. -/
def source : EventReader Site Nat := Store.eventReader storePlace

/-- A read of the source that has passed some events. -/
def tailCursor (passed : Nat) : source.Cursor := Log.Cursor.forwards passed .all

/-- The events of the log. -/
def events (site : Site) : List (Placed Nat) := site.store.log.events

/-- The source yields the next event of the log, or ends. -/
theorem pull_tailCursor (site : Site) (passed : Nat) :
    source.pull site (tailCursor passed) =
      match site.events[passed]? with
      | some e => (site, tailCursor (passed + 1), .event e)
      | none => (site, tailCursor passed, .finished) := by
  have hp := site.store.log.pull_all passed
  change (site, site.store.log.pull (.forwards passed .all)) = _
  rw [hp]
  unfold events
  cases site.store.log.events[passed]? <;> rfl

/-- A site whose shelf holds a prefix of its log, with numbers that have eight bytes. -/
structure Stocked (directory stem : String) (place : Location) (segments : List (List (Placed Nat)))
    (site : Site) : Prop where
  /-- The store was filled by appends. -/
  reached : site.store.Reached
  /-- The numbers of its events have eight bytes. -/
  bounded : 2 * site.store.size ≤ Bytes.modulus64
  /-- The segments are on a shelf. -/
  shelf : Shelf directory stem place (segments.map (·.map cachedOf)) site.files
  /-- They hold a prefix of the log. -/
  held : segments.flatten <+: site.events

variable {directory stem : String} {place : Location} {segments : List (List (Placed Nat))} {site : Site}

/-- The position of an event counts the events up to it, and is read back. -/
theorem Stocked.position (h : Stocked directory stem place segments site) {xs ys : List (Placed Nat)}
    {e : Placed Nat} (hs : xs ++ e :: ys <+: site.events) :
    e.position = xs.length + 1 ∧
      PositionCodec.log.deserialize (PositionCodec.log.serialize e.position) = .ok e.position := by
  obtain ⟨more, hm⟩ := hs
  have hsplit : site.store.log.events = xs ++ e :: (ys ++ more) := by
    rw [← List.cons_append, ← List.append_assoc]
    exact hm.symm
  have hp := h.reached.coherent.position_eq hsplit
  have hl := congrArg List.length hsplit
  rw [List.length_append, List.length_cons] at hl
  have hb := h.bounded
  unfold Store.size at hb
  refine ⟨hp, (PositionCodec.exact_log ?_).denotes⟩
  simp only [Bytes.modulus64, Numeral.wordLimit] at hb ⊢
  omega

/-- The number of an event has eight bytes. -/
theorem Stocked.number_fits (h : Stocked directory stem place segments site) {e : Placed Nat}
    (he : e ∈ site.events) :
    -(Bytes.modulus64 : Int) ≤ 2 * e.record.number ∧ 2 * e.record.number < Bytes.modulus64 := by
  obtain ⟨hlow, hhigh⟩ := h.reached.coherent.number_lt he
  have hc : site.store.log.count e.record.stream ≤ site.store.size := List.countP_le_length
  have hb := h.bounded
  omega

/-- A site stays stocked when its files change but not the shelf. -/
theorem Stocked.refiled (h : Stocked directory stem place segments site) {files : FileSystem}
    (hshelf : Shelf directory stem place (segments.map (·.map cachedOf)) files) :
    Stocked directory stem place segments { site with files := files } :=
  ⟨h.reached, h.bounded, hshelf, h.held⟩

/-- The first segments hold a prefix of the log. -/
theorem Stocked.opened (h : Stocked directory stem place segments site) (count : Nat) :
    (segments.take count).flatten <+: site.events := by
  refine List.IsPrefix.trans ?_ h.held
  refine ⟨(segments.drop count).flatten, ?_⟩
  rw [← List.flatten_append, List.take_append_drop]

/-- The records of a segment. -/
theorem getElem?_records {index : Nat} (hi : index < segments.length) :
    (segments.map (·.map cachedOf))[index]? = some (segments[index].map cachedOf) := by
  rw [List.getElem?_map, List.getElem?_eq_getElem hi]
  rfl

/-- The records of the segments can be read back. -/
theorem Stocked.fits (h : Stocked directory stem place segments site) {count : Nat} {e : Placed Nat}
    (he : e ∈ (segments.take count).flatten) : (cachedOf e).Fits := by
  obtain ⟨records, hr, he⟩ := List.mem_flatten.1 he
  exact h.shelf.fits _ (List.mem_map_of_mem (List.mem_of_mem_take hr)) _ (List.mem_map_of_mem he)

end Site

open Site

/-- The results that are events. -/
def results (events : List (Placed Nat)) : List (Item Nat) := events.map .ok

/-- The results of replaying events. -/
def replays (events : List (Placed Nat)) : List (Item Nat) := results (events.map .floored)

/-- Results of replaying follow each other. -/
theorem replays_append (xs : List (Placed Nat)) (e : Placed Nat) :
    replays (xs ++ [e]) = replays xs ++ [.ok e.floored] := by
  simp only [replays, results, List.map_append, List.map_cons, List.map_nil]

/-- Results follow each other. -/
theorem results_append (xs : List (Placed Nat)) (e : Placed Nat) :
    results (xs ++ [e]) = results xs ++ [.ok e] := by
  simp only [results, List.map_append, List.map_cons, List.map_nil]

/-- What an open read has yielded. -/
structure Yield where
  /-- The results of the replaying, in order. -/
  replayed : List (Item Nat) := []
  /-- The results of the tail, in order. -/
  passed : List (Item Nat) := []
  /-- The log as it was when the tail ended. -/
  ended : Option Log := none

/-- Adds what a pull found, while the store had some log. -/
def Yield.add (yield : Yield) (replaying : Bool) (log : Log) : Found Nat → Yield
  | .finished => { yield with ended := yield.ended.or (some log) }
  | found =>
    if replaying then { yield with replayed := yield.replayed ++ found.item?.toList }
    else { yield with passed := yield.passed ++ found.item?.toList }

/-- A skip adds nothing. -/
theorem Yield.add_skipped (yield : Yield) (replaying : Bool) (log : Log) :
    yield.add replaying log .skipped = yield := by
  cases replaying with
  | true =>
    change { yield with replayed := yield.replayed ++ [] } = yield
    rw [List.append_nil]
  | false =>
    change { yield with passed := yield.passed ++ [] } = yield
    rw [List.append_nil]

/-- Some events were replayed, the others of the log were passed, and the tail ended. -/
def Yield.Complete (yield : Yield) : Prop :=
  ∃ log replayed, replayed ≤ log.events.length ∧ yield =
    ⟨replays (log.events.take replayed), results (log.events.drop replayed), some log⟩

/-- An open read through the cache of a site. -/
abbrev SiteRead : Type := CachedRead source.Cursor Nat

/-- Whether a read replays segments. -/
def CachedRead.isReplaying (read : SiteRead) : Bool :=
  match read.phase with
  | .replaying => true
  | _ => false

section Standing

variable (directory stem : String)

/-- What a read has passed is in the segment that it writes. Without a segment it has passed nothing,
unless it does not write. -/
def SinkHolds (read : SiteRead) (records : List CachedRecord) : Prop :=
  match read.sink with
  | none => read.writing = true → records = []
  | some sink => read.writing = true ∧ Shelf.Pending directory stem read.nextIndex records sink

/-- What is written does not depend on where a read stands. -/
theorem SinkHolds.phase {directory stem : String} {read : SiteRead} {records : List CachedRecord}
    (h : SinkHolds directory stem read records) (phase : Phase source.Cursor) :
    SinkHolds directory stem { read with phase := phase } records := h

variable (segments : List (List (Placed Nat)))

/-- A read replays segments: it has replayed some events of those opened, and the rest is still to come. -/
structure Replaying (read : SiteRead) (yield : Yield) (opened : Nat) (replayed rest : List (Placed Nat)) :
    Prop where
  /-- The segments opened are some of those found at the start. -/
  opened_le : opened ≤ read.nextIndex
  /-- The others are still to be opened. -/
  segments_eq : read.segments =
    (List.range' opened (read.nextIndex - opened)).map (segmentPath directory stem)
  /-- The segments opened hold what was replayed and what is still to come. -/
  events_eq : replayed ++ rest = (segments.take opened).flatten
  /-- What is still to come is in the open file. -/
  current_eq : match read.current with
    | none => rest = []
    | some file => file.source = .ofBytes (encodeAll (rest.map cachedOf)) none
  /-- The last position is that of the last event replayed. -/
  lastPosition_eq : read.lastPosition = replayed.length
  /-- Nothing is written yet. -/
  sink_eq : read.sink = none
  /-- What was replayed was yielded. -/
  yield_eq : yield = ⟨replays replayed, [], none⟩

/-- A read passes the tail: after the events of the segments found at the start it has passed the log up
to some event. -/
structure Tailing (events : List (Placed Nat)) (read : SiteRead) (yield : Yield) (replayed passed : Nat) :
    Prop where
  /-- The events of the segments found at the start were replayed. -/
  replayed_eq : replayed = (segments.take read.nextIndex).flatten.length
  /-- The tail begins after them. -/
  replayed_le : replayed ≤ passed
  /-- It has not passed the end of the log. -/
  passed_le : passed ≤ events.length
  /-- What was replayed and passed was yielded. -/
  yield_eq : yield =
    ⟨replays (events.take replayed), results ((events.take passed).drop replayed), none⟩
  /-- What was passed was written, if anything is. -/
  sink_holds : SinkHolds directory stem read (((events.take passed).drop replayed).map cachedOf)

/-- A read through the cache stands on the shelf, where the segments found at its start still are. -/
inductive Stands (events : List (Placed Nat)) (read : SiteRead) (yield : Yield) : Prop where
  /-- It replays segments. -/
  | replaying (hn : read.nextIndex ≤ segments.length) (hphase : read.phase = .replaying) {opened : Nat}
    {replayed rest : List (Placed Nat)}
    (hr : Replaying directory stem segments read yield opened replayed rest)
  /-- It passes the tail. -/
  | tailing (hn : read.nextIndex ≤ segments.length) {replayed passed : Nat}
    (hphase : read.phase = .tail (tailCursor passed))
    (ht : Tailing directory stem segments events read yield replayed passed)
  /-- It is at its end. -/
  | done (hphase : read.phase = .done) (hsink : read.sink = none) (hc : yield.Complete)

variable {directory stem segments} {events events' : List (Placed Nat)} {read : SiteRead} {yield : Yield}

/-- What a read writes is a file of its own. -/
theorem Stands.sink_drawn (h : Stands directory stem segments events read yield) {sink : FileWriter}
    (hs : read.sink = some sink) :
    ∃ records, Shelf.Pending directory stem read.nextIndex records sink := by
  cases h with
  | replaying hn hphase hr =>
    rw [hr.sink_eq] at hs
    cases hs
  | tailing hn hphase ht =>
    have hholds := ht.sink_holds
    unfold SinkHolds at hholds
    rw [hs] at hholds
    exact ⟨_, hholds.2⟩
  | done hphase hsink hc =>
    rw [hsink] at hs
    cases hs

/-- A read that stands and has ended is complete. -/
theorem Stands.complete (h : Stands directory stem segments events read yield)
    (he : yield.ended.isSome = true) : yield.Complete := by
  cases h with
  | replaying hn hphase hr =>
    rw [hr.yield_eq] at he
    cases he
  | tailing hn hphase ht =>
    rw [ht.yield_eq] at he
    cases he
  | done hphase hsink hc => exact hc

/-- A read still stands when the log has grown and segments were added. -/
theorem Stands.grow (h : Stands directory stem segments events read yield) (he : events <+: events')
    (more : List (List (Placed Nat))) : Stands directory stem (segments ++ more) events' read yield := by
  have hlength : segments.length ≤ (segments ++ more).length := by
    rw [List.length_append]
    omega
  cases h with
  | replaying hn hphase hr =>
    have htake := take_of_grown (List.prefix_append segments more) (Nat.le_trans hr.opened_le hn)
    have hevents := hr.events_eq
    rw [← htake] at hevents
    exact .replaying (Nat.le_trans hn hlength) hphase { hr with events_eq := hevents }
  | tailing hn hphase ht =>
    have hreplayed := take_of_grown he (Nat.le_trans ht.replayed_le ht.passed_le)
    have hpassed := take_of_grown he ht.passed_le
    refine .tailing (Nat.le_trans hn hlength) hphase
      ⟨?_, ht.replayed_le, Nat.le_trans ht.passed_le he.length_le, ?_, ?_⟩
    · rw [take_of_grown (List.prefix_append segments more) hn]
      exact ht.replayed_eq
    · rw [hreplayed, hpassed]
      exact ht.yield_eq
    · rw [hpassed]
      exact ht.sink_holds
  | done hphase hsink hc => exact .done hphase hsink hc

end Standing

section Pulling

variable {options : Options} {place : Location} {segments : List (List (Placed Nat))} {site : Site}
  {read : SiteRead} {yield : Yield}

/-- A read that is opened goes by the segments that a scan finds. -/
theorem startRead_of_scan {scan : SegmentScan}
    (hscan : scanSegments site.files options.directory options.stem = .ok scan) :
    startRead filesPlace options source site =
      { segments := scan.replayablePaths options.directory options.stem
        nextIndex := scan.nextIndex
        lastPosition := 0
        writing := !options.readOnly && scan.stranded.isEmpty } := by
  unfold startRead
  rw [show scanSegments (filesPlace.get site) options.directory options.stem = _ from hscan]
  rfl

/-- A read that is opened stands on the shelf, before its first event. -/
theorem stands_startRead (h : Stocked options.directory options.stem place segments site) :
    Stands options.directory options.stem segments site.events
      (startRead filesPlace options source site) {} := by
  have hscan : scanSegments site.files options.directory options.stem =
      .ok ⟨List.range (segments.map (·.map cachedOf)).length, []⟩ := h.shelf.scan
  rw [List.length_map] at hscan
  have hnext : (⟨List.range segments.length, []⟩ : SegmentScan).nextIndex = segments.length :=
    List.length_range
  have hsegments : (List.range segments.length).map (segmentPath options.directory options.stem) =
      (List.range' 0 (segments.length - 0)).map (segmentPath options.directory options.stem) := by
    rw [Nat.sub_zero, List.range_eq_range']
  rw [startRead_of_scan hscan, hnext]
  refine .replaying (Nat.le_refl _) rfl (?_ : Replaying _ _ segments _ {} 0 [] [])
  exact ⟨Nat.zero_le _, hsegments, rfl, rfl, rfl, rfl, rfl⟩

/-- A record of the open segment is replayed. -/
theorem stands_replayRecord (h : Stocked options.directory options.stem place segments site)
    (hn : read.nextIndex ≤ segments.length) (hphase : read.phase = .replaying)
    {opened : Nat} {replayed rest : List (Placed Nat)}
    (hr : Replaying options.directory options.stem segments read yield opened replayed rest)
    {file : FileReader} (hfile : read.current = some file) :
    Stands options.directory options.stem segments site.events (replayRecord source read file).1
      (yield.add true site.store.log (replayRecord source read file).2) := by
  have hcurrent := hr.current_eq
  rw [hfile] at hcurrent
  dsimp only at hcurrent
  cases rest with
  | nil =>
    have hstep : replayRecord source read file = ({ read with current := none }, .skipped) := by
      unfold replayRecord FileReader.next
      rw [hcurrent]
      rfl
    rw [hstep, Yield.add_skipped]
    exact .replaying hn hphase { hr with current_eq := rfl }
  | cons e rest =>
    have hprefix : replayed ++ e :: rest <+: site.events := by
      rw [hr.events_eq]
      exact h.opened opened
    obtain ⟨hposition, hdenotes⟩ := h.position hprefix
    have hfits : (cachedOf e).Fits := by
      refine h.fits (?_ : e ∈ (segments.take opened).flatten)
      rw [← hr.events_eq]
      exact List.mem_append_right _ List.mem_cons_self
    have hread : readRecord file.source =
        .ok (some ((cachedOf e).floored, .ofBytes (encodeAll (rest.map cachedOf)) none)) := by
      rw [hcurrent, List.map_cons]
      exact readRecord_encodeAll_cons hfits (rest.map cachedOf)
    have hdeserialize : source.codec.deserialize (cachedOf e).floored.position = .ok e.position := hdenotes
    have hstep : replayRecord source read file =
        ({ read with
            current := some { file with
              source := .ofBytes (encodeAll (rest.map cachedOf)) none
              recordsRead := file.recordsRead + 1 }
            lastPosition := e.position }, .event e.floored) := by
      unfold replayRecord FileReader.next
      rw [hread]
      dsimp only
      rw [hdeserialize]
      rfl
    have hevents : (replayed ++ [e]) ++ rest = (segments.take opened).flatten := by
      rw [← hr.events_eq, List.append_assoc]
      rfl
    have hposition' : e.position = (replayed ++ [e]).length := by
      rw [List.length_append]
      exact hposition
    have hyield : yield.add true site.store.log (.event e.floored) = ⟨replays (replayed ++ [e]), [], none⟩ := by
      rw [hr.yield_eq, replays_append]
      rfl
    rw [hstep, hyield]
    exact .replaying hn hphase
      ⟨hr.opened_le, hr.segments_eq, hevents, rfl, hposition', hr.sink_eq, rfl⟩

/-- The next segment is opened, or the tail after the last one. -/
theorem stands_openNext (h : Stocked options.directory options.stem place segments site)
    (hn : read.nextIndex ≤ segments.length) (hphase : read.phase = .replaying)
    {opened : Nat} {replayed rest : List (Placed Nat)}
    (hr : Replaying options.directory options.stem segments read yield opened replayed rest)
    (hfile : read.current = none) :
    Stands options.directory options.stem segments site.events (openNext filesPlace source site read).1
      (yield.add true site.store.log (openNext filesPlace source site read).2) := by
  have hrest := hr.current_eq
  rw [hfile] at hrest
  dsimp only at hrest
  subst hrest
  have hevents := hr.events_eq
  rw [List.append_nil] at hevents
  by_cases hopened : opened < read.nextIndex
  · -- a segment is left
    have hlt : opened < segments.length := Nat.lt_of_lt_of_le hopened hn
    have hsegments : read.segments = segmentPath options.directory options.stem opened ::
        (List.range' (opened + 1) (read.nextIndex - (opened + 1))).map
          (segmentPath options.directory options.stem) := by
      rw [hr.segments_eq, show read.nextIndex - opened = read.nextIndex - (opened + 1) + 1 by omega,
        List.range'_succ, List.map_cons]
    have hopen := h.shelf.open_segment (getElem?_records hlt)
    have hstep : openNext filesPlace source site read =
        ({ read with
            segments := (List.range' (opened + 1) (read.nextIndex - (opened + 1))).map
              (segmentPath options.directory options.stem)
            current := some {
              path := segmentPath options.directory options.stem opened
              source := .ofBytes (encodeAll (segments[opened].map cachedOf)) none } }, .skipped) := by
      unfold openNext
      rw [hsegments]
      dsimp only
      rw [show FileReader.open (filesPlace.get site) _ = _ from hopen]
    have hevents' : replayed ++ segments[opened] = (segments.take (opened + 1)).flatten := by
      rw [List.take_add_one, List.getElem?_eq_getElem hlt, List.flatten_append, hevents]
      simp
    rw [hstep, Yield.add_skipped]
    exact .replaying hn hphase
      ⟨hopened, rfl, hevents', rfl, hr.lastPosition_eq, hr.sink_eq, hr.yield_eq⟩
  · have hlast : opened = read.nextIndex := Nat.le_antisymm hr.opened_le (Nat.le_of_not_lt hopened)
    subst hlast
    have hsegments : read.segments = [] := by
      rw [hr.segments_eq, Nat.sub_self]
      rfl
    have hstep : openNext filesPlace source site read =
        ({ read with phase := .tail (tailCursor replayed.length) }, .skipped) := by
      unfold openNext
      rw [hsegments, hr.lastPosition_eq]
      rfl
    have hprefix : replayed <+: site.events := by
      rw [hevents]
      exact h.opened _
    rw [hstep, Yield.add_skipped]
    refine .tailing hn rfl ⟨congrArg List.length hevents, Nat.le_refl _, hprefix.length_le, ?_, ?_⟩
    · rw [hr.yield_eq, ← List.prefix_iff_eq_take.1 hprefix, List.drop_length]
      rfl
    · unfold SinkHolds
      dsimp only
      rw [hr.sink_eq, List.drop_take_self]
      intro hw
      rfl

/-- Ending the writing leaves the shelf as it is. -/
theorem stocked_stopWriting (h : Stocked options.directory options.stem place segments site)
    (hsink : ∀ sink, read.sink = some sink → ¬ IsSegment options.stem sink.temporary.name) :
    Stocked options.directory options.stem place segments (stopWriting filesPlace source site read).1 ∧
      (stopWriting filesPlace source site read).1.store = site.store := by
  unfold stopWriting
  cases hs : read.sink with
  | none => exact ⟨h, rfl⟩
  | some sink =>
    have hshelf := h.shelf.undisturbed (FileSystem.Undisturbed.discardFile (hsink sink hs))
    exact ⟨h.refiled hshelf, rfl⟩

/-- A read that has ended the writing holds nothing. -/
theorem stopWriting_read (site : Site) (read : SiteRead) :
    (stopWriting filesPlace source site read).2 = { read with sink := none, writing := false } := by
  unfold stopWriting
  split
  · rename_i hs
    dsimp only
    rw [← hs]
  · rfl

/-- What writing an event of the tail leaves: the shelf as it is, and a read that holds some records. -/
structure Wrote (options : Options) (place : Location) (segments : List (List (Placed Nat))) (store : Store)
    (read : SiteRead) (records : List CachedRecord) (result : Site × SiteRead) : Prop where
  /-- The shelf is as it was. -/
  stocked : Stocked options.directory options.stem place segments result.1
  /-- The store is as it was. -/
  store_eq : result.1.store = store
  /-- The read goes on where it was. -/
  phase_eq : result.2.phase = read.phase
  /-- The segment that it writes keeps its number. -/
  nextIndex_eq : result.2.nextIndex = read.nextIndex
  /-- It holds the records. -/
  holds : SinkHolds options.directory options.stem result.2 records

/-- A read that ends the writing holds anything. -/
theorem wrote_stopWriting (h : Stocked options.directory options.stem place segments site)
    (hsink : ∀ sink, read.sink = some sink → ¬ IsSegment options.stem sink.temporary.name)
    (records : List CachedRecord) :
    Wrote options place segments site.store read records (stopWriting filesPlace source site read) := by
  obtain ⟨hstocked, hstore⟩ := stocked_stopWriting h hsink
  have hread := stopWriting_read site read
  refine ⟨hstocked, hstore, ?_, ?_, ?_⟩
  · rw [hread]
  · rw [hread]
  · rw [hread]
    unfold SinkHolds
    intro hw
    cases hw

/-- Writing an event to a file that is there. -/
def appendTo (site : Site) (read : SiteRead) (sink : FileWriter) (e : Placed Nat) : Site × SiteRead :=
  match sink.append (cachedOf e) with
  | (sink, none) => (site, { read with sink := some sink })
  | (sink, some _) => stopWriting filesPlace source site { read with sink := some sink }

/-- An event is written to the file that is there. -/
theorem writeThrough_of_sinkFor (hw : read.writing = true) {site' : Site} {sink : FileWriter}
    (hs : sinkFor filesPlace options source site read = (site', .ok sink)) (e : Placed Nat) :
    writeThrough filesPlace options source site read e = appendTo site' read sink e := by
  unfold writeThrough
  rw [if_pos hw, hs]
  rfl

/-- A record is written to the file that is there, or the writing ends. -/
theorem wrote_appendTo (h : Stocked options.directory options.stem place segments site)
    (hw : read.writing = true) {sink : FileWriter} {records : List CachedRecord}
    (hp : Shelf.Pending options.directory options.stem read.nextIndex records sink) {e : Placed Nat}
    (he : -(Bytes.modulus64 : Int) ≤ 2 * e.record.number ∧ 2 * e.record.number < Bytes.modulus64) :
    Wrote options place segments site.store read (records ++ [cachedOf e]) (appendTo site read sink e) := by
  unfold appendTo
  rcases ha : sink.append (cachedOf e) with ⟨sink', e' | e'⟩
  · exact ⟨h, rfl, rfl, rfl, hw, hp.append he ha⟩
  · have htemporary := (FileWriter.append_eq_error ha).1
    have hsink : ∀ other, some sink' = some other → ¬ IsSegment options.stem other.temporary.name := by
      intro other ho
      cases ho
      rw [htemporary]
      exact hp.not_isSegment
    have hstopped : Wrote options place segments site.store { read with sink := some sink' }
        (records ++ [cachedOf e]) (stopWriting filesPlace source site { read with sink := some sink' }) :=
      wrote_stopWriting h hsink _
    exact ⟨hstopped.stocked, hstopped.store_eq, hstopped.phase_eq, hstopped.nextIndex_eq, hstopped.holds⟩

/-- Starting the segment that a read writes. -/
def newSink (options : Options) (site : Site) (read : SiteRead) : FileSystem × Except CacheError FileWriter :=
  FileWriter.create site.files (segmentPath options.directory options.stem read.nextIndex) options.stem

/-- The site after the segment that a read writes was started. -/
def withSink (options : Options) (site : Site) (read : SiteRead) : Site :=
  { site with files := (newSink options site read).1 }

/-- Starting a segment leaves the store as it is. -/
theorem store_withSink (options : Options) (site : Site) (read : SiteRead) :
    (withSink options site read).store = site.store := by
  unfold withSink
  rfl

/-- A read without a segment starts one. -/
theorem sinkFor_none (options : Options) (site : Site) (hs : read.sink = none) :
    sinkFor filesPlace options source site read =
      (withSink options site read, (newSink options site read).2) := by
  have hget : filesPlace.get site = site.files := rfl
  unfold sinkFor withSink newSink
  rw [hs, hget]
  dsimp only
  rcases FileWriter.create site.files (segmentPath options.directory options.stem read.nextIndex)
    options.stem with ⟨files, created⟩
  rfl

/-- Starting the segment leaves the shelf as it is. -/
theorem stocked_withSink (h : Stocked options.directory options.stem place segments site) (read : SiteRead) :
    Stocked options.directory options.stem place segments (withSink options site read) ∧
      ∀ sink, (newSink options site read).2 = .ok sink →
        Shelf.Pending options.directory options.stem read.nextIndex [] sink := by
  obtain ⟨hshelf, hpending⟩ := h.shelf.create read.nextIndex
  exact ⟨h.refiled hshelf, hpending⟩

/-- An event of the tail is written, if anything is. -/
theorem wrote_writeThrough (h : Stocked options.directory options.stem place segments site)
    {records : List CachedRecord} (hs : SinkHolds options.directory options.stem read records)
    {e : Placed Nat}
    (he : -(Bytes.modulus64 : Int) ≤ 2 * e.record.number ∧ 2 * e.record.number < Bytes.modulus64) :
    Wrote options place segments site.store read (records ++ [cachedOf e])
      (writeThrough filesPlace options source site read e) := by
  unfold SinkHolds at hs
  by_cases hw : read.writing = true
  · cases hsink : read.sink with
    | some sink =>
      rw [hsink] at hs
      have hfor : sinkFor filesPlace options source site read = (site, .ok sink) := by
        unfold sinkFor
        rw [hsink]
      rw [writeThrough_of_sinkFor hw hfor]
      exact wrote_appendTo h hw hs.2 he
    | none =>
      rw [hsink] at hs
      have hnil := hs hw
      subst hnil
      obtain ⟨hstocked, hpending⟩ := stocked_withSink h read
      have hfor := sinkFor_none options site hsink
      cases hc : (newSink options site read).2 with
      | error e' =>
        rw [hc] at hfor
        have hstep : writeThrough filesPlace options source site read e =
            stopWriting filesPlace source (withSink options site read) read := by
          unfold writeThrough
          rw [if_pos hw, hfor]
        have hnone : ∀ sink, read.sink = some sink → ¬ IsSegment options.stem sink.temporary.name := by
          intro sink hs'
          rw [hsink] at hs'
          cases hs'
        have hstopped := wrote_stopWriting hstocked hnone ([] ++ [cachedOf e])
        rw [store_withSink] at hstopped
        rw [hstep]
        exact hstopped
      | ok sink =>
        rw [hc] at hfor
        have happended := wrote_appendTo hstocked hw (hpending sink hc) he
        rw [store_withSink] at happended
        rw [writeThrough_of_sinkFor hw hfor]
        exact happended
  · have hstep : writeThrough filesPlace options source site read e = (site, read) := by
      unfold writeThrough
      rw [if_neg hw]
    rw [hstep]
    refine ⟨h, rfl, rfl, rfl, ?_⟩
    unfold SinkHolds
    cases hsink : read.sink with
    | none => exact fun hw' => absurd hw' hw
    | some sink =>
      rw [hsink] at hs
      exact absurd hs.1 hw

/-- At the end of the tail the new segment is finished. It is the next one and holds the rest of the log,
or nothing is added. -/
theorem stocked_finishSegment (h : Stocked options.directory options.stem place segments site)
    (hn : read.nextIndex ≤ segments.length) {replayed passed : Nat}
    (ht : Tailing options.directory options.stem segments site.events read yield replayed passed)
    (hend : site.events.length ≤ passed) :
    ∃ more, Stocked options.directory options.stem place (segments ++ more)
        (finishSegment filesPlace source site { read with phase := .done }).1 ∧
      (finishSegment filesPlace source site { read with phase := .done }).1.store = site.store := by
  have hholds := ht.sink_holds
  rw [List.take_of_length_le hend] at hholds
  unfold SinkHolds at hholds
  unfold finishSegment
  cases hsink : read.sink with
  | none =>
    refine ⟨[], ?_, rfl⟩
    rw [List.append_nil]
    exact h
  | some sink =>
    rw [hsink] at hholds
    have hindex : read.nextIndex ≤ (segments.map (·.map cachedOf)).length := by
      rw [List.length_map]
      exact hn
    rcases h.shelf.finish hholds.2 hindex with hsame | ⟨hlast, hmore⟩
    · refine ⟨[], ?_, rfl⟩
      rw [List.append_nil]
      exact h.refiled hsame
    · rw [List.length_map] at hlast
      have hreplayed : replayed = segments.flatten.length := by
        rw [ht.replayed_eq, hlast, List.take_length]
      have hall : segments.flatten ++ site.events.drop replayed = site.events := by
        have hheld := List.prefix_iff_eq_take.1 h.held
        rw [← hreplayed] at hheld
        rw [hheld, List.take_append_drop]
      have hflat : (segments ++ [site.events.drop replayed]).flatten = site.events := by
        rw [List.flatten_append, List.flatten_singleton, hall]
      have hheld : (segments ++ [site.events.drop replayed]).flatten <+: site.events :=
        ⟨[], by rw [hflat, List.append_nil]⟩
      have hshelf : Shelf options.directory options.stem place
          ((segments ++ [site.events.drop replayed]).map (·.map cachedOf)) (sink.finish site.files).1 := by
        rw [List.map_append]
        exact hmore
      exact ⟨[site.events.drop replayed], ⟨h.reached, h.bounded, hshelf, hheld⟩, rfl⟩

/-- The new segment is let go when it is finished. -/
theorem finishSegment_read (site : Site) (read : SiteRead) :
    (finishSegment filesPlace source site read).2 = { read with sink := none } := by
  unfold finishSegment
  split
  · rename_i hs
    dsimp only
    rw [← hs]
  · rfl

/-- A pull of the tail before the end of the log. -/
theorem pullTail_of_some (options : Options) (read : SiteRead) {passed : Nat} {e : Placed Nat}
    (he : site.events[passed]? = some e) :
    pullTail filesPlace options source site read (tailCursor passed) =
      ((writeThrough filesPlace options source site
          { read with phase := .tail (tailCursor (passed + 1)) } e).1,
        (writeThrough filesPlace options source site
          { read with phase := .tail (tailCursor (passed + 1)) } e).2, .event e) := by
  unfold pullTail
  rw [pull_tailCursor, he]

/-- A pull of the tail at the end of the log. -/
theorem pullTail_of_none (options : Options) (read : SiteRead) {passed : Nat}
    (he : site.events[passed]? = none) :
    pullTail filesPlace options source site read (tailCursor passed) =
      ((finishSegment filesPlace source site { read with phase := .done }).1,
        (finishSegment filesPlace source site { read with phase := .done }).2, .finished) := by
  unfold pullTail
  rw [pull_tailCursor, he]
  dsimp only
  rw [show source.close site (tailCursor passed) = site from rfl]

/-- What a pull leaves: the store as it was, a shelf to which segments may have been added, and a read
that stands on it. -/
def PullKeeps (options : Options) (place : Location) (segments : List (List (Placed Nat))) (site : Site)
    (yield : Yield) (result : Site × SiteRead) : Prop :=
  ∃ more, Stocked options.directory options.stem place (segments ++ more) result.1 ∧
    result.1.store = site.store ∧
    Stands options.directory options.stem (segments ++ more) site.events result.2 yield

/-- A pull keeps the shelf if it adds nothing. -/
theorem PullKeeps.of_stands {result : Site × SiteRead}
    (h : Stocked options.directory options.stem place segments result.1)
    (hstore : result.1.store = site.store)
    (hs : Stands options.directory options.stem segments site.events result.2 yield) :
    PullKeeps options place segments site yield result := by
  refine ⟨[], ?_, hstore, ?_⟩
  · rw [List.append_nil]
    exact h
  · rw [List.append_nil]
    exact hs

/-- A pull of the tail keeps the shelf, and the read stands on it. -/
theorem pullKeeps_pullTail (h : Stocked options.directory options.stem place segments site)
    (hn : read.nextIndex ≤ segments.length) {replayed passed : Nat}
    (ht : Tailing options.directory options.stem segments site.events read yield replayed passed) :
    PullKeeps options place segments site
      (yield.add false site.store.log
        (pullTail filesPlace options source site read (tailCursor passed)).2.2)
      ((pullTail filesPlace options source site read (tailCursor passed)).1,
        (pullTail filesPlace options source site read (tailCursor passed)).2.1) := by
  cases he : site.events[passed]? with
  | some e =>
    obtain ⟨hlt, hge⟩ := List.getElem?_eq_some_iff.1 he
    have hdrop : (site.events.take (passed + 1)).drop replayed =
        (site.events.take passed).drop replayed ++ [e] := by
      rw [List.take_add_one, he, List.drop_append_of_le_length]
      · rfl
      · rw [List.length_take_of_le (Nat.le_of_lt hlt)]
        exact ht.replayed_le
    have hwrote := wrote_writeThrough h (ht.sink_holds.phase (.tail (tailCursor (passed + 1))))
      (h.number_fits (List.mem_of_getElem? he))
    rw [pullTail_of_some options read he]
    generalize writeThrough filesPlace options source site
      { read with phase := .tail (tailCursor (passed + 1)) } e = result at hwrote ⊢
    have hindex : result.2.nextIndex = read.nextIndex := hwrote.nextIndex_eq
    have hreplayed : replayed = (segments.take result.2.nextIndex).flatten.length := by
      rw [hindex]
      exact ht.replayed_eq
    have hyield : yield.add false site.store.log (.event e) = ⟨replays (site.events.take replayed),
        results ((site.events.take (passed + 1)).drop replayed), none⟩ := by
      rw [hdrop, ht.yield_eq, results_append]
      rfl
    have hholds : SinkHolds options.directory options.stem result.2
        (((site.events.take (passed + 1)).drop replayed).map cachedOf) := by
      rw [hdrop, List.map_append]
      exact hwrote.holds
    have htailing : Tailing options.directory options.stem segments site.events result.2
        (yield.add false site.store.log (.event e)) replayed (passed + 1) :=
      ⟨hreplayed, Nat.le_succ_of_le ht.replayed_le, hlt, hyield, hholds⟩
    have hnext : result.2.nextIndex ≤ segments.length := by
      rw [hindex]
      exact hn
    exact .of_stands hwrote.stocked hwrote.store_eq (.tailing hnext hwrote.phase_eq htailing)
  | none =>
    have hend : site.events.length ≤ passed := List.getElem?_eq_none_iff.1 he
    obtain ⟨more, hstocked, hstore⟩ := stocked_finishSegment h hn ht hend
    rw [pullTail_of_none options read he]
    refine ⟨more, hstocked, hstore, ?_⟩
    have hread := finishSegment_read site { read with phase := .done }
    rw [hread]
    refine .done rfl rfl ?_
    refine ⟨site.store.log, replayed, Nat.le_trans ht.replayed_le ht.passed_le, ?_⟩
    rw [ht.yield_eq, List.take_of_length_le hend]
    rfl

/-- A pull keeps the shelf, and the read stands on it. -/
theorem pullKeeps_pullCached (h : Stocked options.directory options.stem place segments site)
    (hs : Stands options.directory options.stem segments site.events read yield) :
    PullKeeps options place segments site
      (yield.add read.isReplaying site.store.log
        (pullCached filesPlace options source site read).2.2)
      ((pullCached filesPlace options source site read).1,
        (pullCached filesPlace options source site read).2.1) := by
  unfold pullCached CachedRead.isReplaying
  cases hs with
  | replaying hn hphase hr =>
    rw [hphase]
    cases hfile : read.current with
    | some file => exact .of_stands h rfl (stands_replayRecord h hn hphase hr hfile)
    | none => exact .of_stands h rfl (stands_openNext h hn hphase hr hfile)
  | tailing hn hphase ht =>
    rw [hphase]
    exact pullKeeps_pullTail h hn ht
  | done hphase hsink hc =>
    rw [hphase]
    refine .of_stands h rfl (.done hphase hsink ?_)
    obtain ⟨log, count, hcount, rfl⟩ := hc
    exact ⟨log, count, hcount, rfl⟩

/-- Giving up a read ends the writing, and there is nothing to be done about the tail. -/
theorem closeCached_eq (site : Site) (read : SiteRead) :
    closeCached filesPlace source site read = (stopWriting filesPlace source site read).1 := by
  unfold closeCached
  cases read.phase <;> rfl

/-- Giving up a read whose segment is a file of its own keeps the shelf. -/
theorem stocked_closeCached (h : Stocked options.directory options.stem place segments site)
    (hdrawn : ∀ {sink}, read.sink = some sink →
      ∃ records, Shelf.Pending options.directory options.stem read.nextIndex records sink) :
    Stocked options.directory options.stem place segments (closeCached filesPlace source site read) ∧
      (closeCached filesPlace source site read).store = site.store := by
  have hsink : ∀ sink, read.sink = some sink → ¬ IsSegment options.stem sink.temporary.name := by
    intro sink hsink
    obtain ⟨records, hp⟩ := hdrawn hsink
    exact hp.not_isSegment
  rw [closeCached_eq]
  exact stocked_stopWriting h hsink

end Pulling

section Store

variable (options : Options) (site : Site) (read : SiteRead)

/-- Ending the writing leaves the store as it is. -/
theorem store_stopWriting : (stopWriting filesPlace source site read).1.store = site.store := by
  unfold stopWriting
  split <;> rfl

/-- Writing an event of the tail leaves the store as it is. -/
theorem store_writeThrough (e : Placed Nat) :
    (writeThrough filesPlace options source site read e).1.store = site.store := by
  have hsink : (sinkFor filesPlace options source site read).1.store = site.store := by
    cases hs : read.sink with
    | none =>
      rw [sinkFor_none options site hs]
      exact store_withSink options site read
    | some sink =>
      unfold sinkFor
      rw [hs]
  unfold writeThrough
  split
  · rcases hs : sinkFor filesPlace options source site read with ⟨site', e' | sink⟩
    · rw [hs] at hsink
      exact (store_stopWriting site' read).trans hsink
    · rw [hs] at hsink
      dsimp only
      split
      · exact hsink
      · exact (store_stopWriting site' _).trans hsink
  · rfl

/-- Finishing the segment leaves the store as it is. -/
theorem store_finishSegment : (finishSegment filesPlace source site read).1.store = site.store := by
  unfold finishSegment
  split <;> rfl

/-- A pull of the source leaves everything as it is. -/
theorem pull_source (cursor : source.Cursor) :
    source.pull site cursor = (site, (source.pull site cursor).2) := rfl

/-- A pull leaves the store as it is. -/
theorem store_pullCached : (pullCached filesPlace options source site read).1.store = site.store := by
  unfold pullCached
  split
  · rfl
  · unfold pullTail
    rw [pull_source]
    rcases (source.pull site _).2 with ⟨cursor, found⟩
    cases found with
    | event e => exact store_writeThrough options site _ e
    | failure e => exact store_stopWriting site _
    | skipped => rfl
    | finished => exact store_finishSegment site _
  · rfl
  · rfl

end Store

end Cache

end Chronicle
