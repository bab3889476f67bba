import Mathlib.Data.List.Induction
import Chronicle.Proofs.Cache.Completing
import Chronicle.Proofs.Cache.Sharing

/-!
# A cache along a history of reads

Appends to one store and reads through one cache follow each other. Reads do not overlap, and each is run
to its end or dropped before; while it is open the log may grow. What the cache holds in the end does not
depend on any of this but on the last read that was run to its end: it yields the log as it was then, to
whoever reads it. A read that was run to its end adds one segment if there were events to add, and no
other read adds any.

The names of the files must be such that the system accepts them. Otherwise nothing is written, and a read
through the cache does not fail for that.
-/

namespace Chronicle.Cache

open Site

/-- What happens while a read is open. -/
inductive Turn where
  /-- Somebody appends to the store. -/
  | append (stream : StreamId) (events : List NewEvent)
  /-- The read is pulled. -/
  | pull

/-- What happens around a cache whose reads do not overlap. -/
inductive Episode where
  /-- Somebody appends to the store. -/
  | append (stream : StreamId) (events : List NewEvent)
  /-- A read is opened through the cache, and dropped after some turns. -/
  | read (level : Nat) (sync : Bool) (turns : List Turn)

/-- A read that is opened through a cache, and adds to it. -/
def Reading.opened (directory stem : String) (level : Nat) (sync : Bool) (site : Site) : Reading :=
  let options : Options := { directory := directory, stem := stem, level := level, sync := sync }
  { options := options, cursor := some (.cached (startRead filesPlace options source site)) }

/-- One turn of a read. -/
def Reading.turn : Site × Reading → Turn → Site × Reading
  | (site, reading), .append stream events =>
    (storePlace.set site (site.store.append stream events), reading)
  | (site, reading), .pull => reading.pull site

/-- A read that was run to its end. -/
structure Completed where
  /-- The log when the read came to its end. -/
  log : Log
  /-- What the cache yielded before the read. -/
  cached : List (Placed Nat)
  /-- The segments before the read. -/
  before : Except CacheError SegmentScan
  /-- The segments after the read. -/
  after : Except CacheError SegmentScan

/-- Whether there were events beyond those that the cache yielded. -/
def Completed.adds (read : Completed) : Bool := read.cached.length < read.log.events.length

/-- A site and the reads that were run to their end there, in order. -/
structure History where
  /-- The store and the files. -/
  site : Site
  /-- The reads that were run to their end. -/
  completed : List Completed := []

namespace History

/-- How many reads had something to add. -/
def additions (history : History) : Nat := history.completed.countP Completed.adds

/-- The log when the last read came to its end, without events if there was none. -/
def kept (history : History) : List (Placed Nat) :=
  (history.completed.getLast?.map (·.log.events)).getD []

section

variable (directory stem : String)

/-- An episode of a history. -/
def episode (history : History) : Episode → History
  | .append stream events =>
    { history with site := storePlace.set history.site (history.site.store.append stream events) }
  | .read level sync turns =>
    let options : Options := { directory := directory, stem := stem, level := level, sync := sync }
    match Reading.fromStart options history.site with
    | none => history
    | some reading =>
      let (site, reading) := turns.foldl Reading.turn (history.site, reading)
      let (site, reading) := reading.drop site
      { site := site
        completed := history.completed ++ reading.yield.ended.toList.map fun log =>
          { log := log
            cached := replayable source.codec history.site.files directory stem
            before := scanSegments history.site.files directory stem
            after := scanSegments site.files directory stem } }

/-- A history of episodes. -/
def run (site : Site) (episodes : List Episode) : History :=
  episodes.foldl (episode directory stem) { site := site }

end

end History

/-- What a caching reader of a store without events yields. -/
def readFresh (options : Options) (clock : Nat → Timestamp) (files : FileSystem) (limit : Nat) :
    Except StoreError (List (Item Nat)) :=
  let site : Site := ⟨Store.withClock clock, files⟩
  let reader := cachingReader options
  (fun cursor => (reader.take limit site cursor).2.2) <$> reader.forwardsFrom site reader.emptyPosition

/-- A reader of a store without events yields what the cache does. -/
theorem readFresh_eq (options : Options) (clock : Nat → Timestamp) (files : FileSystem) (limit : Nat) :
    readFresh options clock files limit =
      .ok ((results (replayable source.codec files options.directory options.stem)).take limit) := by
  have htake := take_startRead options ⟨Store.withClock clock, files⟩ limit
  have hnil : (Site.mk (Store.withClock clock) files).events = [] := rfl
  dsimp only at htake
  rw [hnil, List.drop_nil, List.append_nil] at htake
  unfold readFresh cachingReader eventReader
  dsimp only
  rw [if_pos rfl]
  exact congrArg Except.ok htake

section Turns

variable {directory stem : String} {place : Location} {count held drawn : Nat} {site : Site}
  {reading : Reading}

/-- A read through the cache that is the only one. -/
structure Reading.Alone (directory stem : String) (place : Location) (count held drawn : Nat) (site : Site)
    (reading : Reading) : Prop where
  /-- It goes through the directory. -/
  directory_eq : reading.options.directory = directory
  /-- It goes by the stem. -/
  stem_eq : reading.options.stem = stem
  /-- It is open and writes alone. -/
  solo : ∃ read, reading.cursor = some (.cached read) ∧
    Solo directory stem place count held drawn site read reading.yield.ended

/-- A turn does not take events from the log. -/
theorem Reading.events_turn (state : Site × Reading) (turn : Turn) :
    state.1.events <+: (Reading.turn state turn).1.events := by
  obtain ⟨site, reading⟩ := state
  cases turn with
  | append stream events => exact site.store.log.prefix_append stream events _
  | pull =>
    have hstore := Reading.store_pull site reading
    exact ⟨[], (List.append_nil _).trans (congrArg (fun store => store.log.events) hstore).symm⟩

/-- Turns do not take events from the log. -/
theorem Reading.events_turns (state : Site × Reading) (turns : List Turn) :
    state.1.events <+: (turns.foldl Reading.turn state).1.events := by
  induction turns generalizing state with
  | nil => exact List.prefix_rfl
  | cons turn rest ih => exact (Reading.events_turn state turn).trans (ih (Reading.turn state turn))

/-- The end that a pull finds is noted. -/
theorem Yield.ended_add (yield : Yield) (replaying : Bool) (log : Log) (found : Found Nat) :
    (yield.add replaying log found).ended = endedAfter yield.ended log found := by
  cases found <;> cases replaying <;> rfl

/-- A turn leaves a read alone. -/
theorem Reading.Alone.turn (h : reading.Alone directory stem place count held drawn site) (turn : Turn)
    (hlimit : count < segmentLimit) (hn : Nameable directory stem (count + 1) (drawn + 1))
    (hsize : 2 * (Reading.turn (site, reading) turn).1.store.size ≤ Bytes.modulus64)
    (hstorable : ∀ e ∈ (Reading.turn (site, reading) turn).1.events, (cachedOf e).Storable) :
    (Reading.turn (site, reading) turn).2.Alone directory stem place count held drawn
      (Reading.turn (site, reading) turn).1 := by
  obtain ⟨read, hcursor, hsolo⟩ := h.solo
  cases turn with
  | append stream events =>
    exact ⟨h.directory_eq, h.stem_eq, read, hcursor, hsolo.append stream events hsize⟩
  | pull =>
    have hbefore : ∀ e ∈ site.events, (cachedOf e).Storable := fun e he =>
      hstorable e ((Reading.events_turn (site, reading) .pull).subset he)
    obtain ⟨options, cursor, yield⟩ := reading
    obtain rfl : cursor = some (.cached read) := hcursor
    have hpulled := hsolo.pull h.directory_eq h.stem_eq hlimit hn hbefore
    refine ⟨h.directory_eq, h.stem_eq, _, rfl, ?_⟩
    change Solo _ _ _ _ _ _ _ _ (yield.add _ _ _).ended
    rw [Yield.ended_add]
    exact hpulled

/-- Turns leave a read alone. -/
theorem Reading.Alone.turns (h : reading.Alone directory stem place count held drawn site)
    (turns : List Turn) (hlimit : count < segmentLimit)
    (hn : Nameable directory stem (count + 1) (drawn + 1))
    (hsize : 2 * (turns.foldl Reading.turn (site, reading)).1.store.size ≤ Bytes.modulus64)
    (hstorable : ∀ e ∈ (turns.foldl Reading.turn (site, reading)).1.events, (cachedOf e).Storable) :
    (turns.foldl Reading.turn (site, reading)).2.Alone directory stem place count held drawn
      (turns.foldl Reading.turn (site, reading)).1 := by
  induction turns generalizing site reading with
  | nil => exact h
  | cons turn rest ih =>
    have hgrown := Reading.events_turns (Reading.turn (site, reading) turn) rest
    have hfirst : 2 * (Reading.turn (site, reading) turn).1.store.size ≤ Bytes.modulus64 :=
      Nat.le_trans (Nat.mul_le_mul_left 2 hgrown.length_le) hsize
    exact ih (h.turn turn hlimit hn hfirst fun e he => hstorable e (hgrown.subset he)) hsize hstorable

end Turns

section Episodes

variable {directory stem : String} {place : Location} {serials : Nat} {history : History}

/-- A read that was run to its end had found the first events of the log in the cache, and added one segment
if there were others. -/
structure Completed.Sound (read : Completed) : Prop where
  /-- The cache yielded the first events of the log. -/
  cached_eq : read.cached = (read.log.events.take read.cached.length).map .floored
  /-- One segment was added to those that were there, if there was anything to add. -/
  grown : ∃ count, read.before = .ok ⟨List.range count, []⟩ ∧
    read.after = .ok ⟨List.range (count + if read.adds then 1 else 0), []⟩

namespace History

/-- The cache keeps what the last read that was run to its end has seen of the log, and there is a segment
for every read that had something to add. -/
structure Sound (directory stem : String) (place : Location) (serials : Nat) (history : History) : Prop where
  /-- The cache keeps these events. -/
  kept : Kept directory stem place history.additions history.kept.length history.site
  /-- The log begins with them. -/
  kept_le : history.kept <+: history.site.events
  /-- All reads that were run to their end found what they should, and added what they should. -/
  completed : ∀ read ∈ history.completed, read.Sound
  /-- No more names were drawn than this. -/
  drawn : history.site.files.temporaries ≤ serials

/-- A read in a history: it is opened, some turns are taken, and it is dropped. -/
theorem episode_read (level : Nat) (sync : Bool) (turns : List Turn) :
    let state := turns.foldl Reading.turn
      (history.site, Reading.opened directory stem level sync history.site)
    history.episode directory stem (.read level sync turns) =
      { site := (state.2.drop state.1).1
        completed := history.completed ++ (state.2.drop state.1).2.yield.ended.toList.map fun log =>
          { log := log
            cached := replayable source.codec history.site.files directory stem
            before := scanSegments history.site.files directory stem
            after := scanSegments (state.2.drop state.1).1.files directory stem } } := by
  unfold episode
  dsimp only
  rw [Reading.fromStart_eq]
  rfl

/-- An episode neither takes events from the log nor a read from those that were run to their end. -/
theorem episode_grows (directory stem : String) (history : History) (episode : Episode) :
    history.site.events <+: (history.episode directory stem episode).site.events ∧
      history.completed <+: (history.episode directory stem episode).completed := by
  cases episode with
  | append stream events =>
    exact ⟨history.site.store.log.prefix_append stream events _, List.prefix_rfl⟩
  | read level sync turns =>
    rw [episode_read]
    refine ⟨?_, List.prefix_append _ _⟩
    have hgrown := Reading.events_turns
      (history.site, Reading.opened directory stem level sync history.site) turns
    unfold Site.events
    rw [Reading.store_drop]
    exact hgrown

/-- A read that is dropped lets go of the cache. -/
theorem drop_eq {site : Site} {reading : Reading} {read : SiteRead}
    (h : reading.cursor = some (.cached read)) :
    reading.drop site = (closeCached filesPlace source site read, { reading with cursor := none }) := by
  unfold Reading.drop
  rw [h]
  rfl

/-- A read after which the cache keeps the log, from the first events that it kept before. -/
theorem completed_sound {count held : Nat} {site later : Site} {log : Log}
    (h : Kept directory stem place count held history.site)
    (hgrown : history.site.events <+: later.events) (hheld : held ≤ log.events.length)
    (hlog : log.events <+: later.events)
    (hsite : Kept directory stem place (count + if held < log.events.length then 1 else 0)
      log.events.length site) :
    let read : Completed :=
      { log := log
        cached := replayable source.codec history.site.files directory stem
        before := scanSegments history.site.files directory stem
        after := scanSegments site.files directory stem }
    read.Sound ∧ (read.adds = decide (held < log.events.length)) := by
  intro read
  have htake : log.events.take held = history.site.events.take held :=
    (take_of_grown hlog hheld).symm.trans (take_of_grown hgrown h.held_le)
  have hcached : read.cached = (log.events.take held).map .floored := by
    rw [htake]
    exact h.replayable_eq
  have hlength : read.cached.length = held := by
    rw [hcached, List.length_map, List.length_take_of_le hheld]
  have hadds : read.adds = decide (held < log.events.length) := by
    unfold Completed.adds
    rw [hlength]
  refine ⟨⟨?_, count, h.row.scan, ?_⟩, hadds⟩
  · rw [hlength]
    exact hcached
  · rw [hadds]
    simp only [decide_eq_true_eq]
    exact hsite.row.scan

/-- A history stays sound with one more read that was run to its end. -/
theorem Sound.complete (h : history.Sound directory stem place serials) {completed : Completed}
    (hsound : completed.Sound)
    (hadds : completed.adds = decide (history.kept.length < completed.log.events.length)) {later : Site}
    (hkept : Kept directory stem place
      (history.additions + if history.kept.length < completed.log.events.length then 1 else 0)
      completed.log.events.length later)
    (hlog : completed.log.events <+: later.events) {drawn : Nat} (hdrawn : later.files.temporaries ≤ drawn) :
    (History.mk later (history.completed ++ [completed])).Sound directory stem place drawn := by
  have hlast : (History.mk later (history.completed ++ [completed])).kept = completed.log.events := by
    unfold History.kept
    rw [List.getLast?_concat]
    rfl
  have hcount : (History.mk later (history.completed ++ [completed])).additions =
      history.additions + if history.kept.length < completed.log.events.length then 1 else 0 := by
    unfold History.additions
    rw [List.countP_append, List.countP_singleton, hadds]
    simp only [decide_eq_true_eq]
  refine ⟨?_, ?_, ?_, hdrawn⟩
  · rw [hlast, hcount]
    exact hkept
  · rw [hlast]
    exact hlog
  · intro other ho
    rcases List.mem_append.1 ho with ho | ho
    · exact h.completed other ho
    · rw [List.mem_singleton.1 ho]
      exact hsound

/-- An episode keeps a history sound, as long as its reads find names and records within the limits. -/
theorem Sound.episode (h : history.Sound directory stem place serials) (episode : Episode)
    (hsize : 2 * (history.episode directory stem episode).site.store.size ≤ Bytes.modulus64)
    (hstorable : ∀ e ∈ (history.episode directory stem episode).site.events, (cachedOf e).Storable)
    (hfew : (history.episode directory stem episode).additions < segmentLimit)
    (hn : Nameable directory stem ((history.episode directory stem episode).additions + 1) (serials + 1)) :
    (history.episode directory stem episode).Sound directory stem place (serials + 1) := by
  have hadditions : history.additions ≤ (history.episode directory stem episode).additions :=
    (episode_grows directory stem history episode).2.sublist.countP_le
  cases episode with
  | append stream events =>
    have hgrown : history.site.events <+: (history.site.store.append stream events).log.events :=
      history.site.store.log.prefix_append stream events _
    exact ⟨h.kept.append stream events hsize, h.kept_le.trans hgrown, h.completed, Nat.le_succ_of_le h.drawn⟩
  | read level sync turns =>
    have hn' := hn.mono (Nat.succ_le_succ hadditions) (Nat.le_refl (serials + 1))
    have hlimit : history.additions < segmentLimit := Nat.lt_of_le_of_lt hadditions hfew
    have hopened : (Reading.opened directory stem level sync history.site).Alone directory stem place
        history.additions history.kept.length serials history.site :=
      ⟨rfl, rfl, _, rfl, h.kept.solo rfl rfl rfl h.drawn⟩
    have hgrown := Reading.events_turns
      (history.site, Reading.opened directory stem level sync history.site) turns
    have hturns := hopened.turns turns hlimit hn'
    rw [episode_read] at hsize hstorable ⊢
    unfold Site.events at hstorable
    rw [Reading.store_drop] at hsize hstorable
    replace hturns := hturns hsize hstorable
    generalize turns.foldl Reading.turn _ = state at hturns hgrown ⊢
    obtain ⟨read, hcursor, hsolo⟩ := hturns.solo
    obtain ⟨hclosed, hstore, hdrawn⟩ := hsolo.close
    rw [drop_eq hcursor]
    dsimp only
    have hevents : (closeCached filesPlace source state.1 read).events = state.1.events := by
      unfold Site.events
      rw [hstore]
    cases hended : state.2.yield.ended with
    | none =>
      rw [hended] at hclosed
      rw [Option.toList_none, List.map_nil, List.append_nil]
      refine ⟨hclosed, ?_, h.completed, hdrawn⟩
      dsimp only
      rw [hevents]
      exact h.kept_le.trans hgrown
    | some log =>
      rw [hended] at hclosed
      obtain ⟨hkept, hheld, hlog⟩ := hclosed
      have hlater : history.site.events <+: (closeCached filesPlace source state.1 read).events := by
        rw [hevents]
        exact hgrown
      obtain ⟨hsound, hadds⟩ := completed_sound h.kept hlater hheld hlog hkept
      rw [Option.toList_some, List.map_singleton]
      generalize hread : Completed.mk log _ _ _ = completed at hsound hadds ⊢
      obtain rfl : completed.log = log := by rw [← hread]
      exact h.complete hsound hadds hkept hlog hdrawn

/-- A history stays sound from a start at which the cache is empty, as long as the names and records that
its reads need are within the limits. -/
theorem Sound.run (site : Site) (hstore : site.store.Reached)
    (hempty : Row directory stem place 0 site.files) (episodes : List Episode)
    (hsize : 2 * (run directory stem site episodes).site.store.size ≤ Bytes.modulus64)
    (hstorable : ∀ e ∈ (run directory stem site episodes).site.events, (cachedOf e).Storable)
    (hfew : (run directory stem site episodes).additions < segmentLimit)
    (hn : Nameable directory stem ((run directory stem site episodes).additions + 1)
      (site.files.temporaries + episodes.length)) :
    (run directory stem site episodes).Sound directory stem place
      (site.files.temporaries + episodes.length) := by
  induction episodes using List.reverseRecOn with
  | nil =>
    refine ⟨⟨hstore, hsize, hempty, ?_, rfl, Nat.zero_le _⟩, List.nil_prefix, ?_, Nat.le_refl _⟩
    · exact fun index hi => absurd hi (Nat.not_lt_zero index)
    · exact fun read hr => absurd hr List.not_mem_nil
  | append_singleton episodes episode ih =>
    have hlast : History.run directory stem site (episodes ++ [episode]) =
        (History.run directory stem site episodes).episode directory stem episode := List.foldl_append
    rw [hlast] at hsize hstorable hfew hn ⊢
    rw [List.length_append, List.length_singleton, ← Nat.add_assoc] at hn ⊢
    obtain ⟨hevents, hcompleted⟩ :=
      episode_grows directory stem (History.run directory stem site episodes) episode
    have hadditions : (History.run directory stem site episodes).additions ≤
        ((History.run directory stem site episodes).episode directory stem episode).additions :=
      hcompleted.sublist.countP_le
    have hbefore := ih (Nat.le_trans (Nat.mul_le_mul_left 2 hevents.length_le) hsize)
      (fun e he => hstorable e (hevents.subset he)) (Nat.lt_of_le_of_lt hadditions hfew)
      (hn.mono (Nat.succ_le_succ hadditions) (Nat.le_succ _))
    exact hbefore.episode episode hsize hstorable hfew hn

end History

end Episodes

/-- Events whose timestamps are in whole milliseconds are replayed as they are. -/
theorem replays_of_whole_millis {store : Store} (hstore : store.Reached)
    (hclock : ∀ asked, (store.clock asked).floored = store.clock asked) {events : List (Placed Nat)}
    (h : ∀ e ∈ events, e ∈ store.log.events) : replays events = results events := by
  have hfloored : ∀ e ∈ events, e.record.timestamp.floored = e.record.timestamp := by
    intro e he
    obtain ⟨asked, ht⟩ := hstore.timestamp (h e he)
    rw [ht, hclock]
  unfold replays
  rw [Placed.map_floored hfloored]

/-- However appends and reads through a cache follow each other in a directory that was empty, where reads
do not overlap and each is run to its end or dropped before, the cache yields to whoever reads it the log
as it was when the last read came to its end: the same events at the same positions, with timestamps
rounded down to the millisecond, and so exactly the same if the clock gives whole milliseconds. Each read
that came to its end added one segment if there were events beyond those that the cache yielded, and else
none; no other segments are there. All events are within the limits of the format, there are fewer
segments than can be numbered, and the names of the files can be given. -/
theorem cache_yields_log_of_last_read (directory stem : String) (site : Site) (episodes : List Episode)
    (hempty : site.files.list directory = .ok []) (hstore : site.store.Reached)
    (hsize : 2 * (History.run directory stem site episodes).site.store.size ≤ Bytes.modulus64)
    (hstorable : ∀ e ∈ (History.run directory stem site episodes).site.events, (cachedOf e).Storable)
    (hfew : (History.run directory stem site episodes).additions < segmentLimit)
    (hnames : Nameable directory stem ((History.run directory stem site episodes).additions + 1)
      (site.files.temporaries + episodes.length)) :
    let history := History.run directory stem site episodes
    (∀ (options : Options) (clock : Nat → Timestamp) (limit : Nat), options.directory = directory →
      options.stem = stem →
        readFresh options clock history.site.files limit = .ok ((replays history.kept).take limit)) ∧
    ((∀ asked, (history.site.store.clock asked).floored = history.site.store.clock asked) →
      replays history.kept = results history.kept) ∧
    (∀ read ∈ history.completed, read.Sound) ∧
    scanSegments history.site.files directory stem = .ok ⟨List.range history.additions, []⟩ := by
  intro history
  obtain ⟨place, hrow⟩ := Row.of_list_nil stem hempty
  have hsound : history.Sound directory stem place (site.files.temporaries + episodes.length) :=
    .run site hstore hrow episodes hsize hstorable hfew hnames
  refine ⟨?_, ?_, hsound.completed, hsound.kept.row.scan⟩
  · rintro options clock limit rfl rfl
    have htake : history.site.events.take history.kept.length = history.kept :=
      (List.prefix_iff_eq_take.1 hsound.kept_le).symm
    rw [readFresh_eq, hsound.kept.replayable_eq, htake]
    rfl
  · intro hclock
    exact replays_of_whole_millis hsound.kept.reached hclock fun e he => hsound.kept_le.subset he

/-- A read adds a segment, another is dropped while it replays it, and a third goes on to two more events,
one of which comes while it is open. -/
theorem cache_yields_log_of_last_read_of_three :
    let orders : StreamId := ⟨"orders", "1", by decide⟩
    let site : Site := ⟨Store.withClock fun _ => .epoch, { nodes := [([.given "cache"], .directory)] }⟩
    let episodes : List Episode := [.append orders [⟨"Placed", [1], []⟩],
      .read 6 false [.pull, .pull, .pull], .append orders [⟨"Paid", [2], []⟩],
      .read 9 true [.pull, .pull],
      .read 1 false (.pull :: .append orders [⟨"Shipped", [], [3]⟩] :: List.replicate 6 .pull)]
    let history := History.run "cache" "events" site episodes
    site.files.list "cache" = .ok [] ∧ site.store.Reached ∧
      2 * history.site.store.size ≤ Bytes.modulus64 ∧ (∀ e ∈ history.site.events, (cachedOf e).Storable) ∧
      history.additions < segmentLimit ∧
      Nameable "cache" "events" (history.additions + 1) (site.files.temporaries + episodes.length) ∧
      history.kept = history.site.events ∧ history.kept.length = 3 ∧
      readFresh { directory := "cache", stem := "events", readOnly := true } (fun _ => .epoch)
        history.site.files 4 = .ok ((replays history.kept).take 4) ∧
      scanSegments history.site.files "cache" "events" = .ok ⟨List.range history.additions, []⟩ := by
  intro orders site episodes history
  have hempty : site.files.list "cache" = .ok [] := rfl
  have hstore : site.store.Reached := .start _
  have hevents : history.site.events = [
      ⟨1, .epoch, orders, 0, "Placed", [1], []⟩, ⟨2, .epoch, orders, 1, "Paid", [2], []⟩,
      ⟨3, .epoch, orders, 2, "Shipped", [], [3]⟩] ∧ history.kept = history.site.events := by
    decide +kernel
  have hadditions : history.additions = 2 := by
    decide +kernel
  have hsize : 2 * history.site.store.size ≤ Bytes.modulus64 := by
    have hlength := congrArg List.length hevents.1
    have hthree : history.site.store.size = 3 := hlength
    rw [hthree]
    decide
  have hstorable : ∀ e ∈ history.site.events, (cachedOf e).Storable := by
    rw [hevents.1]
    intro e he
    simp only [List.mem_cons, List.not_mem_nil, or_false] at he
    rcases he with rfl | rfl | rfl
    · constructor <;> decide +kernel
    · constructor <;> decide +kernel
    · constructor <;> decide +kernel
  have hfew : history.additions < segmentLimit := by
    rw [hadditions]
    decide
  have hnames : Nameable "cache" "events" (history.additions + 1)
      (site.files.temporaries + episodes.length) := by
    rw [hadditions]
    exact ⟨by unfold Path.Slashless; decide, by decide +kernel, by decide +kernel⟩
  -- at reducible transparency, or the whole history is run to compare the two sides
  have hall := (by
    with_reducible
      exact cache_yields_log_of_last_read "cache" "events" site episodes hempty hstore hsize hstorable hfew
        hnames : _)
  have hfresh := hall.1 { directory := "cache", stem := "events", readOnly := true } (fun _ => .epoch) 4 rfl rfl
  have hlength : history.kept.length = 3 := by
    rw [hevents.2, hevents.1]
    rfl
  with_reducible exact ⟨hempty, hstore, hsize, hstorable, hfew, hnames, hevents.2, hlength, hfresh,
    hall.2.2.2⟩

/-- With a slash in the stem the file for the new segment would have to stand in a directory that is not
there. The read comes to its end all the same, and nothing is cached. -/
theorem slashed_stem_caches_nothing :
    let orders : StreamId := ⟨"orders", "1", by decide⟩
    let site : Site := ⟨Store.withClock fun _ => .epoch, { nodes := [([.given "cache"], .directory)] }⟩
    let history := History.run "cache" "a/b" site
      [.append orders [⟨"Placed", [1], []⟩], .read 6 false [.pull, .pull, .pull]]
    site.files.list "cache" = .ok [] ∧ site.store.Reached ∧ history.completed.length = 1 ∧
      results history.kept = [.ok ⟨1, .epoch, orders, 0, "Placed", [1], []⟩] ∧
      (∀ e ∈ history.site.events, (cachedOf e).Storable) ∧
      readFresh { directory := "cache", stem := "a/b" } (fun _ => .epoch) history.site.files 2 = .ok [] ∧
      (scanSegments history.site.files "cache" "a/b").toOption = some ⟨[], []⟩ := by
  intro orders site history
  have hevents : history.site.events = [⟨1, .epoch, orders, 0, "Placed", [1], []⟩] ∧
      history.kept = history.site.events ∧ history.completed.length = 1 ∧
      readFresh { directory := "cache", stem := "a/b" } (fun _ => .epoch) history.site.files 2 = .ok [] ∧
      (scanSegments history.site.files "cache" "a/b").toOption = some ⟨[], []⟩ := by
    decide +kernel
  obtain ⟨hlog, hkept, hcompleted, hfresh, hscan⟩ := hevents
  have hstorable : ∀ e ∈ history.site.events, (cachedOf e).Storable := by
    rw [hlog]
    intro e he
    rw [List.mem_singleton.1 he]
    constructor <;> decide +kernel
  have hresults : results history.kept = [.ok ⟨1, .epoch, orders, 0, "Placed", [1], []⟩] := by
    rw [hkept, hlog]
    rfl
  exact ⟨rfl, .start _, hcompleted, hresults, hstorable, hfresh, hscan⟩

end Chronicle.Cache
