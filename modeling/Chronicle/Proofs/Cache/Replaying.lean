import Chronicle.Cache.Reader
import Chronicle.Proofs.Access.Pulls
import Chronicle.Proofs.Cache.Reading
import Chronicle.Proofs.Cache.Stepping

/-!
# Replaying any cache

A read through a cache of a store, whatever its segments hold, yields what they replay. If nobody disturbs the
store it yields, after that, the log from the last position on.
-/

namespace Chronicle

namespace Cache

open Site

section Damage

/-- Whether nothing is damaged of what an open read has yet to replay. -/
def undamaged (site : Site) (read : SiteRead) : Bool :=
  (match read.current with
    | none => true
    | some file => (replayOf source.codec (readAll file.source)).2) &&
  read.segments.all fun path => (replayOf source.codec (readFile site.files path)).2

/-- What an open read of a site has yet to replay. -/
def toReplay (site : Site) (read : SiteRead) : List (Placed Nat) := leftToReplay filesPlace source site read

/-- The position after which the tail of an open read begins. -/
def tailStart (site : Site) (read : SiteRead) : Nat :=
  ((toReplay site read).getLast?.map (·.position)).getD read.lastPosition

/-- No fewer than the skips before the next result of a read that replays segments. -/
def turnsLeft (read : SiteRead) : Nat := 2 * read.segments.length + read.current.toList.length + 1

/-- What a pull of a read that replays segments leaves of it. -/
structure Replays (site : Site) (read later : SiteRead) (found : Found Nat) : Prop where
  /-- It still replays segments. -/
  phase_eq : later.phase = read.phase
  /-- The number of the segment that is to be written is the same. -/
  nextIndex_eq : later.nextIndex = read.nextIndex
  /-- Nothing is written. -/
  sink_eq : later.sink = read.sink
  /-- The tail begins after the same position. -/
  tailStart_eq : tailStart site later = tailStart site read
  /-- As long as nothing is damaged, the tail will be written if it was to be written. -/
  undamaged : undamaged site read = true → undamaged site later = true ∧ later.writing = read.writing
  /-- A skip leaves what is to be replayed, and is one of the last. Otherwise the first event was found. -/
  found : (found = .skipped ∧ toReplay site later = toReplay site read ∧ turnsLeft later < turnsLeft read) ∨
    ∃ e, found = .event e ∧ toReplay site read = e :: toReplay site later

variable {site : Site} {read : SiteRead}

/-- A step of a read of a site. -/
theorem Steps.replays {later : SiteRead} {found : Found Nat}
    (h : Steps filesPlace source site read later found) : Replays site read later found where
  phase_eq := h.phase_eq
  nextIndex_eq := h.nextIndex_eq
  sink_eq := h.sink_eq
  tailStart_eq := h.handover_eq
  undamaged hundamaged := by
    have hintact : intact filesPlace source site read = true := hundamaged
    rcases h.damage with ⟨hsame, hwriting⟩ | ⟨hdamaged, -⟩
    · exact ⟨hsame.trans hintact, hwriting⟩
    · rw [hintact] at hdamaged
      nomatch hdamaged
  found := h.found

/-- A pull of a read that replays segments replays, or turns to the tail after the last segment. -/
theorem pullCached_of_replaying (options : Options) (site : Site) (hphase : read.phase = .replaying) :
    (∃ next found, pullCached filesPlace options source site read = (site, next, found) ∧
        Replays site read next found) ∨
      read.current = none ∧ read.segments = [] ∧ pullCached filesPlace options source site read =
        (site, { read with phase := .tail (tailCursor read.lastPosition) }, .skipped) := by
  rcases pullCached_replaying filesPlace source site options hphase with
    ⟨next, found, hpull, hsteps⟩ | ⟨hfile, hsegments, hpull⟩
  · exact .inl ⟨next, found, hpull, hsteps.replays⟩
  · exact .inr ⟨hfile, hsegments, hpull⟩

/-- A read of which nothing is left to replay turns to the tail after its last position. -/
theorem tailStart_of_nil (hfile : read.current = none) (hsegments : read.segments = []) :
    toReplay site read = [] ∧ tailStart site read = read.lastPosition := by
  obtain ⟨hleft, hstart, -⟩ := handover_of_nil filesPlace source site hfile hsegments
  exact ⟨hleft, hstart⟩

end Damage

section Foretelling

/-- How many events of the log a read of the source has passed. -/
def passedBy (cursor : source.Cursor) : Nat :=
  match (cursor : Log.Cursor) with
  | .forwards passed _ => passed
  | .backwards remaining _ => remaining

/-- What a read through the cache is still to yield, if the log does not grow: what is left to replay, and
the log from the last position on. -/
def CachedRead.owed (site : Site) (read : SiteRead) : List (Item Nat) :=
  match read.phase with
  | .replaying => results (toReplay site read ++ site.events.drop (tailStart site read))
  | .tail cursor => results (site.events.drop (passedBy cursor))
  | .done => []

/-- No fewer than the skips before the next result. -/
def CachedRead.turns (read : SiteRead) : Nat := if read.isReplaying then turnsLeft read else 0

/-- What an open read of a caching reader is still to yield. -/
def owed (site : Site) : Cursor source.Cursor Nat → List (Item Nat)
  | .direct _ => []
  | .cached read => read.owed site

/-- No fewer than the skips before the next result of an open read. -/
def turns : Cursor source.Cursor Nat → Nat
  | .direct _ => 0
  | .cached read => read.turns

/-- A read through the cache, whose tail is a read of all events. -/
def Through : Cursor source.Cursor Nat → Prop
  | .direct _ => False
  | .cached read => ∀ cursor, read.phase = .tail cursor → ∃ passed, cursor = tailCursor passed

/-- A read through the cache that has ended. -/
def AtEnd : Cursor source.Cursor Nat → Prop
  | .direct _ => False
  | .cached read => read.phase = .done

/-- What a pull of a read does to what it is still to yield. -/
structure Pulls (options : Options) (site later : Site) (read next : SiteRead) (found : Found Nat) : Prop where
  /-- It stays a read through the cache. -/
  through : Through (.cached next)
  /-- A skip leaves what is to come, and is one of the last. -/
  skipped : found = .skipped → read.owed site = next.owed later ∧ next.turns < read.turns
  /-- Anything else is the next of what is to come, or the end. -/
  foretold : found ≠ .skipped → Reads.Foretold (r := reads filesPlace options source) (fun _ => AtEnd) owed
    site (.cached read) later (.cached next) found.item?

variable {options : Options} {site : Site} {read : SiteRead}

/-- What a read that replays segments is still to yield. -/
theorem owed_of_replaying (h : read.phase = .replaying) :
    read.owed site = results (toReplay site read ++ site.events.drop (tailStart site read)) := by
  unfold CachedRead.owed
  rw [h]

/-- What a read that passes the tail is still to yield. -/
theorem owed_of_tail {passed : Nat} (h : read.phase = .tail (tailCursor passed)) :
    read.owed site = results (site.events.drop passed) := by
  unfold CachedRead.owed
  rw [h]
  rfl

/-- A read that has ended yields nothing more. -/
theorem owed_of_done (h : read.phase = .done) : read.owed site = [] := by
  unfold CachedRead.owed
  rw [h]

/-- A read that replays segments may skip. -/
theorem turns_of_replaying (h : read.phase = .replaying) : read.turns = turnsLeft read := by
  unfold CachedRead.turns CachedRead.isReplaying
  rw [h]
  rfl

/-- Ending the writing leaves where a read stands. -/
theorem phase_stopWriting (site : Site) (read : SiteRead) :
    (stopWriting filesPlace source site read).2.phase = read.phase := by
  unfold stopWriting
  split <;> rfl

/-- Writing an event of the tail leaves where a read stands. -/
theorem phase_writeThrough (options : Options) (site : Site) (read : SiteRead) (e : Placed Nat) :
    (writeThrough filesPlace options source site read e).2.phase = read.phase := by
  unfold writeThrough
  split
  · split
    · exact phase_stopWriting _ read
    · split
      · rfl
      · exact phase_stopWriting _ _
  · rfl

/-- What a read that replays segments finds is foretold. -/
theorem pulls_replays {next : SiteRead} {found : Found Nat} (hphase : read.phase = .replaying)
    (h : Replays site read next found) : Pulls options site site read next found := by
  have hnext : next.phase = .replaying := h.phase_eq.trans hphase
  have howed : read.owed site = _ := owed_of_replaying hphase
  have hleft : next.owed site = _ := owed_of_replaying hnext
  rw [h.tailStart_eq] at hleft
  refine ⟨?_, ?_, ?_⟩
  · intro cursor hc
    rw [hnext] at hc
    nomatch hc
  · rintro rfl
    obtain ⟨-, htoReplay, hturns⟩ | ⟨e, he, -⟩ := h.found
    · rw [howed, hleft, htoReplay, turns_of_replaying hphase, turns_of_replaying hnext]
      exact ⟨rfl, hturns⟩
    · nomatch he
  · intro hne
    obtain ⟨hs, -, -⟩ | ⟨e, rfl, htoReplay⟩ := h.found
    · exact absurd hs hne
    · change read.owed site = .ok e :: next.owed site
      rw [howed, hleft, htoReplay]
      rfl

/-- The tail is opened after the last position. -/
theorem pulls_turn (hphase : read.phase = .replaying) (hfile : read.current = none)
    (hsegments : read.segments = []) :
    Pulls options site site read { read with phase := .tail (tailCursor read.lastPosition) } .skipped := by
  obtain ⟨hleft, hstart⟩ : toReplay site read = [] ∧ tailStart site read = read.lastPosition :=
    tailStart_of_nil hfile hsegments
  refine ⟨?_, fun _ => ⟨?_, ?_⟩, fun hne => absurd rfl hne⟩
  · intro cursor hc
    cases hc
    exact ⟨_, rfl⟩
  · rw [owed_of_replaying hphase, hleft, hstart]
    rfl
  · rw [turns_of_replaying hphase]
    exact Nat.succ_pos _

/-- What a read of the tail finds is foretold. -/
theorem pulls_pullTail {passed : Nat} (hphase : read.phase = .tail (tailCursor passed)) :
    Pulls options site (pullTail filesPlace options source site read (tailCursor passed)).1 read
      (pullTail filesPlace options source site read (tailCursor passed)).2.1
      (pullTail filesPlace options source site read (tailCursor passed)).2.2 := by
  have howed : read.owed site = _ := owed_of_tail hphase
  cases he : site.events[passed]? with
  | some e =>
    obtain ⟨hlt, rfl⟩ := List.getElem?_eq_some_iff.1 he
    rw [pullTail_of_some options read he]
    have hnext := phase_writeThrough options site { read with phase := .tail (tailCursor (passed + 1)) }
      site.events[passed]
    have hstore := store_writeThrough options site { read with phase := .tail (tailCursor (passed + 1)) }
      site.events[passed]
    generalize writeThrough filesPlace options source site
      { read with phase := .tail (tailCursor (passed + 1)) } site.events[passed] = result at hnext hstore
    dsimp only at hnext ⊢
    have hevents : result.1.events = site.events := by
      unfold Site.events
      rw [hstore]
    refine ⟨?_, nofun, fun _ => ?_⟩
    · intro cursor hc
      rw [hnext] at hc
      cases hc
      exact ⟨_, rfl⟩
    · change read.owed site = .ok site.events[passed] :: result.2.owed result.1
      rw [howed, owed_of_tail hnext, hevents, List.drop_eq_getElem_cons hlt]
      rfl
  | none =>
    have hend : site.events.length ≤ passed := List.getElem?_eq_none_iff.1 he
    rw [pullTail_of_none options read he, finishSegment_read]
    refine ⟨nofun, nofun, fun _ => ⟨?_, rfl, rfl⟩⟩
    change read.owed site = []
    rw [howed, List.drop_of_length_le hend]
    rfl

/-- What a read through the cache finds is foretold. -/
theorem pulls_pullCached (h : Through (.cached read)) :
    Pulls options site (pullCached filesPlace options source site read).1 read
      (pullCached filesPlace options source site read).2.1
      (pullCached filesPlace options source site read).2.2 := by
  cases hphase : read.phase with
  | replaying =>
    rcases pullCached_of_replaying options site hphase with
      ⟨next, found, hpull, hreplays⟩ | ⟨hfile, hsegments, hpull⟩
    · rw [hpull]
      exact pulls_replays hphase hreplays
    · rw [hpull]
      exact pulls_turn hphase hfile hsegments
  | tail cursor =>
    obtain ⟨passed, rfl⟩ := h cursor hphase
    unfold pullCached
    rw [hphase]
    exact pulls_pullTail hphase
  | done =>
    unfold pullCached
    rw [hphase]
    exact ⟨h, nofun, fun _ => ⟨owed_of_done hphase, owed_of_done hphase, hphase⟩⟩

/-- The next result comes within the extent of a read. -/
theorem turns_le_extent (site : Site) (read : SiteRead) :
    read.turns ≤ extentCached filesPlace source site read := by
  have hcurrent : read.current.toList.length ≤ 1 := by
    cases read.current <;> simp
  unfold CachedRead.turns CachedRead.isReplaying turnsLeft extentCached
  cases read.phase with
  | replaying =>
    dsimp only
    rw [if_pos rfl]
    omega
  | tail cursor => exact Nat.zero_le _
  | done => exact Nat.zero_le _

/-- A read through the cache, while the log does not grow, yields what its segments replay, and after it
the log from the last position on. -/
theorem forecast_reads (options : Options) :
    Reads.Forecast (reads filesPlace options source) (fun _ => Through) (fun _ => AtEnd) owed
      (fun _ => turns) := by
  have hpull : ∀ {site later : Site} {c next : Cursor source.Cursor Nat} {found : Found Nat}, Through c →
      (reads filesPlace options source).pull site c = (later, next, found) →
        ∃ read read', c = .cached read ∧ next = .cached read' ∧ Pulls options site later read read' found := by
    intro site later c next found hthrough hpull
    cases c with
    | direct cursor => exact absurd hthrough id
    | cached read =>
      have hpulls : Pulls options site _ read _ _ := pulls_pullCached hthrough
      cases hpull
      exact ⟨read, _, rfl, rfl, hpulls⟩
  refine ⟨?_, ?_, ?_, ?_⟩
  · intro site c hthrough
    cases c with
    | direct cursor => exact absurd hthrough id
    | cached read => exact turns_le_extent site read
  · intro site c later next found hinv h
    obtain ⟨read, read', rfl, rfl, hp⟩ := hpull hinv h
    exact hp.through
  · intro site c later next hinv h
    obtain ⟨read, read', rfl, rfl, hp⟩ := hpull hinv h
    exact hp.skipped rfl
  · intro site c later next found hinv h hne
    obtain ⟨read, read', rfl, rfl, hp⟩ := hpull hinv h
    exact hp.foretold hne

/-- The events that the segments of a cache yield to whoever reads it by some codec of positions. -/
def replayable {P : Type} (codec : PositionCodec P) (files : FileSystem) (directory stem : String) :
    List (Placed P) :=
  replaySegments codec files
    (match scanSegments files directory stem with
    | .ok scan => scan.replayablePaths directory stem
    | .error _ => [])

/-- An event as it is written to a cache of a source with these positions. -/
def recordFor {P : Type} (codec : PositionCodec P) (event : Placed P) : CachedRecord :=
  ⟨codec.serialize event.position, event.record⟩

/-- Records of events whose positions are read back are replayed whole. -/
theorem replayOf_recordFor {P : Type} {codec : PositionCodec P} {events : List (Placed P)}
    (h : ∀ e ∈ events, codec.deserialize (codec.serialize e.position) = .ok e.position) :
    replayOf codec ((events.map (recordFor codec)).map (·.floored), none) = (events.map .floored, true) := by
  induction events with
  | nil => rfl
  | cons e rest ih =>
    have hrest := ih fun other ho => h other (List.mem_cons_of_mem e ho)
    have hfirst : codec.deserialize (recordFor codec e).floored.position = .ok e.position :=
      h e List.mem_cons_self
    have hcons := replayOf_cons codec (recordFor codec e).floored
      ((rest.map (recordFor codec)).map (·.floored), none)
    rw [hfirst, hrest] at hcons
    exact hcons

/-- A read that is opened has all that the segments yield to replay. -/
theorem leftToReplay_startRead {W P : Type} (files : Place W FileSystem) (options : Options)
    (source : EventReader W P) (w : W) :
    leftToReplay files source w (startRead files options source w) =
      replayable source.codec (files.get w) options.directory options.stem := by
  rw [leftToReplay_of_none rfl]
  unfold startRead replayable
  dsimp only
  cases scanSegments (files.get w) options.directory options.stem <;> rfl

/-- A read of a site that is opened has all that the segments yield to replay. -/
theorem toReplay_startRead (options : Options) (site : Site) :
    toReplay site (startRead filesPlace options source site) =
      replayable source.codec site.files options.directory options.stem :=
  leftToReplay_startRead filesPlace options source site

/-- A read that is opened is one through the cache. -/
theorem through_startRead (options : Options) (site : Site) :
    Through (.cached (startRead filesPlace options source site)) := by
  intro cursor hcursor
  cases hcursor

/-- A read that is opened is to yield what the segments replay, and after it the log from the last position
on. -/
theorem owed_startRead (options : Options) (site : Site) :
    let replayed := replayable source.codec site.files options.directory options.stem
    owed site (.cached (startRead filesPlace options source site)) =
      results (replayed ++ site.events.drop ((replayed.getLast?.map (·.position)).getD 0)) := by
  intro replayed
  have hphase : (startRead filesPlace options source site).phase = .replaying := rfl
  have howed : owed site (.cached (startRead filesPlace options source site)) = _ :=
    owed_of_replaying hphase
  rw [tailStart, toReplay_startRead] at howed
  exact howed

/-- Whatever a cache holds, a read through it yields what its segments replay, and after it the log from
the last position on. -/
theorem take_startRead (options : Options) (site : Site) (limit : Nat) :
    let replayed := replayable source.codec site.files options.directory options.stem
    ((reads filesPlace options source).take limit site
        (.cached (startRead filesPlace options source site))).2.2 =
      (results (replayed ++ site.events.drop ((replayed.getLast?.map (·.position)).getD 0))).take limit := by
  intro replayed
  rw [← owed_startRead]
  exact ((forecast_reads options).of_take (through_startRead options site) rfl).1

end Foretelling

end Cache

end Chronicle
