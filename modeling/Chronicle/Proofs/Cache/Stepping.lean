import Chronicle.Cache.Reader
import Chronicle.Proofs.Cache.Consuming

/-!
# Steps of a read that replays segments

The segments of a cache may hold anything: records, damage, records up to damage. What a read through the
cache replays from them is told by `replaySegments`, which goes over whole files. The read itself goes record
by record. The two agree, whatever source is cached: what is left to replay shrinks by the event that a step
yields, and the position at which the source takes over stays the same until it does.
-/

namespace Chronicle.Cache

variable {W P : Type}

/-- The first of some records is replayed before the others, unless its position is none of the source's. -/
theorem replayOf_cons (codec : PositionCodec P) (cached : CachedRecord)
    (read : List CachedRecord × Option CacheError) :
    replayOf codec (cached :: read.1, read.2) =
      match codec.deserialize cached.position with
      | .error _ => ([], false)
      | .ok position => (⟨position, cached.record⟩ :: (replayOf codec read).1, (replayOf codec read).2) := by
  unfold replayOf
  dsimp only
  rw [eventsOf]
  cases codec.deserialize cached.position with
  | error e => rfl
  | ok position => rfl

section Measures

variable (files : Place W FileSystem) (source : EventReader W P) (w : W)

/-- Whether nothing is damaged of what an open read has yet to replay. -/
def intact (read : CachedRead source.Cursor P) : Bool :=
  (match read.current with
    | none => true
    | some file => (replayOf source.codec (readAll file.source)).2) &&
  read.segments.all fun path => (replayOf source.codec (readFile (files.get w) path)).2

/-- The position after which the source takes over from the segments. -/
def handover (read : CachedRead source.Cursor P) : P :=
  ((leftToReplay files source w read).getLast?.map (·.position)).getD read.lastPosition

variable {source}

/-- No fewer than the skips before the next result of a read that replays segments. -/
def skipsLeft (read : CachedRead source.Cursor P) : Nat :=
  2 * read.segments.length + read.current.toList.length + 1

end Measures

/-- What a step of a read that replays segments leaves of it. -/
structure Steps (files : Place W FileSystem) (source : EventReader W P) (w : W)
    (read later : CachedRead source.Cursor P) (found : Found P) : Prop where
  /-- It still replays segments. -/
  phase_eq : later.phase = read.phase
  /-- The number of the segment that is to be written is the same. -/
  nextIndex_eq : later.nextIndex = read.nextIndex
  /-- Nothing is written. -/
  sink_eq : later.sink = read.sink
  /-- The source takes over at the same position. -/
  handover_eq : handover files source w later = handover files source w read
  /-- Nothing changes about damage and the writing, unless damage was met: then nothing will be written. -/
  damage : (intact files source w later = intact files source w read ∧ later.writing = read.writing) ∨
    (intact files source w read = false ∧ later.writing = false)
  /-- A skip leaves what is to be replayed, and is one of the last. Otherwise the first event was found. -/
  found : (found = .skipped ∧ leftToReplay files source w later = leftToReplay files source w read ∧
      skipsLeft later < skipsLeft read) ∨
    ∃ e, found = .event e ∧ leftToReplay files source w read = e :: leftToReplay files source w later

section

variable {files : Place W FileSystem} {source : EventReader W P} {w : W}
  {read : CachedRead source.Cursor P}

/-- What is left of a read that is in a segment. -/
theorem leftToReplay_of_some {file : FileReader} (h : read.current = some file) :
    leftToReplay files source w read = (replayOf source.codec (readAll file.source)).1 ++
      if (replayOf source.codec (readAll file.source)).2 then
        replaySegments source.codec (files.get w) read.segments
      else [] := by
  unfold leftToReplay
  rw [h]
  dsimp only
  split
  · rfl
  · rw [List.append_nil]

/-- What is left of a read that is between two segments. -/
theorem leftToReplay_of_none (h : read.current = none) :
    leftToReplay files source w read = replaySegments source.codec (files.get w) read.segments := by
  unfold leftToReplay
  rw [h]

/-- A step that skips leaves what is to be replayed. -/
theorem Steps.of_skip {later : CachedRead source.Cursor P} (hphase : later.phase = read.phase)
    (hnext : later.nextIndex = read.nextIndex) (hsink : later.sink = read.sink)
    (hlast : later.lastPosition = read.lastPosition)
    (hdamage : (intact files source w later = intact files source w read ∧ later.writing = read.writing) ∨
      (intact files source w read = false ∧ later.writing = false))
    (hleft : leftToReplay files source w later = leftToReplay files source w read)
    (hskips : skipsLeft later < skipsLeft read) : Steps files source w read later .skipped := by
  refine ⟨hphase, hnext, hsink, ?_, hdamage, .inl ⟨rfl, hleft, hskips⟩⟩
  unfold handover
  rw [hleft, hlast]

/-- A step that finds an event has found the first that was to be replayed. -/
theorem Steps.of_event {later : CachedRead source.Cursor P} {e : Placed P} (hphase : later.phase = read.phase)
    (hnext : later.nextIndex = read.nextIndex) (hsink : later.sink = read.sink)
    (hlast : later.lastPosition = e.position)
    (hintact : intact files source w later = intact files source w read)
    (hwriting : later.writing = read.writing)
    (hleft : leftToReplay files source w read = e :: leftToReplay files source w later) :
    Steps files source w read later (.event e) := by
  refine ⟨hphase, hnext, hsink, ?_, .inl ⟨hintact, hwriting⟩, .inr ⟨e, rfl, hleft⟩⟩
  unfold handover
  rw [hleft, hlast, List.getLast?_cons]
  cases (leftToReplay files source w later).getLast? <;> rfl

/-- Damage ends the replaying: nothing more was to be replayed. -/
theorem steps_abandonCache (hleft : leftToReplay files source w read = [])
    (hdamaged : intact files source w read = false) (hskips : 1 < skipsLeft read) :
    Steps files source w read (abandonCache source read) .skipped :=
  .of_skip rfl rfl rfl rfl (.inr ⟨hdamaged, rfl⟩) hleft.symm hskips

/-- The next record of the segment that is open is replayed, or it ends. -/
theorem steps_replayRecord {file : FileReader} (hfile : read.current = some file) :
    Steps files source w read (replayRecord source read file).1 (replayRecord source read file).2 := by
  have hall := readAll_eq file.source
  have hleft : leftToReplay files source w read = _ := leftToReplay_of_some hfile
  have hskips : 1 < skipsLeft read := by
    unfold skipsLeft
    rw [hfile]
    simp only [Option.toList_some, List.length_singleton]
    omega
  have hintact : intact files source w read = ((replayOf source.codec (readAll file.source)).2 &&
      read.segments.all fun path => (replayOf source.codec (readFile (files.get w) path)).2) := by
    unfold intact
    rw [hfile]
  unfold replayRecord FileReader.next
  cases hread : readRecord file.source with
  | error e =>
    rw [hread] at hall
    rw [hall] at hleft hintact
    exact steps_abandonCache hleft hintact hskips
  | ok found =>
    rw [hread] at hall
    cases found with
    | none =>
      rw [hall] at hleft hintact
      refine .of_skip rfl rfl rfl rfl (.inl ⟨hintact.symm, rfl⟩) hleft.symm ?_
      unfold skipsLeft
      rw [hfile]
      exact Nat.lt_succ_self _
    | some found =>
      obtain ⟨cached, rest⟩ := found
      dsimp only at hall ⊢
      rw [hall, replayOf_cons] at hleft hintact
      cases hposition : source.codec.deserialize cached.position with
      | error e =>
        rw [hposition] at hleft hintact
        exact steps_abandonCache hleft hintact hskips
      | ok position =>
        rw [hposition] at hleft hintact
        refine .of_event rfl rfl rfl rfl hintact.symm rfl ?_
        rw [hleft, leftToReplay_of_some rfl]
        rfl

/-- The next segment is opened. -/
theorem steps_openNext {path : String} {rest : List String} (hfile : read.current = none)
    (hsegments : read.segments = path :: rest) :
    Steps files source w read (openNext files source w read).1 (openNext files source w read).2 := by
  have hleft : leftToReplay files source w read = _ := leftToReplay_of_none hfile
  have hskips : skipsLeft read = 2 * rest.length + 3 := by
    unfold skipsLeft
    rw [hfile, hsegments]
    rfl
  have hintact : intact files source w read = ((replayOf source.codec (readFile (files.get w) path)).2 &&
      rest.all fun path => (replayOf source.codec (readFile (files.get w) path)).2) := by
    unfold intact
    rw [hfile, hsegments]
    rfl
  rw [hsegments, replaySegments] at hleft
  unfold openNext
  rw [hsegments]
  dsimp only
  unfold readFile at hleft hintact
  cases hopen : FileReader.open (files.get w) path with
  | error e =>
    rw [hopen] at hleft hintact
    exact steps_abandonCache hleft hintact (by omega)
  | ok file =>
    rw [hopen] at hleft hintact
    dsimp only at hleft hintact ⊢
    refine .of_skip rfl rfl rfl rfl (.inl ⟨hintact.symm, rfl⟩) ?_ ?_
    · rw [hleft, leftToReplay_of_some rfl]
      split
      · rfl
      · rw [List.append_nil]
    · rw [hskips]
      exact Nat.lt_succ_self _

variable (files source w)

/-- A pull of a read that replays segments replays, or turns to the source after the last segment. -/
theorem pullCached_replaying (options : Options) (hphase : read.phase = .replaying) :
    (∃ later found, pullCached files options source w read = (w, later, found) ∧
        Steps files source w read later found) ∨
      read.current = none ∧ read.segments = [] ∧ pullCached files options source w read =
        match source.forwardsFrom w read.lastPosition with
        | .ok c => (w, { read with phase := .tail c }, .skipped)
        | .error e => (w, { read with phase := .done }, .failure e) := by
  unfold pullCached
  rw [hphase]
  cases hfile : read.current with
  | some file => exact .inl ⟨_, _, rfl, steps_replayRecord hfile⟩
  | none =>
    cases hsegments : read.segments with
    | cons path rest => exact .inl ⟨_, _, rfl, steps_openNext hfile hsegments⟩
    | nil =>
      refine .inr ⟨rfl, rfl, ?_⟩
      dsimp only
      unfold openNext
      rw [hsegments, hfile]
      cases source.forwardsFrom w read.lastPosition <;> rfl

/-- A read of which nothing is left to replay hands over after its last position. -/
theorem handover_of_nil (hfile : read.current = none) (hsegments : read.segments = []) :
    leftToReplay files source w read = [] ∧ handover files source w read = read.lastPosition ∧
      intact files source w read = true := by
  have hleft : leftToReplay files source w read = [] := by
    rw [leftToReplay_of_none hfile, hsegments]
    rfl
  refine ⟨hleft, ?_, ?_⟩
  · unfold handover
    rw [hleft]
    rfl
  · unfold intact
    rw [hfile, hsegments]
    rfl

end

end Chronicle.Cache
