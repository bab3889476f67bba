import Chronicle.Cache.File
import Chronicle.Access.Place
import Chronicle.Access.Reader

/-!
# Reading through a cache

A caching reader keeps a copy of everything it has read from the start. A read from the start replays
the segments of the cache and then continues the source below after the last position it replayed.
Unless the cache is only to be read, the events of that tail are written to a new segment as they are
yielded, and the segment is finished when the tail ends.

Damage is never fatal. A segment that cannot be opened or decoded, or that holds a position which is
none of the source's, ends the replaying; the source goes on from the last event replayed, and nothing
is written. Segments after a gap, a failure of the tail and a failure to write also end the writing
and nothing else. A read from any other position is a read of the source below.
-/

namespace Chronicle.Cache

/-- How a caching reader is set up. -/
structure Options where
  /-- The directory of the cache. -/
  directory : String
  /-- What the names of its segments begin with. -/
  stem : String := defaultStem
  /-- Whether the cache is left as it is. -/
  readOnly : Bool := false
  /-- How hard a compressor should try; any level gives the same records. -/
  level : Nat := 6
  /-- Whether a segment must be on disk before it gets its name. -/
  sync : Bool := false
  deriving DecidableEq, Repr

/-- Where a read through a cache stands. -/
inductive Phase (TailCursor : Type) where
  /-- Replaying segments. -/
  | replaying
  /-- Reading the source below. -/
  | tail (cursor : TailCursor)
  /-- At the end. -/
  | done

/-- An open read through a cache. -/
structure CachedRead (TailCursor P : Type) where
  /-- The paths of the segments not opened yet. -/
  segments : List String
  /-- The number of the segment that the tail would be written to. -/
  nextIndex : Nat
  /-- The segment being replayed. -/
  current : Option FileReader := none
  /-- The position of the last event replayed. -/
  lastPosition : P
  /-- Whether the tail is to be written. -/
  writing : Bool
  /-- Where the read stands. -/
  phase : Phase TailCursor := .replaying
  /-- The segment being written. -/
  sink : Option FileWriter := none

/-- An open read of a caching reader. -/
inductive Cursor (TailCursor P : Type) where
  /-- A read of the source below. -/
  | direct (cursor : TailCursor)
  /-- A read through the cache. -/
  | cached (read : CachedRead TailCursor P)

section

variable {W P : Type} (files : Place W FileSystem) (options : Options) (source : EventReader W P)

/-- Opens a read through the cache. A directory that cannot be listed counts as empty. -/
def startRead (w : W) : CachedRead source.Cursor P :=
  let scan :=
    match scanSegments (files.get w) options.directory options.stem with
    | .ok scan => scan
    | .error _ => {}
  { segments := scan.replayablePaths options.directory options.stem
    nextIndex := scan.nextIndex
    lastPosition := source.emptyPosition
    writing := !options.readOnly && scan.stranded.isEmpty }

/-- The read after damage in the cache: nothing more is replayed and nothing is written. -/
def abandonCache (read : CachedRead source.Cursor P) : CachedRead source.Cursor P :=
  { read with segments := [], current := none, writing := false }

/-- Replays one record of the segment that is open. -/
def replayRecord (read : CachedRead source.Cursor P) (file : FileReader) :
    CachedRead source.Cursor P × Found P :=
  match file.next with
  | .error _ => (abandonCache source read, .skipped)
  | .ok none => ({ read with current := none }, .skipped)
  | .ok (some (cached, file)) =>
    match source.codec.deserialize cached.position with
    | .error _ => (abandonCache source read, .skipped)
    | .ok position =>
      ({ read with current := some file, lastPosition := position }, .event ⟨position, cached.record⟩)

/-- Opens the next segment, or the tail if there is none. -/
def openNext (w : W) (read : CachedRead source.Cursor P) : CachedRead source.Cursor P × Found P :=
  match read.segments with
  | path :: rest =>
    match FileReader.open (files.get w) path with
    | .ok file => ({ read with segments := rest, current := some file }, .skipped)
    | .error _ => (abandonCache source read, .skipped)
  | [] =>
    match source.forwardsFrom w read.lastPosition with
    | .ok cursor => ({ read with phase := .tail cursor }, .skipped)
    | .error e => ({ read with phase := .done }, .failure e)

/-- Ends the writing and gives up the segment that was being written. -/
def stopWriting (w : W) (read : CachedRead source.Cursor P) : W × CachedRead source.Cursor P :=
  match read.sink with
  | none => (w, { read with writing := false })
  | some sink =>
    (files.set w (sink.discard (files.get w)), { read with sink := none, writing := false })

/-- The segment being written, started if there is none yet. -/
def sinkFor (w : W) (read : CachedRead source.Cursor P) : W × Except CacheError FileWriter :=
  match read.sink with
  | some sink => (w, .ok sink)
  | none =>
    let (fs, result) := FileWriter.create (files.get w)
      (segmentPath options.directory options.stem read.nextIndex) options.stem
    (files.set w fs, result)

/-- Writes an event of the tail to the new segment. -/
def writeThrough (w : W) (read : CachedRead source.Cursor P) (event : Placed P) :
    W × CachedRead source.Cursor P :=
  if read.writing then
    match sinkFor files options source w read with
    | (w, .error _) => stopWriting files source w read
    | (w, .ok sink) =>
      match sink.append ⟨source.codec.serialize event.position, event.record⟩ with
      | (sink, none) => (w, { read with sink := some sink })
      | (sink, some _) => stopWriting files source w { read with sink := some sink }
  else (w, read)

/-- Finishes the new segment, if one was started. -/
def finishSegment (w : W) (read : CachedRead source.Cursor P) : W × CachedRead source.Cursor P :=
  match read.sink with
  | none => (w, read)
  | some sink => (files.set w (sink.finish (files.get w)).1, { read with sink := none })

/-- Steps the tail. -/
def pullTail (w : W) (read : CachedRead source.Cursor P) (cursor : source.Cursor) :
    W × CachedRead source.Cursor P × Found P :=
  match source.pull w cursor with
  | (w, cursor, .event e) =>
    let (w, read) := writeThrough files options source w { read with phase := .tail cursor } e
    (w, read, .event e)
  | (w, cursor, .failure e) =>
    let (w, read) := stopWriting files source w { read with phase := .tail cursor }
    (w, read, .failure e)
  | (w, cursor, .skipped) => (w, { read with phase := .tail cursor }, .skipped)
  | (w, cursor, .finished) =>
    let (w, read) := finishSegment files source (source.close w cursor) { read with phase := .done }
    (w, read, .finished)

/-- Steps a read through the cache. -/
def pullCached (w : W) (read : CachedRead source.Cursor P) :
    W × CachedRead source.Cursor P × Found P :=
  match read.phase, read.current with
  | .done, _ => (w, read, .finished)
  | .tail cursor, _ => pullTail files options source w read cursor
  | .replaying, some file => (w, replayRecord source read file)
  | .replaying, none => (w, openNext files source w read)

/-- Gives up a read through the cache. -/
def closeCached (w : W) (read : CachedRead source.Cursor P) : W :=
  let w :=
    match read.phase with
    | .tail cursor => source.close w cursor
    | _ => w
  (stopWriting files source w read).1

/-- The events that decoded records are, up to the first whose position is none of the source's, and
whether all are. -/
def eventsOf (codec : PositionCodec P) : List CachedRecord → List (Placed P) × Bool
  | [] => ([], true)
  | cached :: rest =>
    match codec.deserialize cached.position with
    | .error _ => ([], false)
    | .ok position =>
      let (events, whole) := eventsOf codec rest
      (⟨position, cached.record⟩ :: events, whole)

/-- The events that the rest of a file yields, and whether it is undamaged. -/
def replayOf (codec : PositionCodec P) (read : List CachedRecord × Option CacheError) :
    List (Placed P) × Bool :=
  let (events, whole) := eventsOf codec read.1
  (events, whole && read.2.isNone)

/-- The events that segments yield in order, up to the first damage. -/
def replaySegments (codec : PositionCodec P) (fs : FileSystem) : List String → List (Placed P)
  | [] => []
  | path :: rest =>
    let (events, whole) := replayOf codec (readFile fs path)
    if whole then events ++ replaySegments codec fs rest else events

/-- The events that an open read has yet to replay. -/
def leftToReplay (w : W) (read : CachedRead source.Cursor P) : List (Placed P) :=
  let later := replaySegments source.codec (files.get w) read.segments
  match read.current with
  | none => later
  | some file =>
    let (events, whole) := replayOf source.codec (readAll file.source)
    if whole then events ++ later else events

/-- The pulls left of a read through the cache: one for every event, two for every segment, some for
the turn to the tail, and those of the tail. -/
def extentCached (w : W) (read : CachedRead source.Cursor P) : Nat :=
  match read.phase with
  | .done => 0
  | .tail cursor => source.extent w cursor
  | .replaying =>
    let events := leftToReplay files source w read
    let last := (events.getLast?.map (·.position)).getD read.lastPosition
    let tail :=
      match source.forwardsFrom w last with
      | .ok cursor => source.extent w cursor
      | .error _ => 0
    events.length + 2 * read.segments.length + 3 + tail

/-- The lazy reads of a caching reader. A read finishes at most one segment, which the rest of the read
may then replay from another cache that shares the directory. -/
def reads : Reads W P where
  Cursor := Cursor source.Cursor P
  pull w
    | .direct cursor =>
      let (w, cursor, found) := source.pull w cursor
      (w, .direct cursor, found)
    | .cached read =>
      let (w, read, found) := pullCached files options source w read
      (w, .cached read, found)
  close w
    | .direct cursor => source.close w cursor
    | .cached read => closeCached files source w read
  extent w
    | .direct cursor => source.extent w cursor
    | .cached read => extentCached files source w read
  growths := source.growths + 1

/-- A source read through a cache. It does not read backwards. -/
def eventReader [DecidableEq P] : EventReader W P where
  toReads := reads files options source
  codec := source.codec
  emptyPosition := source.emptyPosition
  forwardsFrom w position :=
    if position = source.emptyPosition then .ok (.cached (startRead files options source w))
    else .direct <$> source.forwardsFrom w position

end

end Chronicle.Cache
