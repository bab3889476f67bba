import Chronicle.Maintenance.Report

/-!
# Listing the events of a cache

The events of the segments that can be replayed are listed in order, as a table or as one JSON object
a line. The first failure ends the listing. A limit is noticed when there is another event that would
exceed it.
-/

namespace Chronicle.Maintenance

open Cache

/-- How a listing ended. -/
inductive ListingEnd where
  /-- There were no more events. -/
  | exhausted
  /-- There was an event beyond the limit. -/
  | limited
  /-- A segment could not be read on. -/
  | failed (reason : String)
  deriving DecidableEq, Repr

/-- The events listed, and how the listing ended. -/
structure Listing where
  /-- The listed events in order. -/
  rows : List CachedRecord
  /-- What ended it. -/
  ending : ListingEnd
  deriving DecidableEq, Repr

/-- The events of one segment as far as there is room, before those of the others. -/
def listRecords (room : Option Nat) (records : List CachedRecord) (failure : Option CacheError)
    (others : Option Nat → Listing) : Listing :=
  match records, room with
  | [], room =>
    match failure with
    | some e => ⟨[], .failed e.message⟩
    | none => others room
  | _ :: _, some 0 => ⟨[], .limited⟩
  | record :: rest, room =>
    let listing := listRecords (room.map (· - 1)) rest failure others
    { listing with rows := record :: listing.rows }

/-- The events of segments in order as far as there is room. -/
def listSegments (fs : FileSystem) : List String → Option Nat → Listing
  | [], _ => ⟨[], .exhausted⟩
  | path :: rest, room =>
    match FileReader.open fs path with
    | .error e => ⟨[], .failed ("Failed to open segment " ++ path ++ ": " ++ e.message)⟩
    | .ok reader =>
      let (records, failure) := readAll reader.source
      listRecords room records failure (listSegments fs rest)

/-- The line of an event in a table. -/
def tableRow (cached : CachedRecord) : String :=
  " ".intercalate [
    Column.left 12 (Column.cut 12 cached.position),
    Column.left 30 (Column.cut 30 cached.record.stream.text),
    Column.right 8 (toString cached.record.number),
    Column.left 20 (Column.cut 20 cached.record.eventType),
    cached.record.timestamp.text]

/-- The lines above the events in a table. -/
def tableHeader : List String :=
  [" ".intercalate [Column.left 12 "POSITION", Column.left 30 "STREAM", Column.right 8 "NUMBER",
      Column.left 20 "TYPE", "TIMESTAMP"],
    Column.rule 100]

/-- The line of an event as a JSON object. -/
def jsonRow (cached : CachedRecord) : String :=
  JsonText.object [
    ("position", JsonText.string cached.position),
    ("stream_id", JsonText.string cached.record.stream.text),
    ("event_number", toString cached.record.number),
    ("event_type", JsonText.string cached.record.eventType),
    ("timestamp", JsonText.string cached.record.timestamp.text),
    ("data", JsonText.string (Utf8.lossy cached.record.data)),
    ("metadata", JsonText.string (Utf8.lossy cached.record.metadata))]

/-- The lines of a listing. -/
def Listing.lines (json : Bool) (listing : Listing) : List String :=
  if json then listing.rows.map jsonRow else tableHeader ++ listing.rows.map tableRow

/-- Lists the events of a cache, at most `limit` of them. -/
def list (fs : FileSystem) (directory stem : String) (json : Bool) (limit : Option Nat) : Report :=
  if !fs.isDirectory directory then .failure [] (notACache directory)
  else
    match scanSegments fs directory stem with
    | .error e => .failure [] e.message
    | .ok scan =>
      let listing := listSegments fs (scan.replayablePaths directory stem) limit
      match listing.ending with
      | .failed reason => .failure (listing.lines json) reason
      | _ => .success (listing.lines json)

end Chronicle.Maintenance
