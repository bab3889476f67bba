import Chronicle.Failure

/-!
# Failures of cache files

A cache file can be cut short, damaged or written by something else, and a record can be too large for
the format. A failure names the field of the record at which it was met.
-/

namespace Chronicle.Cache

/-- The fields of a record in a file, in their order. -/
inductive Field where
  /-- The position's text. -/
  | position
  /-- The milliseconds of the timestamp. -/
  | timestamp
  /-- The category of the stream. -/
  | category
  /-- The stream's name within its category. -/
  | streamId
  /-- The number in the stream. -/
  | eventNumber
  /-- The type of the event. -/
  | eventType
  /-- The payload. -/
  | data
  /-- What is noted about the payload. -/
  | metadata
  deriving DecidableEq, Repr

/-- The name of a field in a message. -/
def Field.name : Field → String
  | position => "position"
  | timestamp => "timestamp"
  | category => "category"
  | streamId => "stream id"
  | eventNumber => "event number"
  | eventType => "event type"
  | data => "data"
  | metadata => "metadata"

/-- All fields in their order. -/
def Field.all : List Field :=
  [.position, .timestamp, .category, .streamId, .eventNumber, .eventType, .data, .metadata]

/-- Why a cache file or a record is refused. -/
inductive CacheError where
  /-- The machine failed. -/
  | io (what : String)
  /-- The file ends inside a record. -/
  | truncated (field : Field)
  /-- A field is too long for the format. -/
  | fieldTooLarge (field : Field) (length max : Nat)
  /-- A length below zero was stored. -/
  | negativeLength (field : Field) (length : Int)
  /-- A text field holds no text. -/
  | invalidUtf8 (field : Field)
  /-- A timestamp lies outside the calendar. -/
  | invalidTimestamp (ms : Int)
  /-- The stored category and id name no stream. -/
  | invalidStreamId (what : String)
  /-- A stored position is none of the reader's. -/
  | position (text reason : String)
  deriving DecidableEq, Repr

/-- The wording of a failure. -/
def CacheError.message : CacheError → String
  | io what => "I/O error: " ++ what
  | truncated field => "cache file truncated while reading " ++ field.name
  | fieldTooLarge field length max =>
    field.name ++ " is " ++ toString length ++ " bytes, maximum is " ++ toString max
  | negativeLength field length =>
    "negative length " ++ toString length ++ " for " ++ field.name
  | invalidUtf8 field => "invalid UTF-8 in " ++ field.name
  | invalidTimestamp ms => "timestamp " ++ toString ms ++ " ms is out of range"
  | invalidStreamId what => "invalid stream id in cache: " ++ what
  | position text reason => "undecodable position " ++ Quoted.encode text ++ ": " ++ reason

/-- A failure of a cache as a failure of the store that uses it. -/
def CacheError.toStoreError (e : CacheError) : StoreError := .backend e.message

end Chronicle.Cache
