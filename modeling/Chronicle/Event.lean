import Chronicle.StreamId
import Chronicle.Timestamp

/-!
# Events

A producer builds a `NewEvent`. When it is stored it becomes an `EventRecord`, with a stream, a
number in that stream and a timestamp. A read yields records at positions of the reader's own.
-/

namespace Chronicle

/-- An event that has no place in a stream yet. -/
structure NewEvent where
  /-- What kind of event it is. -/
  eventType : String
  /-- The payload. -/
  data : List UInt8
  /-- What is noted about the payload. -/
  metadata : List UInt8 := []
  deriving DecidableEq, Repr

/-- An event in its stream. -/
structure EventRecord where
  /-- When it was stored. -/
  timestamp : Timestamp
  /-- The stream that holds it. -/
  stream : StreamId
  /-- Its number in the stream, the first being 0. -/
  number : Int
  /-- What kind of event it is. -/
  eventType : String
  /-- The payload. -/
  data : List UInt8
  /-- What is noted about the payload. -/
  metadata : List UInt8
  deriving DecidableEq, Repr

/-- The record of a new event. -/
def NewEvent.stored (event : NewEvent) (timestamp : Timestamp) (stream : StreamId) (number : Int) :
    EventRecord :=
  ⟨timestamp, stream, number, event.eventType, event.data, event.metadata⟩

/-- The new event that a record was made from. -/
def EventRecord.content (record : EventRecord) : NewEvent :=
  ⟨record.eventType, record.data, record.metadata⟩

@[simp] theorem NewEvent.content_stored (event : NewEvent) (t : Timestamp) (s : StreamId) (n : Int) :
    (event.stored t s n).content = event := rfl

/-- A record with whole milliseconds, as files keep it. -/
def EventRecord.floored (record : EventRecord) : EventRecord :=
  { record with timestamp := record.timestamp.floored }

/-- A record at a whole millisecond is kept as it is. -/
theorem EventRecord.floored_eq {record : EventRecord} (h : record.timestamp.floored = record.timestamp) :
    record.floored = record := by
  unfold EventRecord.floored
  rw [h]

/-- A record at a position of the reader that yields it. -/
structure Placed (P : Type) where
  /-- Where the reader can resume after it. -/
  position : P
  /-- The event itself. -/
  record : EventRecord
  deriving DecidableEq, Repr

/-- The same record at a position of another kind. -/
def Placed.mapPosition {P Q : Type} (f : P → Q) (event : Placed P) : Placed Q :=
  ⟨f event.position, event.record⟩

end Chronicle
