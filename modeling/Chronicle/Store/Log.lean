import Chronicle.Access.Reader

/-!
# The log of a store

The log holds all events in the order of their arrival, each at its position, which counts the events
up to and including it. Beside it stands the version of every stream, the number of its last event.
A batch is appended whole, under one timestamp.
-/

namespace Chronicle

/-- All events of a store and the versions of its streams. -/
structure Log where
  /-- The events, oldest first. -/
  events : List (Placed Nat) := []
  /-- The number of the last event of each stream that has one. -/
  versions : List (StreamId × Int) := []
  deriving DecidableEq, Repr

namespace Log

/-- The number of the last event of a stream, -1 if it has none. -/
def version (log : Log) (stream : StreamId) : Int :=
  (log.versions.lookup stream).getD noVersion

/-- Whether anything was ever written to a stream. -/
def hasStream (log : Log) (stream : StreamId) : Bool := (log.versions.lookup stream).isSome

/-- The records of a batch, at positions and numbers that follow the given ones. -/
def placeBatch (timestamp : Timestamp) (stream : StreamId) (position : Nat) (number : Int) :
    List NewEvent → List (Placed Nat)
  | [] => []
  | event :: rest =>
    ⟨position + 1, event.stored timestamp stream (number + 1)⟩ ::
      placeBatch timestamp stream (position + 1) (number + 1) rest

/-- Versions after a stream moved to a number. -/
def setVersion (versions : List (StreamId × Int)) (stream : StreamId) (number : Int) :
    List (StreamId × Int) :=
  (stream, number) :: versions.filter (·.1 ≠ stream)

/-- The log after a batch. A batch without events leaves no trace. -/
def append (log : Log) (stream : StreamId) (events : List NewEvent) (timestamp : Timestamp) : Log :=
  if events.isEmpty then log
  else
    { events := log.events ++
        placeBatch timestamp stream log.events.length (log.version stream) events
      versions := setVersion log.versions stream (log.version stream + events.length) }

/-- Which events of the log belong to a read. -/
inductive Selection where
  /-- All events. -/
  | all
  /-- The events of one category. -/
  | category (name : String)
  /-- The events of one stream numbered above a number. -/
  | streamAfter (stream : StreamId) (number : Int)
  /-- The events of one stream, those numbered below a number if one is given. -/
  | streamBefore (stream : StreamId) (number : Option Int)
  deriving DecidableEq, Repr

/-- Whether a record belongs to a read. -/
def Selection.admits (record : EventRecord) : Selection → Bool
  | .all => true
  | .category name => record.stream.category = name
  | .streamAfter stream number => record.stream = stream ∧ number < record.number
  | .streamBefore stream none => record.stream = stream
  | .streamBefore stream (some number) => record.stream = stream ∧ record.number < number

/-- An open read of the log. -/
inductive Cursor where
  /-- Forwards: events already passed. -/
  | forwards (passed : Nat) (selection : Selection)
  /-- Backwards: events still ahead, from the oldest on. -/
  | backwards (remaining : Nat) (selection : Selection)
  deriving DecidableEq, Repr

/-- The first selected event, and how many events were passed with it, after `passed` others. -/
def firstSelected (selection : Selection) (passed : Nat) :
    List (Placed Nat) → Nat × Option (Placed Nat)
  | [] => (passed, none)
  | event :: rest =>
    if selection.admits event.record then (passed + 1, some event)
    else firstSelected selection (passed + 1) rest

/-- The last selected event among the oldest `remaining`, and how many are older than it. -/
def lastSelected (selection : Selection) (events : List (Placed Nat)) :
    Nat → Nat × Option (Placed Nat)
  | 0 => (0, none)
  | remaining + 1 =>
    match events[remaining]? with
    | none => lastSelected selection events remaining
    | some event =>
      if selection.admits event.record then (remaining, some event)
      else lastSelected selection events remaining

/-- What a pull reports for an event that may be there. -/
def foundOf : Option (Placed Nat) → Found Nat
  | some event => .event event
  | none => .finished

/-- Takes one step of an open read of the log as it is now. -/
def pull (log : Log) : Cursor → Cursor × Found Nat
  | .forwards passed selection =>
    let (passed, event) := firstSelected selection passed (log.events.drop passed)
    (.forwards passed selection, foundOf event)
  | .backwards remaining selection =>
    let (remaining, event) := lastSelected selection log.events remaining
    (.backwards remaining selection, foundOf event)

/-- The events a read may still pass. -/
def extent (log : Log) : Cursor → Nat
  | .forwards passed _ => log.events.length - passed
  | .backwards remaining _ => remaining

/-- A read of the selected events after a position. -/
def readAfter (position : Nat) (selection : Selection) : Cursor := .forwards position selection

/-- A read backwards of all selected events that are in the log now. -/
def readBack (log : Log) (selection : Selection) : Cursor :=
  .backwards log.events.length selection

/-- A read backwards of the selected events before a position that are in the log now. -/
def readBefore (log : Log) (position : Nat) (selection : Selection) : Cursor :=
  .backwards (min (position - 1) log.events.length) selection

end Log

end Chronicle
