import Chronicle.Access.Empty
import Chronicle.Access.Place
import Chronicle.Store.Log

/-!
# The in-memory store

A store is a log and a clock. The clock is asked once for every accepted write, also of a batch
without events, and not for a refused one. Reads look at the log anew at each pull: a read forwards
meets events that arrive while it is open, a read backwards stays with those that were there.
-/

namespace Chronicle

/-- An event store held in memory. -/
structure Store where
  /-- The events and versions. -/
  log : Log := {}
  /-- The answers of the clock, by how often it was asked before. -/
  clock : Nat → Timestamp
  /-- How often the clock was asked. -/
  asked : Nat := 0

namespace Store

/-- An empty store with a clock. -/
def withClock (clock : Nat → Timestamp) : Store := { clock := clock }

/-- A clock rounded down to whole milliseconds, as a store without a clock of its own uses it. -/
def wholeMillis (clock : Nat → Timestamp) (n : Nat) : Timestamp := (clock n).floored

/-- The number of events. -/
def size (store : Store) : Nat := store.log.events.length

/-- Appends a batch under the clock's next answer. -/
def append (store : Store) (stream : StreamId) (events : List NewEvent) : Store :=
  { store with
    log := store.log.append stream events (store.clock store.asked)
    asked := store.asked + 1 }

/-- Appends a batch if the stream is at the expected version. -/
def write (store : Store) (stream : StreamId) (events : List NewEvent) (expected : Int) :
    Store × WriteOutcome :=
  if store.log.version stream = expected then (store.append stream events, .accepted)
  else (store, .refused (.wrongExpectedVersion (store.log.version stream) expected))

section Access

variable {W : Type} (place : Place W Store)

/-- The lazy reads of a store in a world. -/
def reads : Reads W Nat where
  Cursor := Log.Cursor
  pull w c := (w, (place.get w).log.pull c)
  extent w c := (place.get w).log.extent c

/-- A store as one log. -/
def eventReader : EventReader W Nat where
  toReads := reads place
  codec := .log
  emptyPosition := 0
  forwardsFrom _ position := .ok (Log.readAfter position .all)
  backwards w := .ok ((place.get w).log.readBack .all)
  backwardsFrom w position := .ok ((place.get w).log.readBefore position .all)

/-- A store by category, with the positions of the whole store. -/
def categoryReader : CategoryReader W Nat where
  toReads := reads place
  codec _ := .log
  emptyPosition _ := 0
  forwardsFrom _ category position := .ok (Log.readAfter position (.category category))
  backwards w category := .ok ((place.get w).log.readBack (.category category))
  backwardsFrom w category position :=
    .ok ((place.get w).log.readBefore position (.category category))

/-- Opens a read of a stream that something was written to. -/
def openStream (w : W) (stream : StreamId) (cursor : Log → Log.Cursor) :
    Except StoreError Log.Cursor :=
  if (place.get w).log.hasStream stream then .ok (cursor (place.get w).log)
  else .error (.noSuchStream stream)

/-- A store by stream, with the positions of the whole store. -/
def streamReader : StreamReader W Nat where
  toReads := reads place
  codec := .log
  forwardsFrom w stream number :=
    openStream place w stream fun _ => Log.readAfter 0 (.streamAfter stream number)
  backwards w stream :=
    openStream place w stream fun log => log.readBack (.streamBefore stream none)
  backwardsFrom w stream number :=
    openStream place w stream fun log => log.readBack (.streamBefore stream (some number))

/-- A store as a writer. -/
def writer : EventWriter W where
  write w stream events expected :=
    let (store, outcome) := (place.get w).write stream events expected
    (place.set w store, outcome)
  append w stream events := (place.set w ((place.get w).append stream events), .accepted)

end Access

end Store

end Chronicle
