import Chronicle.Access.Reads
import Chronicle.Position.Codec

/-!
# Readers

A source can be read as one log, by category or by stream. Every reader reads forwards from a
position; the rest has defaults, which a source may replace: a read from the start begins at the
empty position, reading backwards is refused, and the last event is the first of the read backwards.
-/

namespace Chronicle

/-- The version of a stream without events. -/
def noVersion : Int := -1

/-- The refusal of a reader that does not read backwards. -/
def backwardsUnsupported : StoreError :=
  .unsupportedOperation "reading backwards is not yet supported"

/-- Reads a whole source as one log. -/
structure EventReader (W P : Type) extends Reads W P where
  /-- The texts of its positions. -/
  codec : PositionCodec P
  /-- The position before its first event. -/
  emptyPosition : P
  /-- Opens a read of the events after a position, oldest first. -/
  forwardsFrom : W → P → Except StoreError Cursor
  /-- Opens a read of all events, oldest first. -/
  forwards : W → Except StoreError Cursor := fun w => forwardsFrom w emptyPosition
  /-- Opens a read of all events, newest first. -/
  backwards : W → Except StoreError Cursor := fun _ => .error backwardsUnsupported
  /-- Opens a read of the events before a position, newest first. -/
  backwardsFrom : W → P → Except StoreError Cursor := fun _ _ => .error backwardsUnsupported
  /-- The newest event. -/
  lastEvent : W → W × Except StoreError (Option (Placed P)) :=
    fun w => toReads.first w (backwards w)

/-- Reads the streams of one category, interleaved in the order of the source. -/
structure CategoryReader (W P : Type) extends Reads W P where
  /-- The texts of the positions in a category. -/
  codec : String → PositionCodec P
  /-- The position before the first event of a category. -/
  emptyPosition : String → P
  /-- Opens a read of a category's events after a position, oldest first. -/
  forwardsFrom : W → String → P → Except StoreError Cursor
  /-- Opens a read of all events of a category, oldest first. -/
  forwards : W → String → Except StoreError Cursor :=
    fun w category => forwardsFrom w category (emptyPosition category)
  /-- Opens a read of all events of a category, newest first. -/
  backwards : W → String → Except StoreError Cursor := fun _ _ => .error backwardsUnsupported
  /-- Opens a read of a category's events before a position, newest first. -/
  backwardsFrom : W → String → P → Except StoreError Cursor :=
    fun _ _ _ => .error backwardsUnsupported
  /-- The newest event of a category. -/
  lastEvent : W → String → W × Except StoreError (Option (Placed P)) :=
    fun w category => toReads.first w (backwards w category)

/-- Reads one stream by event number. -/
structure StreamReader (W P : Type) extends Reads W P where
  /-- The texts of the positions of events read from a stream. -/
  codec : PositionCodec P
  /-- Opens a read of a stream's events numbered above a number, oldest first. -/
  forwardsFrom : W → StreamId → Int → Except StoreError Cursor
  /-- Opens a read of a whole stream, oldest first. -/
  forwards : W → StreamId → Except StoreError Cursor :=
    fun w stream => forwardsFrom w stream noVersion
  /-- Opens a read of a whole stream, newest first. -/
  backwards : W → StreamId → Except StoreError Cursor := fun _ _ => .error backwardsUnsupported
  /-- Opens a read of a stream's events numbered below a number, newest first. -/
  backwardsFrom : W → StreamId → Int → Except StoreError Cursor :=
    fun _ _ _ => .error backwardsUnsupported
  /-- The newest event of a stream. -/
  lastEvent : W → StreamId → W × Except StoreError (Option (Placed P)) :=
    fun w stream => toReads.first w (backwards w stream)

end Chronicle
