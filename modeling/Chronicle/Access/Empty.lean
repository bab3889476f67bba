import Chronicle.Access.Reader
import Chronicle.Access.Writer

/-!
# The source without events

It yields nothing in any scope and refuses every write. It serves as a backfill where there is no
history.
-/

namespace Chronicle.EmptySource

variable {W : Type}

/-- Reads that end at once. -/
def reads : Reads W Unit where
  Cursor := Unit
  pull w _ := (w, (), .finished)
  extent _ _ := 0

/-- The source without events as one log. -/
def eventReader : EventReader W Unit where
  toReads := reads
  codec := .empty
  emptyPosition := ()
  forwardsFrom _ _ := .ok ()

/-- The source without events by category. -/
def categoryReader : CategoryReader W Unit where
  toReads := reads
  codec _ := .empty
  emptyPosition _ := ()
  forwardsFrom _ _ _ := .ok ()

/-- The source without events by stream: no stream is missing, each is without events. -/
def streamReader : StreamReader W Unit where
  toReads := reads
  codec := .empty
  forwardsFrom _ _ _ := .ok ()

/-- The refusal of a write to a source without events. -/
def refusal (stream : StreamId) : StoreError :=
  .unsupportedOperation ("cannot write " ++ stream.text ++ " to an empty event source")

/-- Refuses every write. -/
def writer : EventWriter W where
  write w stream _ _ := (w, .refused (refusal stream))
  append w stream _ := (w, .refused (refusal stream))

end Chronicle.EmptySource
