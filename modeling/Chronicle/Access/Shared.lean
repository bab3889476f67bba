import Chronicle.Access.Reader
import Chronicle.Access.Writer

/-!
# Shared readers and writers

A reader or a writer can be lent to several users. A shared reader passes on the operations that a
source has to provide and its reads backwards; a read from the start and the last event are again the
defaults over those. A shared writer passes on everything.
-/

namespace Chronicle

/-- A reader of a whole source, lent to another user. -/
def EventReader.shared {W P : Type} (r : EventReader W P) : EventReader W P where
  toReads := r.toReads
  codec := r.codec
  emptyPosition := r.emptyPosition
  forwardsFrom := r.forwardsFrom
  backwards := r.backwards
  backwardsFrom := r.backwardsFrom

/-- A reader of categories, lent to another user. -/
def CategoryReader.shared {W P : Type} (r : CategoryReader W P) : CategoryReader W P where
  toReads := r.toReads
  codec := r.codec
  emptyPosition := r.emptyPosition
  forwardsFrom := r.forwardsFrom
  backwards := r.backwards
  backwardsFrom := r.backwardsFrom

/-- A reader of streams, lent to another user. -/
def StreamReader.shared {W P : Type} (r : StreamReader W P) : StreamReader W P where
  toReads := r.toReads
  codec := r.codec
  forwardsFrom := r.forwardsFrom
  backwards := r.backwards
  backwardsFrom := r.backwardsFrom

/-- A writer, lent to another user. -/
def EventWriter.shared {W : Type} (writer : EventWriter W) : EventWriter W where
  toStreamWrites := writer.toStreamWrites
  execute := writer.execute

end Chronicle
