import Chronicle.Access.Reader

/-!
# Readers that narrow another

A narrowed reader yields those events of another that a test keeps, at the other's own positions, so a
position kept from the narrowed read resumes the other one at the same place. A failure is passed on
where it occurs. Each pull is one pull of the other reader: an event that is not kept is a skip.
-/

namespace Chronicle

variable {W P : Type}

/-- What a narrowed read makes of what the other read found. -/
def Found.keeping (keep : Placed P → Bool) : Found P → Found P
  | .event e => if keep e then .event e else .skipped
  | found => found

/-- Reads narrowed by a test. -/
def Reads.keeping (r : Reads W P) (keep : Placed P → Bool) : Reads W P where
  Cursor := r.Cursor
  pull w c :=
    let (w, c, found) := r.pull w c
    (w, c, found.keeping keep)
  close := r.close
  extent := r.extent
  growths := r.growths

/-- A reader narrowed by a test. -/
def EventReader.filtering (r : EventReader W P) (keep : Placed P → Bool) : EventReader W P where
  toReads := r.toReads.keeping keep
  codec := r.codec
  emptyPosition := r.emptyPosition
  forwardsFrom := r.forwardsFrom
  backwards := r.backwards
  backwardsFrom := r.backwardsFrom

/-- A reader narrowed to events of the given types. -/
def EventReader.containingTypes (r : EventReader W P) (types : List String) : EventReader W P :=
  r.filtering fun event => types.contains event.record.eventType

/-- A set of categories as an ascending list without repetitions. -/
def categorySet (categories : List String) : List String :=
  (categories.mergeSort fun a b => (compare a b).isLE).eraseDups

/-- A reader narrowed to events of several categories, in the order of the whole source. A consumer
can change the set and keep its position. -/
def EventReader.inCategories (r : EventReader W P) (categories : List String) : EventReader W P :=
  r.filtering fun event => (categorySet categories).contains event.record.stream.category

end Chronicle
