import Chronicle.Failure

/-!
# Lazy reads

A read is opened once and then pulled. What it holds between pulls is its cursor; what it reads from
lies in a world that others may change between two pulls. A pull may find that the next event is none
of the read's business and report a skip, so that a reader which narrows another takes one step of
the other for each step of its own. `next` passes over skips, and `extent` bounds how many there are.
An ended read may be pulled again, and goes on if there is more by then.

Pulling a read may change the world, and by that add to what the read has yet to pass. `growths` bounds
how often that happens, so `next` measures the extent anew that many times.
-/

namespace Chronicle

/-- What one pull finds. -/
inductive Found (P : Type) where
  /-- The next event of the read. -/
  | event (event : Placed P)
  /-- A failure in the place of an event. -/
  | failure (error : StoreError)
  /-- Nothing yet, though the read has not ended. -/
  | skipped
  /-- The end of the read, as things stand. -/
  | finished
  deriving DecidableEq, Repr

/-- One result of a read: an event at its position, or a failure in its place. -/
abbrev Item (P : Type) : Type := Except StoreError (Placed P)

/-- The result that was found, none for a skip or an end. -/
def Found.item? {P : Type} : Found P → Option (Item P)
  | .event e => some (.ok e)
  | .failure e => some (.error e)
  | .skipped => none
  | .finished => none

/-- The lazy reads of a reader over worlds `W` with positions `P`. -/
structure Reads (W P : Type) where
  /-- What an open read holds. -/
  Cursor : Type
  /-- Takes one step of an open read. -/
  pull : W → Cursor → W × Cursor × Found P
  /-- Gives up an open read and what it holds in the world. -/
  close : W → Cursor → W := fun w _ => w
  /-- No fewer than the pulls left before the read ends, if nothing is written meanwhile. -/
  extent : W → Cursor → Nat
  /-- No fewer than the times that pulls of one open read add to what is left of it. -/
  growths : Nat := 0

namespace Reads

variable {W P : Type} (r : Reads W P)

/-- Pulls until something other than a skip is found, at most `steps` times. -/
def seek : Nat → W → r.Cursor → W × r.Cursor × Found P
  | 0, w, c => (w, c, .skipped)
  | steps + 1, w, c =>
    match r.pull w c with
    | (w, c, .skipped) => seek steps w c
    | result => result

/-- Pulls until something other than a skip is found, and measures the extent again as often as it may
have grown. -/
def search : Nat → W → r.Cursor → W × r.Cursor × Found P
  | 0, w, c => (w, c, .skipped)
  | rounds + 1, w, c =>
    match r.seek (r.extent w c + 1) w c with
    | (w, c, .skipped) => search rounds w c
    | result => result

/-- The pulls that are tried before the extent of a read is measured, because most results are near. -/
def glance : Nat := 1000

/-- The next result of an open read, none if it has ended. -/
def next (w : W) (c : r.Cursor) : W × r.Cursor × Option (Item P) :=
  match r.seek glance w c with
  | (w, c, .skipped) =>
    let (w, c, found) := r.search (r.growths + 1) w c
    (w, c, found.item?)
  | (w, c, found) => (w, c, found.item?)

/-- The results of an open read until it ends, at most `limit` of them. -/
def take : Nat → W → r.Cursor → W × r.Cursor × List (Item P)
  | 0, w, c => (w, c, [])
  | limit + 1, w, c =>
    match r.next w c with
    | (w, c, none) => (w, c, [])
    | (w, c, some item) =>
      let (w, c, items) := take limit w c
      (w, c, item :: items)

/-- The first result of a read that was opened for it, which is then given up. -/
def first (w : W) (opened : Except StoreError r.Cursor) :
    W × Except StoreError (Option (Placed P)) :=
  match opened with
  | .error e => (w, .error e)
  | .ok c =>
    match r.next w c with
    | (w, c, none) => (r.close w c, .ok none)
    | (w, c, some (.ok e)) => (r.close w c, .ok (some e))
    | (w, c, some (.error e)) => (r.close w c, .error e)

end Reads

end Chronicle
