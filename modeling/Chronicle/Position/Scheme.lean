import Chronicle.Position.Stitched

/-!
# Kinds of positions

The sources of this library have positions of three kinds, nested to any depth: those of a log, the
single one of a source without events, and stitched pairs. A scheme names a kind, and its positions
and codec follow from the name.
-/

namespace Chronicle

/-- A kind of positions. -/
inductive Scheme where
  /-- Positions of a log. -/
  | log
  /-- The position of a source without events. -/
  | empty
  /-- Positions of two sources stitched together. -/
  | stitched (backfill live : Scheme)
  deriving DecidableEq, Repr

namespace Scheme

/-- The positions of a scheme. -/
@[reducible] def Position : Scheme → Type
  | log => Nat
  | empty => Unit
  | stitched backfill live => StitchedPosition backfill.Position live.Position

/-- Positions of a scheme are told apart. -/
def decEq : (s : Scheme) → DecidableEq s.Position
  | log => inferInstanceAs (DecidableEq Nat)
  | empty => inferInstanceAs (DecidableEq Unit)
  | stitched backfill live =>
    have := decEq backfill
    have := decEq live
    inferInstanceAs (DecidableEq (StitchedPosition backfill.Position live.Position))

instance (s : Scheme) : DecidableEq s.Position := decEq s

/-- The codec of a scheme. -/
def codec : (s : Scheme) → PositionCodec s.Position
  | log => .log
  | empty => .empty
  | stitched backfill live => .stitched backfill.codec live.codec

end Scheme

end Chronicle
