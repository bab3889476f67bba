import Chronicle.Position.Codec

/-!
# Stitched positions

A source made of a frozen backfill and a live source has positions with a component in each. Their
text joins the two by a separator, and a text that holds the separator twice is refused, because it
would not tell which of the two stitched sides is itself stitched.
-/

namespace Chronicle

/-- A position in each of the two sources that are stitched together. -/
structure StitchedPosition (B L : Type) where
  /-- The position in the backfill. -/
  backfill : B
  /-- The position in the live source. -/
  live : L
  deriving DecidableEq, Repr

/-- Whether the live component still stands at the cutoff, so that the backfill is being read. -/
def StitchedPosition.inBackfill {B L : Type} [DecidableEq L] (p : StitchedPosition B L)
    (cutoff : L) : Bool := p.live = cutoff

namespace Stitch

/-- What stands between the two halves of a position text. -/
def separator : List Char := ['~', '~', '~']

/-- The pieces of a text between separators, found from the left without overlap. -/
def pieces : List Char → List (List Char)
  | [] => [[]]
  | '~' :: '~' :: '~' :: rest => [] :: pieces rest
  | c :: rest =>
    match pieces rest with
    | [] => [[c]]
    | piece :: more => (c :: piece) :: more

/-- The halves of a position text, if it holds the separator. -/
def split (text : String) : Except StoreError (Option (String × String)) :=
  match pieces text.toList with
  | [backfill, live] => .ok (some (String.ofList backfill, String.ofList live))
  | _ :: _ :: _ => .error (.invalidPosition
      ("Cannot handle nested stitch separators for position " ++ text))
  | _ => .ok none

end Stitch

namespace PositionCodec

variable {B L : Type}

/-- The text of a stitched position. -/
def stitchedText (backfill : PositionCodec B) (live : PositionCodec L) (p : StitchedPosition B L) :
    String :=
  backfill.serialize p.backfill ++ String.ofList Stitch.separator ++ live.serialize p.live

/-- The stitched position of two halves; the backfill's refusal comes first. -/
def stitchedOfHalves (backfill : PositionCodec B) (live : PositionCodec L) (b l : String) :
    Except StoreError (StitchedPosition B L) := do
  let b ← backfill.deserialize b
  let l ← live.deserialize l
  return ⟨b, l⟩

/-- Positions of a stitched source: both texts around the separator, ordered by the backfill
component and then by the live one. -/
def stitched (backfill : PositionCodec B) (live : PositionCodec L) :
    PositionCodec (StitchedPosition B L) where
  serialize := stitchedText backfill live
  deserialize text := do
    match ← Stitch.split text with
    | some (b, l) => stitchedOfHalves backfill live b l
    | none => throw (.invalidPosition ("missing stitch separator in position " ++ text))
  order p q := do
    match ← backfill.order p.backfill q.backfill with
    | .eq => live.order p.live q.live
    | earlier => return earlier

end PositionCodec

end Chronicle
