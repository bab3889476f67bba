import Chronicle.Position.Stitched

/-!
# Codecs for leaving a stitched source

A consumer of a stitched source that is to read its live source alone does so in two phases. While
it expands it still reads the stitched source but also accepts plain live texts, which mean that the
backfill is done. When it migrates it reads the live source and still accepts stitched texts, unless
they stand in the backfill, which the live source cannot continue.
-/

namespace Chronicle.PositionCodec

variable {B L : Type} [DecidableEq L]

/-- The codec of the expanding phase. A plain live text stands after the whole backfill. Only live
components are compared, so two positions inside the backfill cannot be. -/
def expanding (backfill : PositionCodec B) (live : PositionCodec L) (backfillEnd : B) (cutoff : L) :
    PositionCodec (StitchedPosition B L) where
  serialize := stitchedText backfill live
  deserialize text := do
    match ← Stitch.split text with
    | some (b, l) => stitchedOfHalves backfill live b l
    | none => return ⟨backfillEnd, ← live.deserialize text⟩
  order p q :=
    if p.inBackfill cutoff && q.inBackfill cutoff then
      .error (.unsupportedOperation "Cannot compare two positions in backfill")
    else live.order p.live q.live

/-- The codec of the migrating phase. Of a stitched text only the live half is read, and it must
have left the cutoff. -/
def migrating (live : PositionCodec L) (cutoff : L) : PositionCodec L where
  serialize := live.serialize
  deserialize text := do
    match ← Stitch.split text with
    | none => live.deserialize text
    | some (_, l) =>
      let position ← live.deserialize l
      if position = cutoff then
        throw (.illegalState "Cannot handle positions in the backfill")
      return position
  order := live.order

end Chronicle.PositionCodec
