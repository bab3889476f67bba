import Chronicle.Access.Reader
import Chronicle.Stitch.Splice

/-!
# Stitched sources

A stitched source is a frozen backfill followed by a live source. The cutoff is the live position after
which the live source counts; a read that starts at the cutoff is still in the backfill, a read that
starts elsewhere touches the live source alone. Categories are stitched in the same way.
-/

namespace Chronicle

variable {W B L : Type} [DecidableEq L]

/-- Two sources stitched at a cutoff, read as one log. -/
def EventReader.stitched (backfill : EventReader W B) (live : EventReader W L) (cutoff : L) :
    EventReader W (StitchedPosition B L) where
  toReads := Splice.reads backfill.toReads live.toReads
  codec := .stitched backfill.codec live.codec
  emptyPosition := ⟨backfill.emptyPosition, cutoff⟩
  forwardsFrom w position :=
    Splice.start backfill.toReads live.toReads cutoff w position
      backfill.forwardsFrom live.forwardsFrom

/-- Two sources stitched at a cutoff, read by category. The cutoff is a position of the live
category. -/
def CategoryReader.stitched (backfill : CategoryReader W B) (live : CategoryReader W L) (cutoff : L) :
    CategoryReader W (StitchedPosition B L) where
  toReads := Splice.reads backfill.toReads live.toReads
  codec category := .stitched (backfill.codec category) (live.codec category)
  emptyPosition category := ⟨backfill.emptyPosition category, cutoff⟩
  forwardsFrom w category position :=
    Splice.start backfill.toReads live.toReads cutoff w position
      (fun w => backfill.forwardsFrom w category) (fun w => live.forwardsFrom w category)

/-- A source that is read as one log and by category, with the same positions. -/
structure Source (W P : Type) where
  /-- The source as one log. -/
  events : EventReader W P
  /-- The source by category. -/
  categories : CategoryReader W P

/-- Two sources stitched at a cutoff, in both ways of reading. -/
def Source.stitched (backfill : Source W B) (live : Source W L) (cutoff : L) :
    Source W (StitchedPosition B L) where
  events := .stitched backfill.events live.events cutoff
  categories := .stitched backfill.categories live.categories cutoff

end Chronicle
