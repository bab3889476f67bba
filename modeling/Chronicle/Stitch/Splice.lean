import Chronicle.Access.Reads
import Chronicle.Position.Stitched

/-!
# Splicing two reads

A spliced read yields the rest of a backfill read and then a live read. An event of the backfill stands
at its own position and the live position the read started from; a live event stands at its own
position and the last backfill position that was reached. A failure stands in its place, moves no
position and does not end either side. The backfill is given up at its first end.
-/

namespace Chronicle

/-- An open spliced read. -/
structure Splice (BackfillCursor LiveCursor B L : Type) where
  /-- The read of the backfill, until it has ended. -/
  backfill : Option BackfillCursor
  /-- The read of the live source. -/
  live : LiveCursor
  /-- The position reached: the start, with the components passed since. -/
  reached : StitchedPosition B L

namespace Splice

variable {W B L : Type} (backfill : Reads W B) (live : Reads W L)

/-- Steps the live side of a spliced read. -/
def pullLive (w : W) (c : live.Cursor) (reached : StitchedPosition B L) :
    W × Splice backfill.Cursor live.Cursor B L × Found (StitchedPosition B L) :=
  match live.pull w c with
  | (w, c, .event e) =>
    (w, ⟨none, c, ⟨reached.backfill, e.position⟩⟩, .event (e.mapPosition (⟨reached.backfill, ·⟩)))
  | (w, c, .failure e) => (w, ⟨none, c, reached⟩, .failure e)
  | (w, c, .skipped) => (w, ⟨none, c, reached⟩, .skipped)
  | (w, c, .finished) => (w, ⟨none, c, reached⟩, .finished)

/-- Steps a spliced read: the backfill side while it lasts, then the live side. -/
def pull (w : W) (s : Splice backfill.Cursor live.Cursor B L) :
    W × Splice backfill.Cursor live.Cursor B L × Found (StitchedPosition B L) :=
  match s.backfill with
  | none => pullLive backfill live w s.live s.reached
  | some c =>
    match backfill.pull w c with
    | (w, c, .event e) =>
      (w, ⟨some c, s.live, ⟨e.position, s.reached.live⟩⟩,
        .event (e.mapPosition (⟨·, s.reached.live⟩)))
    | (w, c, .failure e) => (w, ⟨some c, s.live, s.reached⟩, .failure e)
    | (w, c, .skipped) => (w, ⟨some c, s.live, s.reached⟩, .skipped)
    | (w, c, .finished) => pullLive backfill live (backfill.close w c) s.live s.reached

/-- Gives up both sides of a spliced read. -/
def close (w : W) (s : Splice backfill.Cursor live.Cursor B L) : W :=
  match s.backfill with
  | none => live.close w s.live
  | some c => live.close (backfill.close w c) s.live

/-- The pulls left on both sides. -/
def extent (w : W) (s : Splice backfill.Cursor live.Cursor B L) : Nat :=
  (s.backfill.elim 0 (backfill.extent w)) + live.extent w s.live

/-- The spliced reads of two sources. -/
def reads : Reads W (StitchedPosition B L) where
  Cursor := Splice backfill.Cursor live.Cursor B L
  pull := pull backfill live
  close := close backfill live
  extent := extent backfill live
  growths := backfill.growths + live.growths

/-- Opens a spliced read at a position. The backfill is opened only while the live component stands at
the cutoff; its refusal comes before that of the live side. -/
def start [DecidableEq L] (cutoff : L) (w : W) (position : StitchedPosition B L)
    (openBackfill : W → B → Except StoreError backfill.Cursor)
    (openLive : W → L → Except StoreError live.Cursor) :
    Except StoreError (Splice backfill.Cursor live.Cursor B L) := do
  let old ←
    if position.inBackfill cutoff then some <$> openBackfill w position.backfill else pure none
  return ⟨old, ← openLive w position.live, position⟩

section Opening

variable {backfill live} [DecidableEq L] {cutoff : L} {w : W} {position : StitchedPosition B L}
  {openBackfill : W → B → Except StoreError backfill.Cursor}
  {openLive : W → L → Except StoreError live.Cursor}

/-- At the cutoff the backfill is opened, and then the live side. -/
theorem start_of_cutoff (h : position.live = cutoff) :
    start backfill live cutoff w position openBackfill openLive =
      (openBackfill w position.backfill).bind fun c =>
        (openLive w position.live).map (Splice.mk (some c) · position) := by
  unfold start StitchedPosition.inBackfill
  rw [if_pos (decide_eq_true h)]
  cases openBackfill w position.backfill with
  | error e => rfl
  | ok c => cases openLive w position.live <;> rfl

/-- Elsewhere the live side alone is opened. -/
theorem start_elsewhere (h : position.live ≠ cutoff) :
    start backfill live cutoff w position openBackfill openLive =
      (openLive w position.live).map (Splice.mk none · position) := by
  unfold start StitchedPosition.inBackfill
  rw [if_neg (by rwa [decide_eq_true_eq])]
  cases openLive w position.live <;> rfl

end Opening

end Splice

end Chronicle
