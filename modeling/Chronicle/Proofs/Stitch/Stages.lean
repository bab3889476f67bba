import Chronicle.Position.Scheme
import Chronicle.Proofs.Position.Texts
import Chronicle.Proofs.Store.Coherence
import Chronicle.Stitch.Source

/-!
# Stages of a stitched sequence

A frozen backfill and a live store make one sequence: the events of the backfill, then those of the live
store above the cutoff. A stage says how far into it a reader has come, either in the backfill or in the
live store. The stage does not depend on which of the two sides a spliced read still holds, so a spliced
read, whatever it holds, yields what follows its stage. The live store may grow meanwhile: stages stay
valid, and nothing behind them changes.
-/

namespace Chronicle

namespace Stitch

/-- The stores that a consumer of a stitched source reads. -/
structure Sources where
  /-- The store of the backfill, to which nothing is written. -/
  backfill : Store
  /-- The live store. -/
  live : Store

namespace Sources

/-- Where the backfill is kept. -/
def backfillPlace : Place Sources Store := ⟨backfill, fun w store => { w with backfill := store }⟩

/-- Where the live store is kept. -/
def livePlace : Place Sources Store := ⟨live, fun w store => { w with live := store }⟩

/-- The sources after somebody appended to the live store. -/
def append (w : Sources) (stream : StreamId) (events : List NewEvent) : Sources :=
  livePlace.set w (w.live.append stream events)

/-- Both stores were filled by appends, and their positions fit a word. -/
structure Sound (w : Sources) : Prop where
  /-- The backfill was filled by appends. -/
  backfill_reached : w.backfill.Reached
  /-- The live store was filled by appends. -/
  live_reached : w.live.Reached
  /-- The positions of the backfill fit a word. -/
  backfill_size : w.backfill.size < Numeral.wordLimit
  /-- The positions of the live store fit a word. -/
  live_size : w.live.size < Numeral.wordLimit

end Sources

/-- The live source. -/
def liveReader : EventReader Sources Nat := Store.eventReader Sources.livePlace

/-- What a backfill is kept in. -/
inductive Backfill where
  /-- The backfill is a store. -/
  | store
  /-- There is no history: the backfill is the source without events. -/
  | empty
  deriving DecidableEq, Repr

namespace Backfill

/-- The kind of its positions. -/
def scheme : Backfill → Scheme
  | store => .log
  | empty => .empty

/-- The backfill as a source. -/
def reader : (b : Backfill) → EventReader Sources b.scheme.Position
  | store => Store.eventReader Sources.backfillPlace
  | empty => EmptySource.eventReader

/-- The events of the backfill. -/
def records : Backfill → Sources → List EventRecord
  | store, w => w.backfill.log.events.map (·.record)
  | empty, _ => []

/-- The position after a number of events. -/
def positionAt : (b : Backfill) → Nat → b.scheme.Position
  | store, passed => passed
  | empty, _ => ()

/-- A read that has passed a number of events. -/
def cursorAt : (b : Backfill) → Nat → b.reader.Cursor
  | store, passed => Log.Cursor.forwards passed .all
  | empty, _ => ()

variable (b : Backfill) (w : Sources)

/-- Its empty position is the one before any events. -/
theorem emptyPosition_eq : b.reader.emptyPosition = b.positionAt 0 := by
  cases b <;> rfl

/-- A read from a position has passed the events up to it. -/
theorem forwardsFrom_positionAt (passed : Nat) :
    b.reader.forwardsFrom w (b.positionAt passed) = .ok (b.cursorAt passed) := by
  cases b <;> rfl

/-- Giving up a read changes nothing. -/
theorem close_eq (c : b.reader.Cursor) : b.reader.close w c = w := by
  cases b <;> rfl

/-- Positions that fit a word are read back. -/
theorem exact_positionAt {passed : Nat} (h : passed < Numeral.wordLimit) :
    b.reader.codec.Exact (b.positionAt passed) := by
  cases b with
  | store => exact PositionCodec.exact_log h
  | empty => exact PositionCodec.exact_empty ()

variable {w}

/-- The backfill has no more events than a word can count. -/
theorem length_records_lt (h : w.Sound) : (b.records w).length < Numeral.wordLimit := by
  cases b with
  | store =>
    have hs := h.backfill_size
    simpa only [records, List.length_map, Store.size] using hs
  | empty => exact (by decide : 0 < Numeral.wordLimit)

/-- A read of the backfill yields the next event at the position after it, or ends. -/
theorem pull_cursorAt (h : w.Sound) (passed : Nat) :
    b.reader.pull w (b.cursorAt passed) =
      match (b.records w)[passed]? with
      | some record => (w, b.cursorAt (passed + 1), .event ⟨b.positionAt (passed + 1), record⟩)
      | none => (w, b.cursorAt passed, .finished) := by
  cases b with
  | empty => rfl
  | store =>
    have hcoherent : (Sources.backfillPlace.get w).log.Coherent := h.backfill_reached.coherent
    have hrecord : (store.records w)[passed]? =
        (Sources.backfillPlace.get w).log.events[passed]?.map (·.record) := List.getElem?_map
    rw [hrecord]
    refine (Store.pull_cursorAt hcoherent passed).trans ?_
    cases (Sources.backfillPlace.get w).log.events[passed]? <;> rfl

end Backfill

/-- How far into a stitched sequence a reader has come. -/
inductive Stage where
  /-- It has passed events of the backfill and none of the live source. -/
  | backfill (passed : Nat)
  /-- It has passed the whole backfill and the live source up to a position above the cutoff. -/
  | live (passed : Nat)
  deriving DecidableEq, Repr

section Sequence

variable (b : Backfill) (cutoff : Nat) (w : Sources)

/-- The whole sequence: all of the backfill, then the live events above the cutoff. -/
def sequence : List EventRecord :=
  b.records w ++ (w.live.log.events.filter (cutoff < ·.position)).map (·.record)

namespace Stage

/-- The stage lies in the sequence. -/
def Valid : Stage → Prop
  | .backfill passed => passed ≤ (b.records w).length
  | .live passed => cutoff < passed ∧ passed ≤ w.live.size

/-- The part of the sequence that is behind a stage. -/
def behind : Stage → List EventRecord
  | .backfill passed => (b.records w).take passed
  | .live passed => b.records w ++ ((w.live.log.events.take passed).drop cutoff).map (·.record)

/-- The event that follows a stage, and the stage after it. -/
def next? : Stage → Option (EventRecord × Stage)
  | .backfill passed =>
    match (b.records w)[passed]? with
    | some record => some (record, .backfill (passed + 1))
    | none => w.live.log.events[cutoff]?.map fun e => (e.record, .live (cutoff + 1))
  | .live passed => w.live.log.events[passed]?.map fun e => (e.record, .live (passed + 1))

end Stage

end Sequence

namespace Stage

variable {b : Backfill} {cutoff : Nat} {w : Sources} {stage : Stage}

/-- The stage after a valid one is valid. -/
theorem valid_next (hv : stage.Valid b cutoff w) {record : EventRecord} {later : Stage}
    (h : stage.next? b cutoff w = some (record, later)) : later.Valid b cutoff w := by
  cases stage with
  | backfill passed =>
    simp only [next?] at h
    cases hr : (b.records w)[passed]? with
    | some first =>
      rw [hr] at h
      obtain ⟨hi, -⟩ := List.getElem?_eq_some_iff.1 hr
      cases h
      exact hi
    | none =>
      rw [hr] at h
      obtain ⟨e, he, hl⟩ := Option.map_eq_some_iff.1 h
      obtain ⟨hi, -⟩ := List.getElem?_eq_some_iff.1 he
      cases hl
      exact ⟨Nat.lt_succ_self cutoff, hi⟩
  | live passed =>
    obtain ⟨hc, -⟩ := hv
    obtain ⟨e, he, hl⟩ := Option.map_eq_some_iff.1 h
    obtain ⟨hi, -⟩ := List.getElem?_eq_some_iff.1 he
    cases hl
    exact ⟨Nat.lt_succ_of_lt hc, hi⟩

/-- What is behind the next stage is one event more. -/
theorem behind_next (hv : stage.Valid b cutoff w) {record : EventRecord} {later : Stage}
    (h : stage.next? b cutoff w = some (record, later)) :
    later.behind b cutoff w = stage.behind b cutoff w ++ [record] := by
  cases stage with
  | backfill passed =>
    simp only [next?] at h
    cases hr : (b.records w)[passed]? with
    | some first =>
      rw [hr] at h
      cases h
      simp only [behind]
      rw [List.take_add_one, hr, Option.toList_some]
    | none =>
      rw [hr] at h
      obtain ⟨e, he, hl⟩ := Option.map_eq_some_iff.1 h
      cases hl
      have hle := List.getElem?_eq_none_iff.1 hr
      have hlen : (w.live.log.events.take cutoff).length = cutoff := by
        obtain ⟨hi, -⟩ := List.getElem?_eq_some_iff.1 he
        exact List.length_take_of_le (Nat.le_of_lt hi)
      simp only [behind]
      rw [List.take_of_length_le hle, List.take_add_one, he, Option.toList_some,
        List.drop_append_of_le_length (Nat.le_of_eq hlen.symm), List.drop_eq_nil_of_le (Nat.le_of_eq hlen)]
      rfl
  | live passed =>
    obtain ⟨hc, hp⟩ := hv
    obtain ⟨e, he, hl⟩ := Option.map_eq_some_iff.1 h
    cases hl
    have hlen : (w.live.log.events.take passed).length = passed := List.length_take_of_le hp
    simp only [behind]
    rw [List.take_add_one, he, Option.toList_some,
      List.drop_append_of_le_length (by omega), List.map_append, ← List.append_assoc]
    rfl

/-- What is behind a stage and what is not make up the sequence. -/
theorem behind_prefix (hw : w.Sound) (hv : stage.Valid b cutoff w) :
    stage.behind b cutoff w <+: sequence b cutoff w := by
  unfold sequence
  rw [hw.live_reached.coherent.filter_position]
  cases stage with
  | backfill passed =>
    exact (List.take_prefix passed _).trans (List.prefix_append _ _)
  | live passed =>
    obtain ⟨hc, hp⟩ := hv
    refine (List.prefix_append_right_inj _).2 (List.IsPrefix.map _ ?_)
    refine ⟨w.live.log.events.drop passed, ?_⟩
    have hlen : (w.live.log.events.take passed).length = passed := List.length_take_of_le hp
    rw [← List.drop_append_of_le_length (by omega), List.take_append_drop]

/-- Nothing follows a stage only when the whole sequence is behind it. -/
theorem behind_of_next?_none (hw : w.Sound) (hv : stage.Valid b cutoff w)
    (h : stage.next? b cutoff w = none) : stage.behind b cutoff w = sequence b cutoff w := by
  unfold sequence
  rw [hw.live_reached.coherent.filter_position]
  cases stage with
  | backfill passed =>
    simp only [next?] at h
    cases hr : (b.records w)[passed]? with
    | some first =>
      rw [hr] at h
      cases h
    | none =>
      rw [hr] at h
      have hl := List.getElem?_eq_none_iff.1 (Option.map_eq_none_iff.1 h)
      have hb := List.getElem?_eq_none_iff.1 hr
      simp only [behind]
      rw [List.take_of_length_le hb, List.drop_eq_nil_of_le hl, List.map_nil, List.append_nil]
  | live passed =>
    have hl := List.getElem?_eq_none_iff.1 (Option.map_eq_none_iff.1 h)
    simp only [behind]
    rw [List.take_of_length_le hl]

/-- The event that follows a stage is the one of the sequence after those behind it. -/
theorem sequence_getElem? (hw : w.Sound) (hv : stage.Valid b cutoff w) :
    (sequence b cutoff w)[(stage.behind b cutoff w).length]? =
      (stage.next? b cutoff w).map (·.1) := by
  cases hn : stage.next? b cutoff w with
  | none =>
    rw [behind_of_next?_none hw hv hn]
    exact List.getElem?_eq_none (Nat.le_refl _)
  | some found =>
    obtain ⟨record, later⟩ := found
    have hl := behind_prefix hw (valid_next hv hn)
    rw [behind_next hv hn] at hl
    obtain ⟨rest, hr⟩ := hl
    rw [← hr, List.append_assoc, List.getElem?_append_right (Nat.le_refl _), Nat.sub_self]
    rfl

section Growing

variable (stream : StreamId) (events : List NewEvent)

/-- A stage stays valid when the live store grows. -/
theorem valid_append (hv : stage.Valid b cutoff w) :
    stage.Valid b cutoff (w.append stream events) := by
  cases stage with
  | backfill passed =>
    cases b <;> exact hv
  | live passed =>
    obtain ⟨hc, hp⟩ := hv
    have hl := (w.live.log.prefix_append stream events (w.live.clock w.live.asked)).length_le
    exact ⟨hc, Nat.le_trans hp hl⟩

/-- Nothing behind a stage changes when the live store grows. -/
theorem behind_append (hv : stage.Valid b cutoff w) :
    stage.behind b cutoff (w.append stream events) = stage.behind b cutoff w := by
  cases stage with
  | backfill passed =>
    cases b <;> rfl
  | live passed =>
    obtain ⟨hc, hp⟩ := hv
    have hgrown := w.live.log.prefix_append stream events (w.live.clock w.live.asked)
    have ht : (w.append stream events).live.log.events.take passed = w.live.log.events.take passed :=
      take_of_grown hgrown hp
    simp only [behind]
    rw [ht]
    cases b <;> rfl

end Growing

end Stage

section Splicing

variable (b : Backfill) (cutoff : Nat)

/-- The stitched source. -/
def stitchedReader : EventReader Sources (StitchedPosition b.scheme.Position Nat) :=
  .stitched b.reader liveReader cutoff

/-- A spliced read of a backfill and the live store. -/
abbrev SplicedRead : Type := Splice b.reader.Cursor liveReader.Cursor b.scheme.Position Nat

/-- A live read that has passed the events up to a position. -/
def liveCursor (passed : Nat) : liveReader.Cursor := Log.Cursor.forwards passed .all

/-- A position lies at a stage. The backfill component at a live stage may be any that is read back. -/
def LiesAt : Stage → StitchedPosition b.scheme.Position Nat → Prop
  | .backfill passed, position => position = ⟨b.positionAt passed, cutoff⟩
  | .live passed, position => position.live = passed ∧ b.reader.codec.Exact position.backfill

/-- A spliced read stands at a stage. At the end of the backfill it may have noticed so or not. -/
def StandsAt (w : Sources) (stage : Stage) (s : SplicedRead b) : Prop :=
  LiesAt b cutoff stage s.reached ∧
    match stage with
    | .backfill passed => s.live = liveCursor cutoff ∧
        (s.backfill = some (b.cursorAt passed) ∨ s.backfill = none ∧ (b.records w)[passed]? = none)
    | .live passed => s.live = liveCursor passed ∧ s.backfill = none

variable {b cutoff} {w : Sources}

/-- A live read yields the next event at the position after it, or ends. -/
theorem pull_liveCursor (hw : w.Sound) (passed : Nat) :
    liveReader.pull w (liveCursor passed) =
      match w.live.log.events[passed]? with
      | some e => (w, liveCursor (passed + 1), .event ⟨passed + 1, e.record⟩)
      | none => (w, liveCursor passed, .finished) := by
  have hcoherent : (Sources.livePlace.get w).log.Coherent := hw.live_reached.coherent
  exact Store.pull_cursorAt hcoherent passed

/-- The live side of a spliced read yields what the live store has next. -/
theorem pullLive_liveCursor (hw : w.Sound) (passed : Nat)
    (reached : StitchedPosition b.scheme.Position Nat) :
    Splice.pullLive b.reader.toReads liveReader.toReads w (liveCursor passed) reached =
      match w.live.log.events[passed]? with
      | some e => (w, ⟨none, liveCursor (passed + 1), ⟨reached.backfill, passed + 1⟩⟩,
          .event ⟨⟨reached.backfill, passed + 1⟩, e.record⟩)
      | none => (w, ⟨none, liveCursor passed, reached⟩, .finished) := by
  unfold Splice.pullLive
  rw [pull_liveCursor hw]
  cases w.live.log.events[passed]? <;> rfl

/-- A spliced read yields the event that follows its stage, at a position of the stage after it, or
ends where it stands. -/
theorem pull_standsAt (hw : w.Sound) {stage : Stage} (hv : stage.Valid b cutoff w) {s : SplicedRead b}
    (h : StandsAt b cutoff w stage s) :
    match stage.next? b cutoff w with
    | some (record, later) => ∃ s' position,
        Splice.pull b.reader.toReads liveReader.toReads w s = (w, s', .event ⟨position, record⟩) ∧
          StandsAt b cutoff w later s' ∧ LiesAt b cutoff later position
    | none => ∃ s',
        Splice.pull b.reader.toReads liveReader.toReads w s = (w, s', .finished) ∧
          StandsAt b cutoff w stage s' := by
  obtain ⟨old, live, reached⟩ := s
  cases stage with
  | live passed =>
    obtain ⟨⟨hr, hx⟩, hl, hb⟩ := h
    simp only at hb hl hr hx
    subst hb hl hr
    have hp := pullLive_liveCursor (b := b) hw reached.live reached
    simp only [Stage.next?]
    cases he : w.live.log.events[reached.live]? with
    | none =>
      rw [he] at hp
      exact ⟨_, hp, ⟨rfl, hx⟩, rfl, rfl⟩
    | some e =>
      rw [he] at hp
      exact ⟨_, _, hp, ⟨⟨rfl, hx⟩, rfl, rfl⟩, rfl, hx⟩
  | backfill passed =>
    obtain ⟨hr, hl, hold⟩ := h
    simp only [LiesAt] at hl hr hold
    subst hl hr
    have hpos : b.reader.codec.Exact (b.positionAt passed) :=
      b.exact_positionAt (Nat.lt_of_le_of_lt hv (b.length_records_lt hw))
    have hp := pullLive_liveCursor (b := b) hw cutoff ⟨b.positionAt passed, cutoff⟩
    -- the live side is pulled when the backfill has ended, now or before
    have hend : (b.records w)[passed]? = none →
        Splice.pull b.reader.toReads liveReader.toReads w
            ⟨old, liveCursor cutoff, ⟨b.positionAt passed, cutoff⟩⟩ =
          Splice.pullLive b.reader.toReads liveReader.toReads w (liveCursor cutoff)
            ⟨b.positionAt passed, cutoff⟩ := by
      intro hn
      rcases hold with rfl | ⟨rfl, -⟩
      · have hb := b.pull_cursorAt hw passed
        rw [hn] at hb
        unfold Splice.pull
        dsimp only
        rw [hb]
        dsimp only
        rw [b.close_eq]
      · rfl
    simp only [Stage.next?]
    cases hn : (b.records w)[passed]? with
    | some record =>
      have hb := b.pull_cursorAt hw passed
      rw [hn] at hb
      rcases hold with rfl | ⟨-, hnone⟩
      · refine ⟨⟨some (b.cursorAt (passed + 1)), liveCursor cutoff, ⟨b.positionAt (passed + 1), cutoff⟩⟩,
          ⟨b.positionAt (passed + 1), cutoff⟩, ?_, ⟨rfl, rfl, .inl rfl⟩, rfl⟩
        unfold Splice.pull
        dsimp only
        rw [hb]
        rfl
      · rw [hn] at hnone
        cases hnone
    | none =>
      cases he : w.live.log.events[cutoff]? with
      | none =>
        rw [he] at hp
        exact ⟨_, (hend hn).trans hp, rfl, rfl, .inr ⟨rfl, hn⟩⟩
      | some e =>
        rw [he] at hp
        exact ⟨_, _, (hend hn).trans hp, ⟨⟨rfl, hpos⟩, rfl, rfl⟩, rfl, hpos⟩

/-- Giving up a spliced read changes nothing. -/
theorem close_spliced (w : Sources) (s : SplicedRead b) : (stitchedReader b cutoff).close w s = w := by
  change Splice.close b.reader.toReads liveReader.toReads w s = w
  unfold Splice.close
  cases s.backfill with
  | none => rfl
  | some c => exact b.close_eq w c

/-- A read from a position at a stage stands at the stage. -/
theorem forwardsFrom_liesAt {stage : Stage} (hv : stage.Valid b cutoff w)
    {position : StitchedPosition b.scheme.Position Nat} (h : LiesAt b cutoff stage position) :
    ∃ s : SplicedRead b, (stitchedReader b cutoff).forwardsFrom w position = .ok s ∧
      StandsAt b cutoff w stage s := by
  cases stage with
  | backfill passed =>
    simp only [LiesAt] at h
    subst h
    refine ⟨⟨some (b.cursorAt passed), liveCursor cutoff, ⟨b.positionAt passed, cutoff⟩⟩, ?_,
      rfl, rfl, .inl rfl⟩
    refine (Splice.start_of_cutoff rfl).trans ?_
    rw [b.forwardsFrom_positionAt]
    rfl
  | live passed =>
    obtain ⟨rfl, hx⟩ := h
    obtain ⟨hc, -⟩ := hv
    refine ⟨⟨none, liveCursor position.live, position⟩, ?_, ⟨rfl, hx⟩, rfl, rfl⟩
    exact Splice.start_elsewhere (by omega)

/-- The components of a position at a stage are read back. -/
theorem exact_liesAt (hw : w.Sound) (hc : cutoff < Numeral.wordLimit) {stage : Stage}
    (hv : stage.Valid b cutoff w) {position : StitchedPosition b.scheme.Position Nat}
    (h : LiesAt b cutoff stage position) :
    b.reader.codec.Exact position.backfill ∧ liveReader.codec.Exact position.live := by
  cases stage with
  | backfill passed =>
    simp only [LiesAt] at h
    subst h
    exact ⟨b.exact_positionAt (Nat.lt_of_le_of_lt hv (b.length_records_lt hw)),
      PositionCodec.exact_log hc⟩
  | live passed =>
    obtain ⟨rfl, hx⟩ := h
    exact ⟨hx, PositionCodec.exact_log (Nat.lt_of_le_of_lt hv.2 hw.live_size)⟩

/-- A spliced read stays where it stands when the live store grows. -/
theorem standsAt_append {stage : Stage} {s : SplicedRead b} (h : StandsAt b cutoff w stage s)
    (stream : StreamId) (events : List NewEvent) :
    StandsAt b cutoff (w.append stream events) stage s := by
  cases b <;> exact h

end Splicing

end Stitch

end Chronicle
