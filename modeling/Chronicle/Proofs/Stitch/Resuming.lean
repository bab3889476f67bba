import Chronicle.Proofs.Access.Pulls
import Chronicle.Proofs.Stitch.Stages

/-!
# Resuming a stitched read from any of its positions

Every event of a stitched read carries a position from which the read can be resumed. Whether a position is in
the backfill is decided by its live component alone: it is, when that stands at the cutoff. A read that starts
elsewhere yields live events only, and its positions keep the backfill component of the start. So one that
starts below the cutoff meets a position in the backfill on its way, though the backfill was never read; that
is the one position from which the read resumed need not be the rest.
-/

namespace Chronicle

section Yielding

variable {W P : Type}

/-- The events that a source yields from a position when nobody interferes, however many are asked for. -/
def EventReader.Yields (reader : EventReader W P) (w : W) (position : P) (events : List (Placed P)) : Prop :=
  ∃ c, reader.forwardsFrom w position = .ok c ∧
    ∀ limit, (reader.toReads.take limit w c).2.2 = (events.take limit).map .ok

/-- A source yields only one list of events from a position. -/
theorem EventReader.Yields.unique {reader : EventReader W P} {w : W} {position : P}
    {events others : List (Placed P)} (h : reader.Yields w position events)
    (ho : reader.Yields w position others) : events = others := by
  obtain ⟨c, hopen, htake⟩ := h
  obtain ⟨d, hother, hall⟩ := ho
  obtain rfl : c = d := Except.ok.inj (hopen.symm.trans hother)
  have hsame := (htake (events.length + others.length)).symm.trans (hall _)
  rw [List.take_of_length_le (Nat.le_add_right _ _), List.take_of_length_le (Nat.le_add_left _ _)] at hsame
  exact (List.map_inj_right fun _ _ he => Except.ok.inj he).1 hsame

/-- What a source yields when nobody interferes is yielded along a trace, whatever others may do. -/
theorem EventReader.Yields.emits {reader : EventReader W P} {w : W} {position : P} {events : List (Placed P)}
    (h : reader.Yields w position events) (env : W → W → Prop) :
    ∃ c, reader.forwardsFrom w position = .ok c ∧ reader.Emits env w c events := by
  obtain ⟨c, hopen, htake⟩ := h
  have hall := htake events.length
  rw [List.take_length] at hall
  have hitems : Item.events (events.map .ok) = events := by
    unfold Item.events
    rw [List.filterMap_map]
    exact List.filterMap_some
  have hemits : reader.Emits env w c (Item.events (reader.take events.length w c).2.2 ++ []) :=
    .of_take rfl (.nil _ _)
  rw [hall, hitems, List.append_nil] at hemits
  exact ⟨c, hopen, hemits⟩

end Yielding

namespace Stitch

/-- A position in two stores that are stitched together. -/
abbrev LogPosition : Type := StitchedPosition Nat Nat

section Following

variable (backfill live : Log)

/-- The live events after a position, as a stitched read yields them. -/
def liveAfter (p : LogPosition) : List (Placed LogPosition) :=
  (live.events.drop p.live).map (Placed.mapPosition (⟨p.backfill, ·⟩))

/-- The events of the backfill after a position and then the live ones, as a stitched read yields them. -/
def bothAfter (p : LogPosition) : List (Placed LogPosition) :=
  (backfill.events.drop p.backfill).map (Placed.mapPosition (⟨·, p.live⟩)) ++
    liveAfter live ⟨max p.backfill backfill.events.length, p.live⟩

/-- The events after a position. -/
def eventsAfter (cutoff : Nat) (p : LogPosition) : List (Placed LogPosition) :=
  if p.live = cutoff then bothAfter backfill live p else liveAfter live p

variable {backfill live} {p : LogPosition}

/-- The next live event stands at the next live position. -/
theorem liveAfter_eq (hl : live.Coherent) (p : LogPosition) :
    liveAfter live p =
      match live.events[p.live]? with
      | some e => ⟨⟨p.backfill, p.live + 1⟩, e.record⟩ :: liveAfter live ⟨p.backfill, p.live + 1⟩
      | none => [] := by
  unfold liveAfter
  by_cases h : p.live < live.events.length
  · rw [List.getElem?_eq_getElem h, List.drop_eq_getElem_cons h, List.map_cons]
    unfold Placed.mapPosition
    rw [hl.position_getElem h]
  · have hle := Nat.le_of_not_lt h
    rw [List.getElem?_eq_none hle, List.drop_eq_nil_of_le hle]
    rfl

/-- The next event of the backfill stands at the next position there, and the live events follow the last. -/
theorem bothAfter_eq (hb : backfill.Coherent) (p : LogPosition) :
    bothAfter backfill live p =
      match backfill.events[p.backfill]? with
      | some e => ⟨⟨p.backfill + 1, p.live⟩, e.record⟩ :: bothAfter backfill live ⟨p.backfill + 1, p.live⟩
      | none => liveAfter live p := by
  unfold bothAfter
  by_cases h : p.backfill < backfill.events.length
  · have hlast : max (p.backfill + 1) backfill.events.length = max p.backfill backfill.events.length := by
      omega
    rw [List.getElem?_eq_getElem h, List.drop_eq_getElem_cons h, List.map_cons, List.cons_append]
    dsimp only
    rw [hlast]
    unfold Placed.mapPosition
    rw [hb.position_getElem h]
  · have hle := Nat.le_of_not_lt h
    rw [List.getElem?_eq_none hle, List.drop_eq_nil_of_le hle, Nat.max_eq_left hle]
    rfl

/-- What follows an event among the live ones is what there is after its position. -/
theorem liveAfter_suffix (hl : live.Coherent) {xs ys : List (Placed LogPosition)} {e : Placed LogPosition}
    (h : liveAfter live p = xs ++ e :: ys) :
    ys = liveAfter live e.position ∧ e.position.backfill = p.backfill ∧ p.live < e.position.live := by
  induction xs generalizing p with
  | nil =>
    rw [liveAfter_eq hl] at h
    cases he : live.events[p.live]? with
    | none =>
      rw [he] at h
      nomatch h
    | some first =>
      rw [he] at h
      obtain ⟨rfl, rfl⟩ := List.cons.inj h
      exact ⟨rfl, rfl, Nat.lt_succ_self _⟩
  | cons x xs ih =>
    rw [liveAfter_eq hl] at h
    cases he : live.events[p.live]? with
    | none =>
      rw [he] at h
      nomatch h
    | some first =>
      rw [he] at h
      obtain ⟨hys, hback, hlt⟩ := ih (List.cons.inj h).2
      exact ⟨hys, hback, Nat.lt_of_succ_lt hlt⟩

/-- What follows an event among those of both sides is what there is after its position, where the live
component tells which side has been reached. -/
theorem bothAfter_suffix (hb : backfill.Coherent) (hl : live.Coherent) {xs ys : List (Placed LogPosition)}
    {e : Placed LogPosition} (h : bothAfter backfill live p = xs ++ e :: ys) :
    ys = eventsAfter backfill live p.live e.position := by
  unfold eventsAfter
  induction xs generalizing p with
  | nil =>
    rw [bothAfter_eq hb] at h
    cases he : backfill.events[p.backfill]? with
    | some first =>
      rw [he] at h
      obtain ⟨rfl, rfl⟩ := List.cons.inj h
      rw [if_pos rfl]
    | none =>
      rw [he] at h
      have hfirst : liveAfter live p = [] ++ e :: ys := h
      obtain ⟨hys, -, hlt⟩ := liveAfter_suffix hl hfirst
      rw [if_neg (Nat.ne_of_gt hlt)]
      exact hys
  | cons x xs ih =>
    rw [bothAfter_eq hb] at h
    cases he : backfill.events[p.backfill]? with
    | some first =>
      rw [he] at h
      exact ih (p := ⟨p.backfill + 1, p.live⟩) (List.cons.inj h).2
    | none =>
      rw [he] at h
      obtain ⟨hys, -, hlt⟩ := liveAfter_suffix hl h
      rw [if_neg (Nat.ne_of_gt hlt)]
      exact hys

/-- Which records follow does not depend on the backfill component that they carry. -/
theorem map_record_liveAfter (p : LogPosition) :
    (liveAfter live p).map (·.record) = (live.events.drop p.live).map (·.record) := by
  unfold liveAfter
  rw [List.map_map]
  rfl

variable (backfill) in
/-- A read from outside the backfill comes to the cutoff, while the backfill has events after its start. -/
def Overtakes (cutoff : Nat) (p reached : LogPosition) : Prop :=
  p.live ≠ cutoff ∧ reached.live = cutoff ∧ p.backfill < backfill.events.length

/-- What follows an event is what there is after its position, unless the read overtook the backfill. Then
the events of the backfill come first. -/
theorem eventsAfter_suffix (hb : backfill.Coherent) (hl : live.Coherent) {cutoff : Nat}
    {xs ys : List (Placed LogPosition)} {e : Placed LogPosition}
    (h : eventsAfter backfill live cutoff p = xs ++ e :: ys) :
    (¬ Overtakes backfill cutoff p e.position → eventsAfter backfill live cutoff e.position = ys) ∧
      (Overtakes backfill cutoff p e.position → ∃ old new,
        eventsAfter backfill live cutoff e.position = old ++ new ∧
          old.map (·.record) = (backfill.events.drop p.backfill).map (·.record) ∧
            new.map (·.record) = ys.map (·.record)) := by
  by_cases hp : p.live = cutoff
  · have hboth : eventsAfter backfill live cutoff p = bothAfter backfill live p := if_pos hp
    rw [hboth] at h
    have hys := bothAfter_suffix hb hl h
    rw [hp] at hys
    exact ⟨fun _ => hys.symm, fun hover => absurd hp hover.1⟩
  · have honly : eventsAfter backfill live cutoff p = liveAfter live p := if_neg hp
    rw [honly] at h
    obtain ⟨rfl, hback, -⟩ := liveAfter_suffix hl h
    by_cases he : e.position.live = cutoff
    · have hboth : eventsAfter backfill live cutoff e.position = bothAfter backfill live e.position := if_pos he
      rw [hboth]
      constructor
      · intro hnot
        have hle : backfill.events.length ≤ e.position.backfill := by
          rw [hback]
          exact Nat.le_of_not_lt fun hlt => hnot ⟨hp, he, hlt⟩
        rw [bothAfter_eq hb, List.getElem?_eq_none hle]
      · intro _
        refine ⟨_, _, rfl, ?_, ?_⟩
        · rw [hback, List.map_map]
          rfl
        · rw [map_record_liveAfter, map_record_liveAfter]
    · have hlive : eventsAfter backfill live cutoff e.position = liveAfter live e.position := if_neg he
      rw [hlive]
      exact ⟨fun _ => rfl, fun hover => absurd hover.2.1 he⟩

end Following

section Reading

variable {W : Type} (backfill live : Place W Store) (cutoff : Nat)

/-- Two stores of a world, stitched together. -/
def storesReader : EventReader W LogPosition :=
  .stitched (Store.eventReader backfill) (Store.eventReader live) cutoff

/-- A spliced read of two stores. -/
abbrev StoresRead : Type :=
  Splice (Store.eventReader backfill).Cursor (Store.eventReader live).Cursor Nat Nat

/-- A spliced read that has only the live side left. -/
def readLive (p : LogPosition) : StoresRead backfill live := ⟨none, Store.cursorAt live p.live, p⟩

/-- A spliced read that still has both sides. -/
def readBoth (p : LogPosition) : StoresRead backfill live :=
  ⟨some (Store.cursorAt backfill p.backfill), Store.cursorAt live p.live, p⟩

variable {backfill live cutoff} {w : W} {p : LogPosition}

/-- A read from a position in the backfill has both sides. -/
theorem forwardsFrom_of_cutoff (h : p.live = cutoff) :
    (storesReader backfill live cutoff).forwardsFrom w p = .ok (readBoth backfill live p) :=
  Splice.start_of_cutoff h

/-- A read from any other position has only the live side. -/
theorem forwardsFrom_of_ne (h : p.live ≠ cutoff) :
    (storesReader backfill live cutoff).forwardsFrom w p = .ok (readLive backfill live p) :=
  Splice.start_elsewhere h

variable (p)

/-- A pull of a read with only the live side left finds the next live event, or the end. -/
theorem pull_readLive (hl : (live.get w).log.Coherent) :
    (storesReader backfill live cutoff).pull w (readLive backfill live p) =
      match (live.get w).log.events[p.live]? with
      | some e => (w, readLive backfill live ⟨p.backfill, p.live + 1⟩,
          .event ⟨⟨p.backfill, p.live + 1⟩, e.record⟩)
      | none => (w, readLive backfill live p, .finished) := by
  show Splice.pullLive (Store.eventReader backfill).toReads (Store.eventReader live).toReads w
    (Store.cursorAt live p.live) p = _
  unfold Splice.pullLive
  rw [Store.pull_cursorAt hl]
  cases (live.get w).log.events[p.live]? <;> rfl

/-- A pull of a read with both sides finds the next event of the backfill, or is one of the live side. -/
theorem pull_readBoth (hb : (backfill.get w).log.Coherent) :
    (storesReader backfill live cutoff).pull w (readBoth backfill live p) =
      match (backfill.get w).log.events[p.backfill]? with
      | some e => (w, readBoth backfill live ⟨p.backfill + 1, p.live⟩,
          .event ⟨⟨p.backfill + 1, p.live⟩, e.record⟩)
      | none => (storesReader backfill live cutoff).pull w (readLive backfill live p) := by
  show Splice.pull (Store.eventReader backfill).toReads (Store.eventReader live).toReads w
    ⟨some (Store.cursorAt backfill p.backfill), Store.cursorAt live p.live, p⟩ = _
  unfold Splice.pull
  dsimp only
  rw [Store.pull_cursorAt hb]
  cases (backfill.get w).log.events[p.backfill]? <;> rfl

/-- A read with only the live side left yields the next live event, or ends. -/
theorem next_readLive (hl : (live.get w).log.Coherent) :
    (storesReader backfill live cutoff).next w (readLive backfill live p) =
      match (live.get w).log.events[p.live]? with
      | some e => (w, readLive backfill live ⟨p.backfill, p.live + 1⟩,
          some (.ok ⟨⟨p.backfill, p.live + 1⟩, e.record⟩))
      | none => (w, readLive backfill live p, none) := by
  have hpull : (storesReader backfill live cutoff).pull w (readLive backfill live p) = _ :=
    pull_readLive p hl
  cases he : (live.get w).log.events[p.live]? with
  | none =>
    rw [he] at hpull
    exact Reads.next_of_pull hpull nofun
  | some e =>
    rw [he] at hpull
    exact Reads.next_of_pull hpull nofun

/-- A read with both sides yields the next event of the backfill, or goes on with the live side. -/
theorem next_readBoth (hb : (backfill.get w).log.Coherent) :
    (storesReader backfill live cutoff).next w (readBoth backfill live p) =
      match (backfill.get w).log.events[p.backfill]? with
      | some e => (w, readBoth backfill live ⟨p.backfill + 1, p.live⟩,
          some (.ok ⟨⟨p.backfill + 1, p.live⟩, e.record⟩))
      | none => (storesReader backfill live cutoff).next w (readLive backfill live p) := by
  have hpull : (storesReader backfill live cutoff).pull w (readBoth backfill live p) = _ :=
    pull_readBoth p hb
  cases he : (backfill.get w).log.events[p.backfill]? with
  | none =>
    rw [he] at hpull
    exact Reads.next_congr hpull
  | some e =>
    rw [he] at hpull
    exact Reads.next_of_pull hpull nofun

/-- A read with only the live side left yields the live events after its position. -/
theorem take_readLive (hl : (live.get w).log.Coherent) (limit : Nat) :
    ((storesReader backfill live cutoff).take limit w (readLive backfill live p)).2.2 =
      ((liveAfter (live.get w).log p).take limit).map .ok := by
  induction limit generalizing p with
  | zero => rfl
  | succ limit ih =>
    have hnext : (storesReader backfill live cutoff).next w (readLive backfill live p) = _ :=
      next_readLive p hl
    rw [liveAfter_eq hl]
    cases he : (live.get w).log.events[p.live]? with
    | none =>
      rw [he] at hnext
      exact Reads.take_of_end hnext _
    | some e =>
      rw [he] at hnext
      rw [Reads.take_of_next hnext, ih]
      rfl

/-- A read with both sides yields the events of both after its position. -/
theorem take_readBoth (hb : (backfill.get w).log.Coherent) (hl : (live.get w).log.Coherent) (limit : Nat) :
    ((storesReader backfill live cutoff).take limit w (readBoth backfill live p)).2.2 =
      ((bothAfter (backfill.get w).log (live.get w).log p).take limit).map .ok := by
  induction limit generalizing p with
  | zero => rfl
  | succ limit ih =>
    have hnext : (storesReader backfill live cutoff).next w (readBoth backfill live p) = _ :=
      next_readBoth p hb
    rw [bothAfter_eq hb]
    cases he : (backfill.get w).log.events[p.backfill]? with
    | none =>
      rw [he] at hnext
      exact (Reads.take_congr hnext _).trans (take_readLive p hl _)
    | some e =>
      rw [he] at hnext
      rw [Reads.take_of_next hnext, ih]
      rfl

/-- A read from a position yields the events after it. -/
theorem yields_eventsAfter (hb : (backfill.get w).log.Coherent) (hl : (live.get w).log.Coherent) :
    (storesReader backfill live cutoff).Yields w p
      (eventsAfter (backfill.get w).log (live.get w).log cutoff p) := by
  unfold eventsAfter
  by_cases h : p.live = cutoff
  · rw [if_pos h]
    exact ⟨readBoth backfill live p, forwardsFrom_of_cutoff h, take_readBoth p hb hl⟩
  · rw [if_neg h]
    exact ⟨readLive backfill live p, forwardsFrom_of_ne h, take_readLive p hl⟩

/-- A stitched read of two stores yields some events from any position. From the position of any of them it
yields exactly those behind it, at the same positions, unless the read started outside the backfill, while the
backfill had events after its start, and that position is the one at the cutoff. From there the events of
the backfill come first, and then those behind it. -/
theorem stitched_reads_resume (hb : (backfill.get w).Reached) (hl : (live.get w).Reached) (cutoff : Nat)
    (p : LogPosition) :
    let reader := storesReader backfill live cutoff
    ∃ events, reader.Yields w p events ∧ ∀ xs e ys, events = xs ++ e :: ys →
      (¬ Overtakes (backfill.get w).log cutoff p e.position → reader.Yields w e.position ys) ∧
        (Overtakes (backfill.get w).log cutoff p e.position → ∃ old new,
          reader.Yields w e.position (old ++ new) ∧
            old.map (·.record) = ((backfill.get w).log.events.drop p.backfill).map (·.record) ∧
              new.map (·.record) = ys.map (·.record)) := by
  intro reader
  refine ⟨_, yields_eventsAfter p hb.coherent hl.coherent, fun xs e ys h => ?_⟩
  obtain ⟨hsame, hmore⟩ := eventsAfter_suffix hb.coherent hl.coherent h
  have hyields : reader.Yields w e.position _ := yields_eventsAfter e.position hb.coherent hl.coherent
  constructor
  · intro hnot
    rw [hsame hnot] at hyields
    exact hyields
  · intro hover
    obtain ⟨old, new, hsplit, hold, hnew⟩ := hmore hover
    rw [hsplit] at hyields
    exact ⟨old, new, hyields, hold, hnew⟩

/-- A read that starts below the cutoff and behind the backfill can be resumed at the cutoff. -/
theorem stitched_reads_resume_behind_backfill :
    let orders : StreamId := ⟨"orders", "1", by decide⟩
    let empty := Store.withClock fun _ => .epoch
    let w : Sources := ⟨empty.append orders [⟨"Placed", [1], []⟩],
      empty.append orders [⟨"Placed", [1], []⟩, ⟨"Paid", [2], []⟩]⟩
    let reader := storesReader Sources.backfillPlace Sources.livePlace 1
    w.backfill.Reached ∧ w.live.Reached ∧ ∃ events, reader.Yields w ⟨1, 0⟩ events ∧
      events.map (·.position) = [⟨1, 1⟩, ⟨1, 2⟩] ∧ reader.Yields w ⟨1, 1⟩ events.tail := by
  intro orders empty w reader
  have hempty : empty.Reached := .start _
  have hb : (Sources.backfillPlace.get w).Reached := hempty.append _ _
  have hl : (Sources.livePlace.get w).Reached := hempty.append _ _
  obtain ⟨events, hyields, hresume⟩ := stitched_reads_resume hb hl 1 ⟨1, 0⟩
  have hevents : events = eventsAfter w.backfill.log w.live.log 1 ⟨1, 0⟩ :=
    hyields.unique (yields_eventsAfter _ hb.coherent hl.coherent)
  subst hevents
  have hnot : ¬ Overtakes w.backfill.log 1 ⟨1, 0⟩ ⟨1, 1⟩ := fun hover => absurd hover.2.2 (by decide)
  exact ⟨hb, hl, _, hyields, rfl, (hresume [] _ _ rfl).1 hnot⟩

/-- A read that starts below the cutoff and before the end of the backfill cannot be resumed at the cutoff: it
would have ended there, but the read that resumes yields an event of the backfill. -/
theorem stitched_read_not_resumed_at_cutoff :
    let orders : StreamId := ⟨"orders", "1", by decide⟩
    let empty := Store.withClock fun _ => .epoch
    let w : Sources := ⟨empty.append orders [⟨"Placed", [1], []⟩],
      empty.append orders [⟨"Placed", [1], []⟩, ⟨"Paid", [2], []⟩]⟩
    let reader := storesReader Sources.backfillPlace Sources.livePlace 2
    let placed : Placed LogPosition := ⟨⟨0, 1⟩, ⟨.epoch, orders, 0, "Placed", [1], []⟩⟩
    let paid : Placed LogPosition := ⟨⟨0, 2⟩, ⟨.epoch, orders, 1, "Paid", [2], []⟩⟩
    w.backfill.Reached ∧ w.live.Reached ∧ reader.Yields w ⟨0, 0⟩ [placed, paid] ∧
      ¬ reader.Yields w paid.position [] := by
  intro orders empty w reader placed paid
  have hempty : empty.Reached := .start _
  have hb : (Sources.backfillPlace.get w).Reached := hempty.append _ _
  have hl : (Sources.livePlace.get w).Reached := hempty.append _ _
  have hall : reader.Yields w ⟨0, 0⟩ (eventsAfter w.backfill.log w.live.log 2 ⟨0, 0⟩) :=
    yields_eventsAfter _ hb.coherent hl.coherent
  have hrest : reader.Yields w paid.position (eventsAfter w.backfill.log w.live.log 2 paid.position) :=
    yields_eventsAfter _ hb.coherent hl.coherent
  exact ⟨hb, hl, hall, fun hnone => absurd (hnone.unique hrest) (by decide +kernel)⟩

end Reading

end Stitch

end Chronicle
