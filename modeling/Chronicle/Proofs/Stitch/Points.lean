import Chronicle.Position.Transition
import Chronicle.Proofs.Position.Texts
import Chronicle.Proofs.Stitch.Order
import Chronicle.Proofs.Stitch.Resuming
import Mathlib.Data.List.Nodup

/-!
# The points of a stitched source

Three codecs order the positions of a stitched source while consumers leave it. The stitched one looks at both
components, the later two at the live one only. They agree because a consumer does not come to any pair of
numbers, but to the points of the source: first those of the backfill, at the cutoff, and then those of the
live store, at the end of the backfill. A point is told by how many events are before it, and every codec
orders points as these numbers, or refuses.
-/

namespace Chronicle.Stitch

section Numbers

variable (size cutoff : Nat)

/-- The position behind a number of events of a stitched source whose backfill has some number of them. -/
def pointAt (n : Nat) : LogPosition := ⟨min n size, cutoff + (n - size)⟩

variable {size cutoff} {m n : Nat}

/-- Points of the backfill are at the cutoff. -/
theorem pointAt_of_le (h : n ≤ size) : pointAt size cutoff n = ⟨n, cutoff⟩ := by
  unfold pointAt
  rw [Nat.min_eq_left h, Nat.sub_eq_zero_of_le h]
  rfl

/-- Points of the live store are at the end of the backfill. -/
theorem pointAt_of_ge (h : size ≤ n) : pointAt size cutoff n = ⟨size, cutoff + (n - size)⟩ := by
  unfold pointAt
  rw [Nat.min_eq_right h]

/-- Before the end of the backfill the next point is one step further in it. -/
theorem pointAt_succ_of_lt (h : n < size) : pointAt size cutoff (n + 1) =
    ⟨(pointAt size cutoff n).backfill + 1, (pointAt size cutoff n).live⟩ := by
  rw [pointAt_of_le h, pointAt_of_le (Nat.le_of_lt h)]

/-- Behind the backfill the next point is one step further in the live store. -/
theorem pointAt_succ_of_ge (h : size ≤ n) : pointAt size cutoff (n + 1) =
    ⟨(pointAt size cutoff n).backfill, (pointAt size cutoff n).live + 1⟩ := by
  rw [pointAt_of_ge (Nat.le_succ_of_le h), pointAt_of_ge h, Nat.succ_sub h]
  rfl

/-- A point is at the cutoff only if it is one of the backfill. -/
theorem pointAt_live_eq_iff : (pointAt size cutoff n).live = cutoff ↔ n ≤ size := by
  show cutoff + (n - size) = cutoff ↔ _
  omega

/-- An earlier point comes before a later one. -/
theorem before_pointAt (h : m < n) :
    (PositionCodec.stitched .log .log).Before (pointAt size cutoff m) (pointAt size cutoff n) := by
  refine (PositionCodec.order_stitched_iff .log (by decide)).2 ?_
  have hlive : PositionCodec.log.Before (cutoff + (m - size)) (cutoff + (n - size)) ∨ m < size := by
    rw [PositionCodec.before_log_iff]
    omega
  rcases Nat.lt_or_ge m size with hm | hm
  · refine .inl (PositionCodec.before_log_iff.2 ?_)
    show min m size < min n size
    omega
  · refine .inr ⟨?_, hlive.resolve_right (Nat.not_lt.2 hm)⟩
    show min m size = min n size
    omega

/-- The stitched codec orders points by how many events are before them. -/
theorem order_pointAt (m n : Nat) :
    (PositionCodec.stitched .log .log).order (pointAt size cutoff m) (pointAt size cutoff n) =
      .ok (compare m n) := by
  have htotal : (PositionCodec.stitched .log .log).Total := .stitched .log .log
  rcases Nat.lt_trichotomy m n with h | h | h
  · rw [Nat.compare_eq_lt.2 h]
    exact before_pointAt h
  · subst h
    rw [Nat.compare_eq_eq.2 rfl]
    exact (htotal.eq_iff _ _).2 rfl
  · rw [Nat.compare_eq_gt.2 h]
    exact (htotal.swap _ _).1 (before_pointAt h)

/-- Different numbers of events are before different points. -/
theorem pointAt_injective : Function.Injective (pointAt size cutoff) := by
  intro m n h
  have horder : (PositionCodec.stitched .log .log).order (pointAt size cutoff m) _ = _ := order_pointAt m n
  rw [h, order_pointAt n n, Except.ok.injEq, Nat.compare_eq_eq.2 rfl] at horder
  exact Nat.compare_eq_eq.1 horder.symm

/-- Live components order points unless both are points of the backfill. -/
theorem compare_live_pointAt (h : ¬ (m ≤ size ∧ n ≤ size)) :
    compare (pointAt size cutoff m).live (pointAt size cutoff n).live = compare m n := by
  show compare (cutoff + (m - size)) (cutoff + (n - size)) = compare m n
  rcases Nat.lt_trichotomy m n with hlt | rfl | hgt
  · rw [Nat.compare_eq_lt.2 hlt, Nat.compare_eq_lt]
    omega
  · rw [Nat.compare_eq_eq.2 (rfl : m = m), Nat.compare_eq_eq]
  · rw [Nat.compare_eq_gt.2 hgt, Nat.compare_eq_gt]
    omega

/-- The expanding codec orders points by how many events are before them, unless both are points of the
backfill. -/
theorem order_expanding_pointAt (backfillEnd : Nat) (m n : Nat) :
    (PositionCodec.expanding .log .log backfillEnd cutoff).order (pointAt size cutoff m)
        (pointAt size cutoff n) =
      if (pointAt size cutoff m).live = cutoff ∧ (pointAt size cutoff n).live = cutoff then
        .error (.unsupportedOperation "Cannot compare two positions in backfill")
      else .ok (compare m n) := by
  unfold PositionCodec.expanding StitchedPosition.inBackfill
  dsimp only
  by_cases h : (pointAt size cutoff m).live = cutoff ∧ (pointAt size cutoff n).live = cutoff
  · rw [if_pos h, if_pos (by simpa using h)]
  · rw [if_neg h, if_neg (by simpa using h)]
    rw [pointAt_live_eq_iff, pointAt_live_eq_iff] at h
    exact congrArg Except.ok (compare_live_pointAt h)

end Numbers

section Reading

variable {W : Type} (backfill live : Place W Store) (cutoff : Nat) (last : W)

/-- A world that is followed by the last one: the backfill is what it is there, and the live store grows until
then. -/
structure Precedes (w : W) : Prop where
  /-- The backfill is frozen. -/
  frozen : backfill.get w = backfill.get last
  /-- The live store was filled by appends. -/
  reached : (live.get w).Reached
  /-- The live store grows to the last one. -/
  leads : (live.get w).LeadsTo (live.get last)

/-- What others may do while a stitched source is read: append to the live store. -/
def Grows (w later : W) : Prop :=
  (live.get w).LeadsTo (live.get later) ∧ Precedes backfill live last later

/-- The codec of consumers that are to leave a stitched source whose backfill is frozen as it is in the last
world. A live position stands behind the last event of the backfill. -/
def leavingCodec : PositionCodec LogPosition :=
  .expanding (Store.eventReader backfill).codec (Store.eventReader live).codec
    (lastReached (Store.eventReader backfill).emptyPosition (backfill.get last).log.events) cutoff

/-- The positions that a consumer may come to until the last world. -/
inductive Reaches : LogPosition → Prop where
  /-- It starts at the empty position. -/
  | empty : Reaches (storesReader backfill live cutoff).emptyPosition
  /-- It reads from a position that it came to, while the live store grows, and keeps that of an event. -/
  | read {w : W} {start : LogPosition} {s : (storesReader backfill live cutoff).Cursor}
    {events : List (Placed LogPosition)} {e : Placed LogPosition} (hw : Precedes backfill live last w)
    (hstart : Reaches start) (hopen : (storesReader backfill live cutoff).forwardsFrom w start = .ok s)
    (hemits : (storesReader backfill live cutoff).Emits (Grows backfill live last) w s events)
    (he : e ∈ events) : Reaches e.position
  /-- It kept the live position of a live event, and reads its text with the later codec. -/
  | plain {p q : LogPosition} (hp : Reaches p) (hlive : p.live ≠ cutoff)
    (hread : (leavingCodec backfill live cutoff last).deserialize
      ((Store.eventReader live).codec.serialize p.live) = .ok q) : Reaches q

variable {backfill live cutoff last}

/-- The events of the backfill and those of the live store above the cutoff. -/
def total (backfill live : Place W Store) (cutoff : Nat) (last : W) : Nat :=
  (backfill.get last).size + ((live.get last).size - cutoff)

variable (backfill live cutoff last) in
/-- A spliced read stands behind a number of events. -/
def AtPoint (n : Nat) (s : StoresRead backfill live) : Prop :=
  (n ≤ (backfill.get last).size ∧ s = readBoth backfill live (pointAt (backfill.get last).size cutoff n)) ∨
    ((backfill.get last).size ≤ n ∧ s = readLive backfill live (pointAt (backfill.get last).size cutoff n))

variable (backfill live cutoff last) in
/-- A pull leaves a read behind some events, and what it finds is the last of them. -/
def Arrives (next : StoresRead backfill live) (found : Found LogPosition) : Prop :=
  ∃ n ≤ total backfill live cutoff last, AtPoint backfill live cutoff last n next ∧
    ∀ e ∈ found.events, e.position = pointAt (backfill.get last).size cutoff n

variable {w later : W} {n : Nat} {s next : StoresRead backfill live} {found : Found LogPosition}

/-- A read that ends stays where it is. -/
theorem Arrives.stays (hn : n ≤ total backfill live cutoff last) (h : AtPoint backfill live cutoff last n s) :
    Arrives backfill live cutoff last s .finished :=
  ⟨n, hn, h, fun _ hmem => absurd hmem List.not_mem_nil⟩

/-- A read that finds the next event goes to it. -/
theorem Arrives.goes {e : Placed LogPosition} (hn : n ≤ total backfill live cutoff last)
    (h : AtPoint backfill live cutoff last n s)
    (hposition : e.position = pointAt (backfill.get last).size cutoff n) :
    Arrives backfill live cutoff last s (.event e) := by
  refine ⟨n, hn, h, fun other hmem => ?_⟩
  rw [List.mem_singleton.1 hmem]
  exact hposition

/-- Behind the backfill a pull stays at a point, or goes to the next one. -/
theorem pull_readLive_pointAt (hw : Precedes backfill live last w)
    (hn : n ≤ total backfill live cutoff last) (hle : (backfill.get last).size ≤ n)
    (hpull : (storesReader backfill live cutoff).pull w
      (readLive backfill live (pointAt (backfill.get last).size cutoff n)) = (later, next, found)) :
    later = w ∧ Arrives backfill live cutoff last next found := by
  rw [pull_readLive _ hw.reached.coherent] at hpull
  cases he : (live.get w).log.events[(pointAt (backfill.get last).size cutoff n).live]? with
  | none =>
    rw [he] at hpull
    cases hpull
    exact ⟨rfl, .stays hn (.inr ⟨hle, rfl⟩)⟩
  | some e =>
    rw [he] at hpull
    cases hpull
    have hlt : cutoff + (n - (backfill.get last).size) < (live.get w).size := (List.getElem?_eq_some_iff.1 he).1
    have hgrown : (live.get w).size ≤ (live.get last).size := hw.leads.events_prefix.length_le
    have hnext : n + 1 ≤ total backfill live cutoff last := by
      unfold total
      omega
    rw [← pointAt_succ_of_ge hle]
    exact ⟨rfl, .goes hnext (.inr ⟨Nat.le_succ_of_le hle, rfl⟩) rfl⟩

/-- A pull of a read that stands at a point stays there, or goes to the next one. -/
theorem AtPoint.pull (hb : (backfill.get last).Reached) (hw : Precedes backfill live last w)
    (hn : n ≤ total backfill live cutoff last) (h : AtPoint backfill live cutoff last n s)
    (hpull : (storesReader backfill live cutoff).pull w s = (later, next, found)) :
    later = w ∧ Arrives backfill live cutoff last next found := by
  rcases h with ⟨hle, rfl⟩ | ⟨hle, rfl⟩
  · have hcoherent : (backfill.get w).log.Coherent := by
      rw [hw.frozen]
      exact hb.coherent
    have hboth : (storesReader backfill live cutoff).pull w
        (readBoth backfill live (pointAt (backfill.get last).size cutoff n)) = _ :=
      pull_readBoth _ hcoherent
    rw [hboth] at hpull
    cases he : (backfill.get w).log.events[(pointAt (backfill.get last).size cutoff n).backfill]? with
    | none =>
      -- the backfill has ended
      rw [he] at hpull
      rw [pointAt_of_le hle, hw.frozen, List.getElem?_eq_none_iff] at he
      exact pull_readLive_pointAt hw hn he hpull
    | some e =>
      rw [he] at hpull
      cases hpull
      rw [pointAt_of_le hle, hw.frozen] at he
      have hlt : n < (backfill.get last).size := (List.getElem?_eq_some_iff.1 he).1
      rw [← pointAt_succ_of_lt hlt]
      exact ⟨rfl, .goes (Nat.le_trans hlt (Nat.le_add_right _ _)) (.inl ⟨hlt, rfl⟩) rfl⟩
  · exact pull_readLive_pointAt hw hn hle hpull

/-- A read that stands at a point meets points only. -/
theorem AtPoint.emits (hb : (backfill.get last).Reached) {s : (storesReader backfill live cutoff).Cursor}
    {events : List (Placed LogPosition)}
    (hemits : (storesReader backfill live cutoff).Emits (Grows backfill live last) w s events)
    (hw : Precedes backfill live last w) (hn : n ≤ total backfill live cutoff last)
    (h : AtPoint backfill live cutoff last n s) {e : Placed LogPosition} (he : e ∈ events) :
    ∃ m ≤ total backfill live cutoff last, e.position = pointAt (backfill.get last).size cutoff m := by
  induction hemits generalizing n with
  | nil w s => exact absurd he List.not_mem_nil
  | change hchange _ ih => exact ih hchange.2 hn h he
  | pull hpull _ ih =>
    obtain ⟨rfl, m, hm, hat, hposition⟩ := h.pull hb hw hn hpull
    rcases List.mem_append.1 he with he | he
    · exact ⟨m, hm, hposition e he⟩
    · exact ih hw hm hat he

/-- A read that is opened at a point stands there. -/
theorem AtPoint.opened (hopen : (storesReader backfill live cutoff).forwardsFrom w
      (pointAt (backfill.get last).size cutoff n) = .ok s) : AtPoint backfill live cutoff last n s := by
  by_cases hle : n ≤ (backfill.get last).size
  · rw [forwardsFrom_of_cutoff (pointAt_live_eq_iff.2 hle)] at hopen
    exact .inl ⟨hle, (Except.ok.inj hopen).symm⟩
  · rw [forwardsFrom_of_ne (mt pointAt_live_eq_iff.1 hle)] at hopen
    exact .inr ⟨Nat.le_of_not_le hle, (Except.ok.inj hopen).symm⟩

/-- The position of the last event of a log is the number of its events. -/
theorem lastReached_of_coherent {log : Log} (h : log.Coherent) : lastReached 0 log.events = log.events.length := by
  unfold lastReached
  rw [List.getLast?_eq_getElem?]
  rcases Nat.eq_zero_or_pos log.events.length with hzero | hpos
  · rw [List.eq_nil_of_length_eq_zero hzero]
    rfl
  · have hlt : log.events.length - 1 < log.events.length := Nat.sub_lt hpos Nat.one_pos
    rw [List.getElem?_eq_getElem hlt, Option.map_some, Option.getD_some, h.position_getElem hlt]
    exact Nat.sub_add_cancel hpos

/-- The live component of a point behind the backfill is a position of the live store. -/
theorem pointAt_live_le (hn : n ≤ total backfill live cutoff last) (h : (backfill.get last).size < n) :
    (pointAt (backfill.get last).size cutoff n).live ≤ (live.get last).size := by
  unfold total at hn
  show cutoff + (n - (backfill.get last).size) ≤ _
  omega

/-- Whatever position a consumer comes to is a point. -/
theorem Reaches.exists_pointAt (hb : (backfill.get last).Reached)
    (hls : (live.get last).size < Numeral.wordLimit) {p : LogPosition}
    (h : Reaches backfill live cutoff last p) :
    ∃ n ≤ total backfill live cutoff last, p = pointAt (backfill.get last).size cutoff n := by
  induction h with
  | empty => exact ⟨0, Nat.zero_le _, (pointAt_of_le (Nat.zero_le _)).symm⟩
  | read hw _ hopen hemits he ih =>
    obtain ⟨n, hn, rfl⟩ := ih
    exact (AtPoint.opened hopen).emits hb hemits hw hn he
  | @plain p q _ hlive hread ih =>
    obtain ⟨n, hn, rfl⟩ := ih
    have hlt : (backfill.get last).size < n := Nat.lt_of_not_le (mt pointAt_live_eq_iff.2 hlive)
    have hword := Nat.lt_of_le_of_lt (pointAt_live_le hn hlt) hls
    have hplain : (leavingCodec backfill live cutoff last).deserialize
        (PositionCodec.log.serialize (pointAt (backfill.get last).size cutoff n).live) = _ :=
      PositionCodec.expanding_deserialize_plain (PositionCodec.exact_log hword)
    cases hplain.symm.trans hread
    refine ⟨n, hn, ?_⟩
    rw [pointAt_of_ge (Nat.le_of_lt hlt)]
    exact congrArg (StitchedPosition.mk · _) (lastReached_of_coherent hb.coherent)

/-- The last codec accepts both texts of a point behind the backfill. -/
theorem deserialize_migrating_pointAt (hbs : (backfill.get last).size < Numeral.wordLimit)
    (hls : (live.get last).size < Numeral.wordLimit) (hn : n ≤ total backfill live cutoff last)
    (hlive : (pointAt (backfill.get last).size cutoff n).live ≠ cutoff) {text : String}
    (ht : text = (PositionCodec.stitched .log .log).serialize (pointAt (backfill.get last).size cutoff n) ∨
      text = PositionCodec.log.serialize (pointAt (backfill.get last).size cutoff n).live) :
    (PositionCodec.migrating .log cutoff).deserialize text =
      .ok (pointAt (backfill.get last).size cutoff n).live := by
  have hlt : (backfill.get last).size < n := Nat.lt_of_not_le (mt pointAt_live_eq_iff.2 hlive)
  have hword : PositionCodec.log.Exact (pointAt (backfill.get last).size cutoff n).live :=
    PositionCodec.exact_log (Nat.lt_of_le_of_lt (pointAt_live_le hn hlt) hls)
  have hold : PositionCodec.log.Exact (pointAt (backfill.get last).size cutoff n).backfill :=
    PositionCodec.exact_log (Nat.lt_of_le_of_lt (Nat.min_le_right _ _) hbs)
  rcases ht with rfl | rfl
  · exact (PositionCodec.migrating_deserialize_joined hold hword).trans (if_neg hlive)
  · exact PositionCodec.migrating_deserialize_plain hword

/-- The positions of the events behind a number of others follow that number. -/
theorem map_position_drop {log : Log} (h : log.Coherent) (passed : Nat) :
    (log.events.drop passed).map (·.position) =
      (List.range (log.events.length - passed)).map (passed + · + 1) := by
  refine List.ext_getElem (by simp) fun i hi _ => ?_
  rw [List.length_map, List.length_drop] at hi
  rw [List.getElem_map, List.getElem_drop, h.position_getElem (by omega), List.getElem_map, List.getElem_range]

/-- The positions of events that were moved are those of the events, moved. -/
theorem map_position_mapped (f : Nat → LogPosition) (events : List (Placed Nat)) :
    (events.map (Placed.mapPosition f)).map (·.position) = (events.map (·.position)).map f := by
  rw [List.map_map, List.map_map]
  rfl

variable (backfill live cutoff last) in
/-- The positions that a consumer meets who reads a stitched source in the last world from its start, with the
one where it starts. -/
def points : List LogPosition :=
  ⟨0, cutoff⟩ :: (eventsAfter (backfill.get last).log (live.get last).log cutoff ⟨0, cutoff⟩).map (·.position)

/-- The points are met in their order. -/
theorem points_eq (hb : (backfill.get last).Reached) (hl : (live.get last).Reached) :
    points backfill live cutoff last =
      (List.range (total backfill live cutoff last + 1)).map (pointAt (backfill.get last).size cutoff) := by
  have hold : ((backfill.get last).log.events.map (·.position)).map (StitchedPosition.mk · cutoff) =
      ((List.range (backfill.get last).size).map (· + 1)).map (pointAt (backfill.get last).size cutoff) := by
    have hpositions := map_position_drop hb.coherent 0
    rw [List.drop_zero, Nat.sub_zero] at hpositions
    rw [hpositions, List.map_map, List.map_map]
    refine List.map_congr_left fun i hi => ?_
    have hlt : i + 1 ≤ (backfill.get last).size := List.mem_range.1 hi
    show StitchedPosition.mk (0 + i + 1) cutoff = pointAt _ _ (i + 1)
    rw [pointAt_of_le hlt, Nat.zero_add]
  have hnew : (((live.get last).log.events.drop cutoff).map (·.position)).map
        (StitchedPosition.mk (backfill.get last).size ·) =
      ((List.range ((live.get last).size - cutoff)).map ((backfill.get last).size + · + 1)).map
        (pointAt (backfill.get last).size cutoff) := by
    rw [map_position_drop hl.coherent, List.map_map, List.map_map]
    refine List.map_congr_left fun i _ => ?_
    show StitchedPosition.mk _ (cutoff + i + 1) = pointAt _ _ ((backfill.get last).size + i + 1)
    rw [pointAt_of_ge (by omega), Nat.add_assoc (backfill.get last).size, Nat.add_sub_cancel_left, Nat.add_assoc]
  have hrange : List.range (total backfill live cutoff last + 1) =
      0 :: ((List.range (backfill.get last).size).map (· + 1) ++
        (List.range ((live.get last).size - cutoff)).map ((backfill.get last).size + · + 1)) := by
    unfold total
    rw [List.range_succ_eq_map, List.range_add, List.map_append, List.map_map]
    rfl
  unfold points eventsAfter
  rw [if_pos rfl]
  unfold bothAfter liveAfter
  rw [List.map_append, map_position_mapped, map_position_mapped, List.drop_zero, hrange, List.map_cons,
    List.map_append, pointAt_of_le (Nat.zero_le _)]
  dsimp only
  rw [Nat.zero_max, hold]
  exact congrArg (_ :: ·) (congrArg (_ ++ ·) hnew)

/-- No point is met twice. -/
theorem nodup_points (hb : (backfill.get last).Reached) (hl : (live.get last).Reached) :
    (points backfill live cutoff last).Nodup := by
  rw [points_eq hb hl]
  exact List.Nodup.map pointAt_injective List.nodup_range

/-- The point that is met after a number of others. -/
theorem points_getElem? (hb : (backfill.get last).Reached) (hl : (live.get last).Reached)
    (hn : n ≤ total backfill live cutoff last) :
    (points backfill live cutoff last)[n]? = some (pointAt (backfill.get last).size cutoff n) := by
  rw [points_eq hb hl, List.getElem?_map, List.getElem?_range (Nat.lt_succ_of_le hn)]
  rfl

/-- A consumer comes to every point. -/
theorem reaches_of_mem_points (hb : (backfill.get last).Reached) (hl : (live.get last).Reached) {p : LogPosition}
    (h : p ∈ points backfill live cutoff last) : Reaches backfill live cutoff last p := by
  rcases List.mem_cons.1 h with rfl | h
  · exact .empty
  · obtain ⟨e, he, rfl⟩ := List.mem_map.1 h
    have hyields : (storesReader backfill live cutoff).Yields last ⟨0, cutoff⟩ _ :=
      yields_eventsAfter ⟨0, cutoff⟩ hb.coherent hl.coherent
    obtain ⟨s, hopen, hemits⟩ := hyields.emits (Grows backfill live last)
    exact .read ⟨rfl, hl, .same⟩ .empty hopen hemits he

/-- The positions that a consumer of two stitched stores may come to, until some last world, are the points of
the source: those that a read from the start meets, each once, with the one where it starts. All three codecs
order them as they are met. The stitched codec orders any two. The one of consumers that are to leave does so,
too, unless both are at the cutoff, which it refuses. The one of consumers that left accepts every text of a
point that is not at the cutoff, and orders these as the others do. -/
theorem codecs_order_points (hb : (backfill.get last).Reached) (hl : (live.get last).Reached)
    (hbs : (backfill.get last).size < Numeral.wordLimit) (hls : (live.get last).size < Numeral.wordLimit)
    (cutoff : Nat) :
    let reader := storesReader backfill live cutoff
    let leaving := leavingCodec backfill live cutoff last
    let migrating := PositionCodec.migrating (Store.eventReader live).codec cutoff
    ∃ events, reader.Yields last reader.emptyPosition events ∧
      let met := reader.emptyPosition :: events.map (·.position)
      met.Nodup ∧ (∀ p, Reaches backfill live cutoff last p ↔ p ∈ met) ∧
      ∀ p q, Reaches backfill live cutoff last p → Reaches backfill live cutoff last q →
        ∃ i j : Nat, met[i]? = some p ∧ met[j]? = some q ∧
          reader.codec.order p q = .ok (compare i j) ∧ (reader.codec.order p q = .ok .eq ↔ p = q) ∧
          (leaving.order p q = if p.live = cutoff ∧ q.live = cutoff then
              .error (.unsupportedOperation "Cannot compare two positions in backfill")
            else .ok (compare i j)) ∧
          (p.live ≠ cutoff → q.live ≠ cutoff → ∀ s t,
            (s = reader.codec.serialize p ∨ s = (Store.eventReader live).codec.serialize p.live) →
            (t = reader.codec.serialize q ∨ t = (Store.eventReader live).codec.serialize q.live) →
            ∃ x y, migrating.deserialize s = .ok x ∧ migrating.deserialize t = .ok y ∧
              migrating.order x y = .ok (compare i j)) := by
  intro reader leaving migrating
  refine ⟨_, yields_eventsAfter ⟨0, cutoff⟩ hb.coherent hl.coherent, nodup_points hb hl, fun p => ⟨?_, ?_⟩, ?_⟩
  · intro h
    obtain ⟨n, hn, rfl⟩ := h.exists_pointAt hb hls
    exact List.mem_of_getElem? (points_getElem? hb hl hn)
  · exact reaches_of_mem_points hb hl
  · intro p q hp hq
    obtain ⟨m, hm, rfl⟩ := hp.exists_pointAt hb hls
    obtain ⟨n, hn, rfl⟩ := hq.exists_pointAt hb hls
    refine ⟨m, n, points_getElem? hb hl hm, points_getElem? hb hl hn, order_pointAt m n,
      (PositionCodec.Total.stitched .log .log).eq_iff _ _, order_expanding_pointAt _ m n, ?_⟩
    intro hplive hqlive s t hs ht
    refine ⟨_, _, deserialize_migrating_pointAt hbs hls hm hplive hs,
      deserialize_migrating_pointAt hbs hls hn hqlive ht, ?_⟩
    have hboth : ¬ (m ≤ (backfill.get last).size ∧ n ≤ (backfill.get last).size) := fun h =>
      hplive (pointAt_live_eq_iff.2 h.1)
    exact congrArg Except.ok (compare_live_pointAt hboth)

/-- One consumer kept the text of a live event that it met in the stitched source, another the live text of a
later one, a third stopped in the backfill. -/
theorem codecs_order_points_kept :
    let orders : StreamId := ⟨"orders", "1", by decide⟩
    let placed : NewEvent := ⟨"Placed", [1], []⟩
    let empty := Store.withClock fun _ => .epoch
    let w : Sources := ⟨empty.append orders [placed, placed], empty.append orders [placed, placed, placed]⟩
    let reader := storesReader Sources.backfillPlace Sources.livePlace 1
    let leaving := leavingCodec Sources.backfillPlace Sources.livePlace 1 w
    let migrating := PositionCodec.migrating .log 1
    let reaches := Reaches Sources.backfillPlace Sources.livePlace 1 w
    w.backfill.Reached ∧ w.live.Reached ∧ w.backfill.size < Numeral.wordLimit ∧
      w.live.size < Numeral.wordLimit ∧ reaches ⟨1, 1⟩ ∧ reaches ⟨2, 2⟩ ∧ reaches ⟨2, 3⟩ ∧
      reader.codec.order ⟨2, 2⟩ ⟨2, 3⟩ = .ok .lt ∧ leaving.order ⟨2, 2⟩ ⟨2, 3⟩ = .ok .lt ∧
      leaving.order ⟨1, 1⟩ ⟨1, 1⟩ = .error (.unsupportedOperation "Cannot compare two positions in backfill") ∧
      ∃ x y, migrating.deserialize "2~~~2" = .ok x ∧ migrating.deserialize "3" = .ok y ∧
        migrating.order x y = .ok .lt := by
  intro orders placed empty w reader leaving migrating reaches
  have hempty : empty.Reached := .start _
  have hb : (Sources.backfillPlace.get w).Reached := hempty.append _ _
  have hl : (Sources.livePlace.get w).Reached := hempty.append _ _
  have hbs : (Sources.backfillPlace.get w).size < Numeral.wordLimit := by decide
  have hls : (Sources.livePlace.get w).size < Numeral.wordLimit := by decide
  obtain ⟨events, hyields, -, hmet, hall⟩ := codecs_order_points hb hl hbs hls 1
  obtain rfl := hyields.unique (yields_eventsAfter ⟨0, 1⟩ hb.coherent hl.coherent)
  have hstopped : reaches ⟨1, 1⟩ := (hmet _).2 (by decide +kernel)
  have hstitched : reaches ⟨2, 2⟩ := (hmet _).2 (by decide +kernel)
  have hlater : reaches ⟨2, 3⟩ := (hmet _).2 (by decide +kernel)
  obtain ⟨i, j, -, -, horder, -, hleaving, htexts⟩ := hall _ _ hstitched hlater
  have hlt : compare i j = .lt := (Except.ok.inj horder).symm
  rw [hlt] at horder hleaving htexts
  obtain ⟨_, _, _, _, _, _, hrefused, _⟩ := hall _ _ hstopped hstopped
  exact ⟨hb, hl, hbs, hls, hstopped, hstitched, hlater, horder, hleaving, hrefused,
    htexts (by decide) (by decide) _ _ (.inl (by decide +kernel)) (.inr (by decide +kernel))⟩

end Reading

end Chronicle.Stitch
