import Chronicle.Proofs.Narrow.Keeping
import Chronicle.Proofs.Stitch.Relaying
import Chronicle.Proofs.Stitch.Resuming
import Chronicle.Proofs.Store.Remaining

/-!
# Category reads of stitched sources

A stitched source is read as one log or by category, and a consumer may go from one to the other with the
position that it kept. The two reads give a live event different positions if the last event of the backfill
is of another category: each names the last event of the backfill that it met itself. Behind the backfill that
component is not looked at any more, so both resume at the same place.

A read of a store hands out a list, event by event, and so does a spliced read of two such reads. What is said
of both ways of reading follows from the two lists.
-/

namespace Chronicle

section HandingOut

variable {W P : Type} {reader : EventReader W P} {left : W → reader.Cursor → List (Placed P)} {w : W}
  {position : P} {c : reader.Cursor}

/-- A source whose reads hand out lists yields them. -/
theorem EventReader.yields_of_handsOut (h : reader.HandsOut left)
    (hopen : reader.forwardsFrom w position = .ok c) : reader.Yields w position (left w c) :=
  ⟨c, hopen, h.take_eq w c⟩

/-- A source that is narrowed yields the events that are kept. -/
theorem EventReader.filtering_yields_of_handsOut (h : reader.HandsOut left)
    (hopen : reader.forwardsFrom w position = .ok c) (keep : Placed P → Bool) :
    (reader.filtering keep).Yields w position ((left w c).filter keep) := by
  refine ⟨c, hopen, fun limit => ?_⟩
  rw [List.map_take]
  exact ((h.forecast_keeping keep w).of_take rfl rfl).1

end HandingOut

namespace Stitch

section Splicing

variable {W B L : Type} {backfill : Reads W B} {live : Reads W L}
  {leftOld : W → backfill.Cursor → List (Placed B)} {leftNew : W → live.Cursor → List (Placed L)}

variable (leftOld leftNew) in
/-- What a spliced read has yet to yield: what is left of the backfill, and then of the live side. -/
def leftBoth (w : W) (s : Splice backfill.Cursor live.Cursor B L) : List (Placed (StitchedPosition B L)) :=
  spliced s.reached (s.backfill.elim [] (leftOld w)) (leftNew w s.live)

/-- A spliced read of two that hand out lists hands out both. -/
theorem splice_handsOut (hb : backfill.HandsOut leftOld) (hl : live.HandsOut leftNew)
    (hclose : ∀ w c, backfill.close w c = w) :
    (Splice.reads backfill live).HandsOut (leftBoth leftOld leftNew) := by
  have hlive : ∀ w d (reached : StitchedPosition B L),
      ∃ next, (Splice.reads backfill live).pull w (Splice.mk none d reached) =
          (w, next, (leftBoth leftOld leftNew w (Splice.mk none d reached)).head?.elim .finished .event) ∧
        leftBoth leftOld leftNew w next = (leftBoth leftOld leftNew w (Splice.mk none d reached)).tail := by
    intro w d reached
    obtain ⟨next, hpull, hleft⟩ := hl.pull w d
    rw [pull_live, hpull]
    unfold leftBoth
    cases hlist : leftNew w d with
    | nil =>
      rw [hlist] at hleft
      refine ⟨_, rfl, ?_⟩
      show spliced _ [] (leftNew w next) = _
      rw [hleft]
      rfl
    | cons e rest =>
      rw [hlist] at hleft
      refine ⟨_, rfl, ?_⟩
      show spliced _ [] (leftNew w next) = _
      rw [hleft]
      rfl
  refine ⟨?_, ?_⟩
  · rintro w ⟨_ | c, d, reached⟩
    · exact hlive w d reached
    · obtain ⟨next, hpull, hleft⟩ := hb.pull w c
      unfold leftBoth
      cases hlist : leftOld w c with
      | nil =>
        rw [hlist] at hpull
        obtain ⟨s, hs, hrest⟩ := hlive w d reached
        have hturn := pull_turn d reached hpull
        rw [hclose] at hturn
        rw [Option.elim_some, hlist]
        exact ⟨s, hturn.trans hs, hrest⟩
      | cons e rest =>
        rw [hlist] at hpull hleft
        have hold := pull_old (w := w) (c := c) d reached (by rw [hpull]; exact nofun)
        rw [hpull] at hold
        rw [Option.elim_some, hlist, spliced_cons]
        refine ⟨_, hold, ?_⟩
        show spliced _ (leftOld w next) _ = _
        rw [hleft]
        rfl
  · rintro w ⟨old, d, reached⟩
    show (spliced reached (old.elim [] (leftOld w)) (leftNew w d)).length ≤
      old.elim 0 (backfill.extent w) + live.extent w d
    unfold spliced
    rw [List.length_append, List.length_map, List.length_map]
    refine Nat.add_le_add ?_ (hl.length_le w d)
    cases old with
    | none => exact Nat.le_refl _
    | some c => exact hb.length_le w c

/-- What stands behind an event of a spliced list is spliced from what stands behind it on its side. Behind a
live event nothing of the backfill is left. -/
theorem spliced_suffix {start : StitchedPosition B L} {old : List (Placed B)} {new : List (Placed L)}
    {xs ys : List (Placed (StitchedPosition B L))} {e : Placed (StitchedPosition B L)}
    (h : spliced start old new = xs ++ e :: ys) :
    (∃ us x vs, old = us ++ x :: vs ∧ e.position = ⟨x.position, start.live⟩ ∧
        ys = spliced e.position vs new) ∨
      ∃ us x vs, new = us ++ x :: vs ∧ e.position.live = x.position ∧ ys = spliced e.position [] vs := by
  induction old generalizing start xs with
  | nil =>
    obtain ⟨us, rest, hnew, -, hrest⟩ := List.map_eq_append_iff.1 h
    obtain ⟨x, vs, rfl, rfl, rfl⟩ := List.map_eq_cons_iff.1 hrest
    exact .inr ⟨us, x, vs, hnew, rfl, rfl⟩
  | cons first old ih =>
    rw [spliced_cons] at h
    cases xs with
    | nil =>
      obtain ⟨rfl, rfl⟩ := List.cons.inj h
      exact .inl ⟨[], first, old, rfl, rfl, rfl⟩
    | cons x xs =>
      rcases ih (List.cons.inj h).2 with ⟨us, x, vs, rfl, hposition, hys⟩ | hlive
      · exact .inl ⟨first :: us, x, vs, rfl, hposition, hys⟩
      · exact .inr hlive

end Splicing

section Selections

variable (selection : Log.Selection) (backfill live : Log) (cutoff : Nat)

/-- The selected events after a position in two logs that are stitched together. -/
def selectedAfter (p : LogPosition) : List (Placed LogPosition) :=
  spliced p (if p.live = cutoff then Log.selected selection (backfill.events.drop p.backfill) else [])
    (Log.selected selection (live.events.drop p.live))

variable {selection backfill live cutoff} {p : LogPosition}

/-- What follows a selected event of a log is what is selected after its position. -/
theorem selected_suffix {log : Log} (h : log.Coherent) {passed : Nat} {xs ys : List (Placed Nat)}
    {e : Placed Nat} (hsplit : Log.selected selection (log.events.drop passed) = xs ++ e :: ys) :
    ys = Log.selected selection (log.events.drop e.position) ∧ passed < e.position := by
  obtain ⟨us, rest, hdrop, -, hrest⟩ := List.filter_eq_append_iff.1 hsplit
  obtain ⟨vs, zs, rfl, -, -, rfl⟩ := List.filter_eq_cons_iff.1 hrest
  have hat : log.events[passed + (us ++ vs).length]? = some e := by
    rw [← List.getElem?_drop, hdrop, ← List.append_assoc, List.getElem?_append_right (Nat.le_refl _),
      Nat.sub_self]
    rfl
  obtain ⟨hlt, rfl⟩ := List.getElem?_eq_some_iff.1 hat
  rw [h.position_getElem hlt]
  refine ⟨?_, by omega⟩
  have hbehind : log.events.drop (passed + ((us ++ vs).length + 1)) = zs := by
    rw [← List.drop_drop, hdrop, ← List.append_assoc, List.append_cons]
    exact List.drop_left' List.length_append
  rw [Nat.add_assoc, hbehind]
  rfl

/-- What follows a selected event is what is selected after its position, if the live component is not below
the cutoff. -/
theorem selectedAfter_suffix (hb : backfill.Coherent) (hl : live.Coherent) (hp : cutoff ≤ p.live)
    {xs ys : List (Placed LogPosition)} {e : Placed LogPosition}
    (h : selectedAfter selection backfill live cutoff p = xs ++ e :: ys) :
    ys = selectedAfter selection backfill live cutoff e.position := by
  unfold selectedAfter at h ⊢
  rcases spliced_suffix h with ⟨us, x, vs, hold, hposition, hys⟩ | ⟨us, x, vs, hnew, hposition, hys⟩
  · by_cases hcut : p.live = cutoff
    · rw [if_pos hcut] at hold
      obtain ⟨hvs, -⟩ := selected_suffix hb hold
      rw [hys, hposition, if_pos hcut, hvs]
    · rw [if_neg hcut] at hold
      exact absurd hold.symm (List.append_ne_nil_of_right_ne_nil _ (List.cons_ne_nil _ _))
  · obtain ⟨hvs, hlt⟩ := selected_suffix hl hnew
    rw [hys, hposition, if_neg (Nat.ne_of_gt (Nat.lt_of_le_of_lt hp hlt)), hvs]

/-- What identifies an event behind the backfill: its record and its live position. -/
def livePart (e : Placed LogPosition) : EventRecord × Nat := (e.record, e.position.live)

/-- The parts of a spliced list: every event of the backfill is at the live position of the start. -/
theorem map_livePart_spliced (start : LogPosition) (old new : List (Placed Nat)) :
    (spliced start old new).map livePart =
      old.map (fun e => (e.record, start.live)) ++ new.map fun e => (e.record, e.position) := by
  unfold spliced
  rw [List.map_append, List.map_map, List.map_map]
  rfl

/-- The events of a category after a position are those of all events after it that are in the category, but
for the backfill component of the live ones. -/
theorem map_livePart_selectedAfter (category : String) :
    (selectedAfter (.category category) backfill live cutoff p).map livePart =
      ((selectedAfter .all backfill live cutoff p).filter
        (fun e => e.record.stream.category = category)).map livePart := by
  have hall : ∀ events : List (Placed Nat), Log.selected .all events = events := fun events =>
    List.filter_eq_self.2 fun _ _ => rfl
  -- whether an event is kept shows from its part
  have hparts : ∀ events : List (Placed LogPosition),
      (events.filter (fun e => e.record.stream.category = category)).map livePart =
        (events.map livePart).filter fun part => part.1.stream.category = category := by
    intro events
    rw [List.filter_map]
    rfl
  unfold selectedAfter
  rw [hparts, map_livePart_spliced, map_livePart_spliced, List.filter_append, List.filter_map, List.filter_map,
    hall, hall]
  split <;> rfl

end Selections

section Reading

variable {W : Type} {backfill live : Place W Store} {cutoff : Nat} {w : W}

/-- The reads of two stitched stores hand out what is left of both logs. -/
theorem reads_handsOut : (Splice.reads (Store.reads backfill) (Store.reads live)).HandsOut
    (leftBoth (fun w c => (backfill.get w).log.left c) (fun w c => (live.get w).log.left c)) :=
  splice_handsOut (Store.reads_handsOut backfill) (Store.reads_handsOut live) fun _ _ => rfl

/-- A read of a selection is opened where all that is selected after the position is left. -/
theorem start_selected (selection : Log.Selection) (p : LogPosition) :
    ∃ s, Splice.start (Store.reads backfill) (Store.reads live) cutoff w p
        (fun _ position => .ok (Log.readAfter position selection))
        (fun _ position => .ok (Log.readAfter position selection)) = .ok s ∧
      leftBoth (fun w c => (backfill.get w).log.left c) (fun w c => (live.get w).log.left c) w s =
        selectedAfter selection (backfill.get w).log (live.get w).log cutoff p := by
  unfold selectedAfter
  by_cases hcut : p.live = cutoff
  · rw [if_pos hcut]
    exact ⟨_, Splice.start_of_cutoff hcut, rfl⟩
  · rw [if_neg hcut]
    exact ⟨_, Splice.start_elsewhere hcut, rfl⟩

variable (cutoff) in
/-- Two stores of a world, stitched together, as one log and by category. -/
abbrev storesSource (backfill live : Place W Store) : Source W LogPosition :=
  .stitched ⟨Store.eventReader backfill, Store.categoryReader backfill⟩
    ⟨Store.eventReader live, Store.categoryReader live⟩ cutoff

/-- A category read from a position yields the selected events after it. -/
theorem category_yields (category : String) (p : LogPosition) :
    ((storesSource cutoff backfill live).categories.asSource category).Yields w p
      (selectedAfter (.category category) (backfill.get w).log (live.get w).log cutoff p) := by
  obtain ⟨s, hopen, hleft⟩ := start_selected (.category category) p
  rw [← hleft]
  exact EventReader.yields_of_handsOut reads_handsOut hopen

/-- A read of the whole source from a position yields all events after it. -/
theorem store_yields (p : LogPosition) :
    (storesSource cutoff backfill live).events.Yields w p
      (selectedAfter .all (backfill.get w).log (live.get w).log cutoff p) := by
  obtain ⟨s, hopen, hleft⟩ := start_selected .all p
  rw [← hleft]
  exact EventReader.yields_of_handsOut reads_handsOut hopen

/-- A read of the whole source that is narrowed to a category yields those of all events after a position that
are in it. -/
theorem narrowed_yields (category : String) (p : LogPosition) :
    ((storesSource cutoff backfill live).events.inCategories [category]).Yields w p
      ((selectedAfter .all (backfill.get w).log (live.get w).log cutoff p).filter
        (fun e => e.record.stream.category = category)) := by
  obtain ⟨s, hopen, hleft⟩ := start_selected .all p
  have hset : categorySet [category] = [category] := by
    unfold categorySet
    rw [List.mergeSort_singleton]
    rfl
  have hkeep : (fun e : Placed LogPosition => (categorySet [category]).contains e.record.stream.category) =
      fun e => decide (e.record.stream.category = category) := by
    rw [hset]
    funext e
    simp
  unfold EventReader.inCategories
  rw [← hleft, hkeep]
  exact EventReader.filtering_yields_of_handsOut reads_handsOut hopen _

/-- From a position whose live component is not below the cutoff, a category read of two stitched stores and a
read of the whole source that is narrowed to the category yield the same records in the same order, at the same
live positions. From the position of any event of the category read, that read yields exactly the events behind
it, and the narrowed one their records, again at the same live positions. What is stitched as a category alone
yields at every position what the category read of the whole source does. -/
theorem category_reads_interchange (hb : (backfill.get w).Reached) (hl : (live.get w).Reached) (cutoff : Nat)
    (category : String) (p : LogPosition) (hp : cutoff ≤ p.live) :
    let source := storesSource cutoff backfill live
    let alone := CategoryReader.stitched (Store.categoryReader backfill) (Store.categoryReader live) cutoff
    let within (events : List (Placed LogPosition)) := events.filter fun e => e.record.stream.category = category
    ∃ events all, (source.categories.asSource category).Yields w p events ∧ source.events.Yields w p all ∧
      (source.events.inCategories [category]).Yields w p (within all) ∧
      events.map livePart = (within all).map livePart ∧
      (∀ xs e ys, events = xs ++ e :: ys →
        (source.categories.asSource category).Yields w e.position ys ∧
          ∃ rest, source.events.Yields w e.position rest ∧
            (source.events.inCategories [category]).Yields w e.position (within rest) ∧
            ys.map livePart = (within rest).map livePart) ∧
      ∀ q events, (alone.asSource category).Yields w q events ↔
        (source.categories.asSource category).Yields w q events := by
  intro source alone within
  refine ⟨_, _, category_yields category p, store_yields p, narrowed_yields category p,
    map_livePart_selectedAfter category, fun xs e ys h => ?_, fun _ _ => Iff.rfl⟩
  have hys := selectedAfter_suffix hb.coherent hl.coherent hp h
  subst hys
  exact ⟨category_yields category e.position, _, store_yields e.position, narrowed_yields category e.position,
    map_livePart_selectedAfter category⟩

/-- The last event of the backfill is of another category, so the two reads give the live event different
positions. Both can be resumed in the backfill. -/
theorem category_reads_interchange_past_other :
    let orders : StreamId := ⟨"orders", "1", by decide⟩
    let users : StreamId := ⟨"users", "1", by decide⟩
    let empty := Store.withClock fun _ => .epoch
    let w : Sources := ⟨(empty.append orders [⟨"Placed", [1], []⟩]).append users [⟨"Joined", [2], []⟩],
      empty.append orders [⟨"Copied", [1], []⟩, ⟨"Paid", [3], []⟩]⟩
    let source := storesSource 1 Sources.backfillPlace Sources.livePlace
    let category := source.categories.asSource "orders"
    let narrowed := source.events.inCategories ["orders"]
    w.backfill.Reached ∧ w.live.Reached ∧ ∃ events others, category.Yields w ⟨0, 1⟩ events ∧
      narrowed.Yields w ⟨0, 1⟩ others ∧ events.map livePart = others.map livePart ∧
        events.map (·.position) = [⟨1, 1⟩, ⟨1, 2⟩] ∧ others.map (·.position) = [⟨1, 1⟩, ⟨2, 2⟩] ∧
          category.Yields w ⟨1, 1⟩ events.tail ∧ ∃ rest, narrowed.Yields w ⟨1, 1⟩ rest ∧
            events.tail.map livePart = rest.map livePart := by
  intro orders users empty w source category narrowed
  have hempty : empty.Reached := .start _
  have hb : (Sources.backfillPlace.get w).Reached := (hempty.append _ _).append _ _
  have hl : (Sources.livePlace.get w).Reached := hempty.append _ _
  obtain ⟨events, all, hevents, hall, hnarrowed, hparts, hresume, -⟩ :=
    category_reads_interchange hb hl 1 "orders" ⟨0, 1⟩ (Nat.le_refl 1)
  obtain rfl := hevents.unique (category_yields "orders" ⟨0, 1⟩)
  obtain rfl := hall.unique (store_yields ⟨0, 1⟩)
  obtain ⟨htail, rest, -, hrest, hsame⟩ := hresume [] _ _ rfl
  exact ⟨hb, hl, _, _, hevents, hnarrowed, hparts, by decide +kernel, by decide +kernel, htail, _, hrest, hsame⟩

end Reading

end Stitch

end Chronicle
