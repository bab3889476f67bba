import Chronicle.Narrow.Category
import Chronicle.Proofs.Access.Apart
import Chronicle.Proofs.Stitch.Order

/-!
# What a spliced read relays

A spliced read answers what its backfill answers up to the first end, and from then on what its live side
answers. A failure is an answer like any other: it stands in its place, it has no position, and the read goes
on where it was. What is said here holds of any two sources, whatever their pulls do to the world. It is
said first of what a read finds, skips passed over, and then of what it returns, if its pulls suffice.
-/

namespace Chronicle

section Mapping

variable {P Q : Type} (f : P → Q)

/-- What was found, at a position of another kind. -/
def Found.mapPosition : Found P → Found Q
  | .event e => .event (e.mapPosition f)
  | .failure e => .failure e
  | .skipped => .skipped
  | .finished => .finished

/-- A result at a position of another kind. A failure has no position. -/
def Item.mapPosition (item : Item P) : Item Q := item.map (Placed.mapPosition f)

/-- The result that was found is moved with it. -/
theorem Found.item?_mapPosition (found : Found P) :
    (found.mapPosition f).item? = found.item?.map (Item.mapPosition f) := by
  cases found <;> rfl

/-- A skip is a skip at positions of any kind. -/
theorem Found.mapPosition_eq_skipped_iff {found : Found P} :
    found.mapPosition f = .skipped ↔ found = .skipped := by
  cases found with
  | skipped => exact ⟨fun _ => rfl, fun _ => rfl⟩
  | _ => exact ⟨nofun, nofun⟩

/-- A result is no end. -/
theorem Found.ne_finished_of_item {found : Found P} {item : Item P} (h : found.item? = some item) :
    found ≠ .finished := by
  rintro rfl
  nomatch h

end Mapping

namespace Stitch

variable {W B L : Type}

section Finding

variable {backfill : Reads W B} {live : Reads W L}

/-- The position that a spliced read has reached when its backfill has found something. -/
def passOld (reached : StitchedPosition B L) : Found B → StitchedPosition B L
  | .event e => ⟨e.position, reached.live⟩
  | _ => reached

/-- The position that a spliced read has reached when its live side has found something. -/
def passNew (reached : StitchedPosition B L) : Found L → StitchedPosition B L
  | .event e => ⟨reached.backfill, e.position⟩
  | _ => reached

/-- The live side moves no backfill component. -/
theorem passNew_backfill (reached : StitchedPosition B L) (found : Found L) :
    (passNew reached found).backfill = reached.backfill := by
  cases found <;> rfl

variable {w later world : W} {c ended : backfill.Cursor} {d next : live.Cursor}
  {reached : StitchedPosition B L}

/-- A pull of a read whose backfill is done is a pull of the live side. -/
theorem pull_live (w : W) (d : live.Cursor) (reached : StitchedPosition B L) :
    (Splice.reads backfill live).pull w (Splice.mk none d reached) =
      ((live.pull w d).1, Splice.mk none (live.pull w d).2.1 (passNew reached (live.pull w d).2.2),
        (live.pull w d).2.2.mapPosition (⟨reached.backfill, ·⟩)) := by
  show Splice.pullLive backfill live w d reached = _
  unfold Splice.pullLive
  rcases live.pull w d with ⟨later, next, found⟩
  cases found <;> rfl

/-- A pull of a read with both sides is a pull of the backfill, as long as that has not ended. -/
theorem pull_old (d : live.Cursor) (reached : StitchedPosition B L)
    (h : (backfill.pull w c).2.2 ≠ .finished) :
    (Splice.reads backfill live).pull w (Splice.mk (some c) d reached) =
      ((backfill.pull w c).1,
        Splice.mk (some (backfill.pull w c).2.1) d (passOld reached (backfill.pull w c).2.2),
        (backfill.pull w c).2.2.mapPosition (⟨·, reached.live⟩)) := by
  show Splice.pull backfill live w ⟨some c, d, reached⟩ = _
  unfold Splice.pull
  dsimp only
  rcases hfound : backfill.pull w c with ⟨later, next, found⟩
  rw [hfound] at h
  cases found with
  | finished => exact absurd rfl h
  | _ => rfl

/-- A pull that ends the backfill gives it up, and is a pull of the live side. -/
theorem pull_turn (d : live.Cursor) (reached : StitchedPosition B L)
    (h : backfill.pull w c = (world, ended, .finished)) :
    (Splice.reads backfill live).pull w (Splice.mk (some c) d reached) =
      (Splice.reads backfill live).pull (backfill.close world ended) (Splice.mk none d reached) := by
  show Splice.pull backfill live w ⟨some c, d, reached⟩ = _
  unfold Splice.pull
  dsimp only
  rw [h]
  rfl

/-- Behind its backfill a spliced read finds what the live side finds. -/
theorem finds_live {found : Found L} (h : live.Finds w d later next found) :
    (Splice.reads backfill live).Finds w (Splice.mk none d reached) later
      (Splice.mk none next (passNew reached found)) (found.mapPosition (⟨reached.backfill, ·⟩)) := by
  induction h with
  | @here w _ d _ _ hpull hne =>
    have hsplice : (Splice.reads backfill live).pull w (Splice.mk none d reached) = _ := pull_live w d reached
    rw [hpull] at hsplice
    exact .here hsplice fun hs => hne ((Found.mapPosition_eq_skipped_iff _).1 hs)
  | @skip w _ _ d _ _ _ hpull _ ih =>
    have hsplice : (Splice.reads backfill live).pull w (Splice.mk none d reached) = _ := pull_live w d reached
    rw [hpull] at hsplice
    exact .skip hsplice ih

/-- Behind its backfill a spliced read finds nothing else. -/
theorem live_of_finds {s s' : (Splice.reads backfill live).Cursor} {found : Found (StitchedPosition B L)}
    (h : (Splice.reads backfill live).Finds w s later s' found) (hs : s = Splice.mk none d reached) :
    ∃ next below, live.Finds w d later next below ∧ s' = Splice.mk none next (passNew reached below) ∧
      found = below.mapPosition (⟨reached.backfill, ·⟩) := by
  induction h generalizing d with
  | @here w _ s _ _ hpull hne =>
    subst hs
    rw [pull_live] at hpull
    cases hpull
    exact ⟨_, _, .here rfl fun hskip => hne (congrArg _ hskip), rfl, rfl⟩
  | @skip w _ _ s _ _ _ hpull _ ih =>
    subst hs
    rw [pull_live] at hpull
    rcases hlive : live.pull w d with ⟨world, cursor, below⟩
    rw [hlive] at hpull
    obtain rfl := (Found.mapPosition_eq_skipped_iff _).1 (congrArg (·.2.2) hpull)
    cases hpull
    obtain ⟨next, below, hfinds, hcursor, hfound⟩ := ih rfl
    exact ⟨next, below, .skip hlive hfinds, hcursor, hfound⟩

/-- A read with both sides finds what the backfill finds before its end. -/
theorem finds_old {found : Found B} {next : backfill.Cursor} (h : backfill.Finds w c later next found)
    (hmore : found ≠ .finished) (d : live.Cursor) (reached : StitchedPosition B L) :
    (Splice.reads backfill live).Finds w (Splice.mk (some c) d reached) later
      (Splice.mk (some next) d (passOld reached found)) (found.mapPosition (⟨·, reached.live⟩)) := by
  induction h with
  | @here w _ c _ _ hpull hne =>
    have hsplice := pull_old (w := w) (c := c) d reached (by rwa [hpull])
    rw [hpull] at hsplice
    exact .here hsplice fun hs => hne ((Found.mapPosition_eq_skipped_iff _).1 hs)
  | @skip w _ _ c _ _ _ hpull _ ih =>
    have hsplice := pull_old (w := w) (c := c) d reached (by rw [hpull]; exact nofun)
    rw [hpull] at hsplice
    exact .skip hsplice (ih hmore)

/-- A read with both sides finds, at the end of the backfill, what the live side finds. -/
theorem finds_turn {below : Found B} {found : Found L} (h : backfill.Finds w c world ended below)
    (hend : below = .finished) (hlive : live.Finds (backfill.close world ended) d later next found) :
    (Splice.reads backfill live).Finds w (Splice.mk (some c) d reached) later
      (Splice.mk none next (passNew reached found)) (found.mapPosition (⟨reached.backfill, ·⟩)) := by
  induction h with
  | here hpull _ =>
    subst hend
    exact (finds_live hlive).of_pull_eq (pull_turn d reached hpull)
  | @skip w _ _ c _ _ _ hpull _ ih =>
    have hsplice := pull_old (w := w) (c := c) d reached (by rw [hpull]; exact nofun)
    rw [hpull] at hsplice
    exact .skip hsplice (ih hend hlive)

/-- A read with both sides finds nothing else. -/
theorem sides_of_finds {s s' : (Splice.reads backfill live).Cursor} {found : Found (StitchedPosition B L)}
    (h : (Splice.reads backfill live).Finds w s later s' found)
    (hs : s = Splice.mk (some c) d reached) :
    (∃ next below, backfill.Finds w c later next below ∧ below ≠ .finished ∧
        s' = Splice.mk (some next) d (passOld reached below) ∧
          found = below.mapPosition (⟨·, reached.live⟩)) ∨
      ∃ world ended next below, backfill.Finds w c world ended .finished ∧
        live.Finds (backfill.close world ended) d later next below ∧
          s' = Splice.mk none next (passNew reached below) ∧
            found = below.mapPosition (⟨reached.backfill, ·⟩) := by
  -- the pull that ends the backfill is one of the live side
  have hturn : ∀ {w : W} {c : backfill.Cursor} {world : W} {ended : backfill.Cursor},
      backfill.pull w c = (world, ended, .finished) →
        (Splice.reads backfill live).Finds w (Splice.mk (some c) d reached) later s' found →
          ∃ world ended next below, backfill.Finds w c world ended .finished ∧
            live.Finds (backfill.close world ended) d later next below ∧
              s' = Splice.mk none next (passNew reached below) ∧
                found = below.mapPosition (⟨reached.backfill, ·⟩) := by
    intro w c world ended hpull h
    obtain ⟨next, below, hfinds, hcursor, hfound⟩ :=
      live_of_finds (h.of_pull_eq (pull_turn d reached hpull).symm) rfl
    exact ⟨world, ended, next, below, .here hpull nofun, hfinds, hcursor, hfound⟩
  induction h generalizing c with
  | @here w later s _ _ hpull hne =>
    subst hs
    rcases hbackfill : backfill.pull w c with ⟨world, cursor, below⟩
    by_cases hend : below = .finished
    · subst hend
      exact .inr (hturn hbackfill (.here hpull hne))
    · rw [pull_old d reached (by rw [hbackfill]; exact hend), hbackfill] at hpull
      cases hpull
      exact .inl ⟨_, _, .here hbackfill fun hskip => hne (congrArg _ hskip), hend, rfl, rfl⟩
  | @skip w _ _ s _ _ _ hpull rest ih =>
    subst hs
    rcases hbackfill : backfill.pull w c with ⟨world, cursor, below⟩
    by_cases hend : below = .finished
    · subst hend
      exact .inr (hturn hbackfill (.skip hpull rest))
    · rw [pull_old d reached (by rw [hbackfill]; exact hend), hbackfill] at hpull
      obtain rfl := (Found.mapPosition_eq_skipped_iff _).1 (congrArg (·.2.2) hpull)
      cases hpull
      rcases ih rfl hturn with ⟨next, below, hfinds, hrest⟩ | ⟨world, ended, next, below, hfinds, hrest⟩
      · exact .inl ⟨next, below, .skip hbackfill hfinds, hrest⟩
      · exact .inr ⟨world, ended, next, below, .skip hbackfill hfinds, hrest⟩

end Finding

section Answering

variable {backfill : Reads W B} {live : Reads W L}

/-- The answers of a spliced read: the results of its backfill at the live position of the start, and then
the answers of its live side at the position of the last event among those results. -/
def relayed (start : StitchedPosition B L) (old : List (Item B)) (new : List (Option (Item L))) :
    List (Option (Item (StitchedPosition B L))) :=
  old.map (fun item => some (Item.mapPosition (⟨·, start.live⟩) item)) ++
    new.map (Option.map (Item.mapPosition (⟨lastReached start.backfill (Item.events old), ·⟩)))

/-- After a result of the backfill the read goes on from where that has brought it. -/
theorem relayed_cons (start : StitchedPosition B L) {found : Found B} {item : Item B}
    (hitem : found.item? = some item) (old : List (Item B)) (new : List (Option (Item L))) :
    relayed start (item :: old) new =
      (found.mapPosition (⟨·, start.live⟩)).item? :: relayed (passOld start found) old new := by
  cases found with
  | skipped => nomatch hitem
  | finished => nomatch hitem
  | failure e =>
    cases hitem
    rfl
  | event e =>
    cases hitem
    have hreached : lastReached start.backfill (Item.events (.ok e :: old)) =
        lastReached e.position (Item.events old) := by
      change lastReached start.backfill (e :: Item.events old) = _
      unfold lastReached
      rw [List.getLast?_cons]
      cases (Item.events old).getLast? <;> rfl
    unfold relayed
    rw [hreached]
    rfl

variable {w world last : W} {c ended : backfill.Cursor} {d next : live.Cursor} {old : List (Item B)}
  {new : List (Option (Item L))} {reached : StitchedPosition B L}
  {answers : List (Option (Item (StitchedPosition B L)))}

/-- An answer of the live side is one of the spliced read behind its backfill. -/
theorem relayed_live (reached : StitchedPosition B L) (found : Found L) (new : List (Option (Item L))) :
    relayed reached [] (found.item? :: new) =
      (found.mapPosition (⟨reached.backfill, ·⟩)).item? :: relayed (passNew reached found) [] new := by
  unfold relayed
  rw [passNew_backfill, Found.item?_mapPosition]
  rfl

/-- Behind its backfill a spliced read answers what its live side answers. -/
theorem answers_live (h : live.Answers w d new last next) (reached : StitchedPosition B L) :
    ∃ s, (Splice.reads backfill live).Answers w (Splice.mk none d reached) (relayed reached [] new) last
      s := by
  induction h generalizing reached with
  | nil w d => exact ⟨_, .nil w _⟩
  | @cons _ _ _ _ _ _ found _ hfinds _ ih =>
    obtain ⟨s, hrest⟩ := ih (passNew reached found)
    rw [relayed_live]
    exact ⟨s, .cons (finds_live hfinds) hrest⟩

/-- Behind its backfill a spliced read answers nothing else. -/
theorem live_of_answers {s s' : (Splice.reads backfill live).Cursor}
    (h : (Splice.reads backfill live).Answers w s answers last s') (hs : s = Splice.mk none d reached) :
    ∃ new next, live.Answers w d new last next ∧ answers = relayed reached [] new := by
  induction h generalizing d reached with
  | nil w s => exact ⟨[], d, .nil w d, rfl⟩
  | cons hfinds _ ih =>
    obtain ⟨cursor, below, hlive, hcursor, rfl⟩ := live_of_finds hfinds hs
    obtain ⟨new, next, hnew, rfl⟩ := ih hcursor
    exact ⟨_, next, .cons hlive hnew, (relayed_live reached below new).symm⟩

/-- While its backfill lasts a spliced read answers what that answers. -/
theorem answers_old (h : backfill.Answers w c (old.map some) last ended) (d : live.Cursor)
    (reached : StitchedPosition B L) :
    ∃ s, (Splice.reads backfill live).Answers w (Splice.mk (some c) d reached) (relayed reached old []) last
      s := by
  generalize hold : old.map some = given at h
  induction h generalizing old reached with
  | nil w c =>
    obtain rfl := List.map_eq_nil_iff.1 hold
    exact ⟨_, .nil w _⟩
  | @cons _ _ _ _ _ _ found _ hfinds _ ih =>
    obtain ⟨item, old, rfl, hitem, hrest⟩ := List.map_eq_cons_iff.1 hold
    obtain ⟨s, hrest⟩ := ih (passOld reached found) hrest
    rw [relayed_cons reached hitem.symm]
    exact ⟨s, .cons (finds_old hfinds (Found.ne_finished_of_item hitem.symm) d reached) hrest⟩

/-- When its backfill ends a spliced read answers what its live side answers. -/
theorem answers_turn (h : backfill.Answers w c (old.map some ++ [none]) world ended)
    (hnew : live.Answers (backfill.close world ended) d new last next) (hne : new ≠ [])
    (reached : StitchedPosition B L) :
    ∃ s, (Splice.reads backfill live).Answers w (Splice.mk (some c) d reached) (relayed reached old new) last
      s := by
  generalize hold : old.map some ++ [none] = given at h
  induction h generalizing old reached with
  | nil w c => exact absurd hold (List.append_ne_nil_of_right_ne_nil _ (List.cons_ne_nil _ _))
  | @cons _ _ _ _ _ _ found _ hfinds hrest ih =>
    cases old with
    | nil =>
      obtain ⟨hend, rfl⟩ := List.cons.inj hold
      cases hrest
      cases hnew with
      | nil => exact absurd rfl hne
      | @cons _ _ _ _ _ _ found _ hlive hnew =>
        obtain ⟨s, hrest⟩ : ∃ s, (Splice.reads backfill live).Answers _ _ _ _ s :=
          answers_live hnew (passNew reached found)
        rw [relayed_live]
        exact ⟨s, .cons (finds_turn hfinds (hfinds.eq_finished hend.symm) hlive) hrest⟩
    | cons item old =>
      obtain ⟨hitem, hold⟩ := List.cons.inj hold
      obtain ⟨s, hrest⟩ := ih hnew (passOld reached found) hold
      rw [relayed_cons reached hitem.symm]
      exact ⟨s, .cons (finds_old hfinds (Found.ne_finished_of_item hitem.symm) d reached) hrest⟩

/-- A spliced read answers nothing else: the results of its backfill, and once that has ended the answers of
its live side. -/
theorem sides_of_answers {s s' : (Splice.reads backfill live).Cursor}
    (h : (Splice.reads backfill live).Answers w s answers last s') (hs : s = Splice.mk (some c) d reached) :
    (∃ old next, backfill.Answers w c (old.map some) last next ∧ answers = relayed reached old []) ∨
      ∃ old world ended new next, backfill.Answers w c (old.map some ++ [none]) world ended ∧
        live.Answers (backfill.close world ended) d new last next ∧ new ≠ [] ∧
          answers = relayed reached old new := by
  induction h generalizing c reached with
  | nil w s => exact .inl ⟨[], c, .nil w c, rfl⟩
  | cons hfinds hrest ih =>
    rcases sides_of_finds hfinds hs with ⟨cursor, below, hbackfill, hmore, hcursor, rfl⟩ |
      ⟨world, ended, cursor, below, hbackfill, hlive, hcursor, rfl⟩
    · obtain ⟨item, hitem⟩ : ∃ item, below.item? = some item :=
        Option.ne_none_iff_exists'.1 fun hnone => hmore (hbackfill.eq_finished hnone)
      rcases ih hcursor with ⟨old, next, hold, rfl⟩ | ⟨old, world, ended, new, next, hold, hnew, hne, rfl⟩
      · exact .inl ⟨item :: old, next, hold.cons_item hbackfill hitem,
          (relayed_cons reached hitem old []).symm⟩
      · exact .inr ⟨item :: old, world, ended, new, next, hold.cons_item hbackfill hitem, hnew, hne,
          (relayed_cons reached hitem old new).symm⟩
    · obtain ⟨new, next, hnew, rfl⟩ := live_of_answers hrest hcursor
      exact .inr ⟨[], world, ended, _, next, .cons hbackfill (.nil _ _), .cons hlive hnew,
        List.cons_ne_nil _ _, (relayed_live reached below new).symm⟩

end Answering

section Asking

variable {backfill : Reads W B} {live : Reads W L} {heldBackfill : backfill.Cursor → Prop}
  {heldLive : live.Cursor → Prop} {held : (Splice.reads backfill live).Cursor → Prop} {d : live.Cursor}

/-- Behind its backfill a prompt spliced read gives the answers of its live side, if that is prompt. -/
theorem ask_live (hl : live.Prompt heldLive) (hs : (Splice.reads backfill live).Prompt held) (count : Nat)
    (w : W) (hd : heldLive d) {reached : StitchedPosition B L} (hheld : held (Splice.mk none d reached)) :
    ((Splice.reads backfill live).ask count w (Splice.mk none d reached)).2.2 =
      relayed reached [] (live.ask count w d).2.2 := by
  induction count generalizing w d reached with
  | zero => rfl
  | succ count ih =>
    obtain ⟨later, next, found, hfinds⟩ := hl.exists_finds hd w
    have hsplice : (Splice.reads backfill live).Finds w (Splice.mk none d reached) later _ _ := finds_live hfinds
    rw [hs.ask_succ hheld hsplice, hl.ask_succ hd hfinds, relayed_live,
      ih later (hl.kept hd hfinds) (hs.kept hheld hsplice)]

/-- A prompt spliced read gives the results of its backfill up to the first end, and then the answers of its
live side, if both are prompt. -/
theorem ask_both (hb : backfill.Prompt heldBackfill) (hl : live.Prompt heldLive)
    (hs : (Splice.reads backfill live).Prompt held) (count : Nat) (w : W) {c : backfill.Cursor}
    (hc : heldBackfill c) (hd : heldLive d) {reached : StitchedPosition B L}
    (hheld : held (Splice.mk (some c) d reached)) :
    let taken := backfill.take count w c
    ((Splice.reads backfill live).ask count w (Splice.mk (some c) d reached)).2.2 =
      relayed reached taken.2.2
        (live.ask (count - taken.2.2.length) (backfill.close taken.1 taken.2.1) d).2.2 := by
  induction count generalizing w c reached with
  | zero => rfl
  | succ count ih =>
    obtain ⟨later, next, found, hfinds⟩ := hb.exists_finds hc w
    intro taken
    have htaken : taken = Reads.collect (fun c w => backfill.take count w c) (later, next, found.item?) := by
      rw [← hb.next_eq hc hfinds, ← Reads.take_succ]
    rw [htaken]
    cases hitem : found.item? with
    | none =>
      -- the backfill has ended: the same question goes on to the live side
      obtain ⟨world, cursor, below, hlive⟩ := hl.exists_finds hd (backfill.close later next)
      have hsplice : (Splice.reads backfill live).Finds w (Splice.mk (some c) d reached) world _ _ :=
        finds_turn hfinds (hfinds.eq_finished hitem) hlive
      show _ = relayed reached [] (live.ask (count + 1) (backfill.close later next) d).2.2
      rw [hs.ask_succ hheld hsplice, hl.ask_succ hd hlive, relayed_live,
        ask_live hl hs count world (hl.kept hd hlive) (hs.kept hheld hsplice)]
    | some item =>
      have hsplice := finds_old hfinds (Found.ne_finished_of_item hitem) d reached
      have hrest := ih later (hb.kept hc hfinds) (hs.kept hheld hsplice)
      unfold Reads.collect
      rw [hs.ask_succ hheld hsplice, hrest, List.length_cons, Nat.add_sub_add_right, relayed_cons reached hitem]

end Asking

section Sources

variable [DecidableEq L] {backfill : EventReader W B} {live : EventReader W L} {cutoff : L} {w last : W}
  {start : StitchedPosition B L}

/-- At the cutoff the refusal of the backfill comes first. -/
theorem forwardsFrom_of_refused (hcut : start.live = cutoff) {e : StoreError}
    (h : backfill.forwardsFrom w start.backfill = .error e) :
    (EventReader.stitched backfill live cutoff).forwardsFrom w start = .error e := by
  refine (Splice.start_of_cutoff hcut).trans ?_
  rw [h]
  rfl

/-- At the cutoff both sides are opened. -/
theorem forwardsFrom_of_opened (hcut : start.live = cutoff) {c : backfill.Cursor}
    (h : backfill.forwardsFrom w start.backfill = .ok c) :
    (EventReader.stitched backfill live cutoff).forwardsFrom w start =
      (live.forwardsFrom w start.live).map (Splice.mk (some c) · start) := by
  refine (Splice.start_of_cutoff hcut).trans ?_
  rw [h]
  rfl

/-- Elsewhere the live side alone is opened. -/
theorem forwardsFrom_elsewhere (hcut : start.live ≠ cutoff) :
    (EventReader.stitched backfill live cutoff).forwardsFrom w start =
      (live.forwardsFrom w start.live).map (Splice.mk none · start) :=
  Splice.start_elsewhere hcut

/-- A stitched source of two that never skip never skips. -/
theorem stitched_ne_skipped (hb : ∀ w c, (backfill.pull w c).2.2 ≠ .skipped)
    (hl : ∀ w d, (live.pull w d).2.2 ≠ .skipped) (w : W)
    (s : (EventReader.stitched backfill live cutoff).Cursor) :
    ((EventReader.stitched backfill live cutoff).pull w s).2.2 ≠ .skipped := by
  have hlive : ∀ w d (reached : StitchedPosition B L),
      ((Splice.reads backfill.toReads live.toReads).pull w (Splice.mk none d reached)).2.2 ≠ .skipped := by
    intro w d reached hskip
    rw [pull_live] at hskip
    exact hl w d ((Found.mapPosition_eq_skipped_iff _).1 hskip)
  show ((Splice.reads backfill.toReads live.toReads).pull w s).2.2 ≠ .skipped
  obtain ⟨_ | c, d, reached⟩ := s
  · exact hlive w d reached
  · rcases hpull : backfill.pull w c with ⟨world, ended, found⟩
    by_cases hend : found = .finished
    · subst hend
      rw [pull_turn d reached hpull]
      exact hlive _ d reached
    · rw [pull_old d reached (by rwa [hpull])]
      exact fun hskip => hb w c ((Found.mapPosition_eq_skipped_iff _).1 hskip)

variable (backfill live cutoff w start) in
/-- What the sides of a stitched read from a position answer: results of the backfill, answers of the live side,
and the world that they leave. -/
inductive Sides : List (Item B) → List (Option (Item L)) → W → Prop where
  /-- Elsewhere than at the cutoff the live side answers everything. -/
  | elsewhere {d next : live.Cursor} {new : List (Option (Item L))} {last : W} (hcut : start.live ≠ cutoff)
    (hopen : live.forwardsFrom w start.live = .ok d) (h : live.Answers w d new last next) : Sides [] new last
  /-- At the cutoff the backfill answers, and has not ended. -/
  | inside {c next : backfill.Cursor} {old : List (Item B)} {last : W} (hcut : start.live = cutoff)
    (hopen : backfill.forwardsFrom w start.backfill = .ok c)
    (h : backfill.Answers w c (old.map some) last next) : Sides old [] last
  /-- The backfill has answered up to its first end, and the live side answers from then on. -/
  | behind {c ended : backfill.Cursor} {d next : live.Cursor} {old : List (Item B)}
    {new : List (Option (Item L))} {world last : W} (hcut : start.live = cutoff)
    (hopen : backfill.forwardsFrom w start.backfill = .ok c) (hlive : live.forwardsFrom w start.live = .ok d)
    (h : backfill.Answers w c (old.map some ++ [none]) world ended)
    (hnew : live.Answers (backfill.close world ended) d new last next) (hne : new ≠ []) : Sides old new last

/-- A stitched read answers what its sides do, and nothing else. -/
theorem answers_iff_sides {s : (EventReader.stitched backfill live cutoff).Cursor}
    (hopen : (EventReader.stitched backfill live cutoff).forwardsFrom w start = .ok s)
    {answers : List (Option (Item (StitchedPosition B L)))} :
    (∃ s', (EventReader.stitched backfill live cutoff).Answers w s answers last s') ↔
      ∃ old new, Sides backfill live cutoff w start old new last ∧ answers = relayed start old new := by
  obtain ⟨d, hd, ⟨hcut, c, hc, rfl⟩ | ⟨hcut, rfl⟩⟩ := start_eq_ok hopen
  · constructor
    · rintro ⟨s', h⟩
      rcases sides_of_answers h rfl with ⟨old, next, hold, hanswers⟩ |
        ⟨old, world, ended, new, next, hold, hnew, hne, hanswers⟩
      · exact ⟨old, [], .inside hcut hc hold, hanswers⟩
      · exact ⟨old, new, .behind hcut hc hd hold hnew hne, hanswers⟩
    · rintro ⟨old, new, hsides, rfl⟩
      cases hsides with
      | elsewhere hne => exact absurd hcut hne
      | inside _ hopened hold =>
        obtain rfl := Except.ok.inj (hc.symm.trans hopened)
        exact answers_old hold d start
      | behind _ hopened hlive hold hnew hne =>
        obtain rfl := Except.ok.inj (hc.symm.trans hopened)
        obtain rfl := Except.ok.inj (hd.symm.trans hlive)
        exact answers_turn hold hnew hne start
  · constructor
    · rintro ⟨s', h⟩
      obtain ⟨new, next, hnew, hanswers⟩ := live_of_answers h rfl
      exact ⟨[], new, .elsewhere hcut hd hnew, hanswers⟩
    · rintro ⟨old, new, hsides, rfl⟩
      cases hsides with
      | elsewhere _ hopened hnew =>
        obtain rfl := Except.ok.inj (hd.symm.trans hopened)
        exact answers_live hnew start
      | inside hsame => exact absurd hsame hcut
      | behind hsame => exact absurd hsame hcut

/-- A stitched read opens what it reads: at the cutoff the backfill, whose refusal comes first, and the live
side; elsewhere the live side alone. It answers the results of the backfill up to its first end, at the live
component of the start, and then what the live side answers, at the position of the backfill's last event.
Failures stand among the answers of each side where they occurred, and count for no position. This holds of any
two sources, and so of their categories; if the pulls of each suffice for its answers, it holds of what they
return. -/
theorem stitched_reads_relay (backfill : EventReader W B) (live : EventReader W L) (cutoff : L) (w : W)
    (start : StitchedPosition B L) :
    let reader := EventReader.stitched backfill live cutoff
    ((start.live = cutoff → ∀ e, backfill.forwardsFrom w start.backfill = .error e →
        reader.forwardsFrom w start = .error e) ∧
      (start.live = cutoff → ∀ c, backfill.forwardsFrom w start.backfill = .ok c →
        reader.forwardsFrom w start = (live.forwardsFrom w start.live).map (Splice.mk (some c) · start)) ∧
      (start.live ≠ cutoff →
        reader.forwardsFrom w start = (live.forwardsFrom w start.live).map (Splice.mk none · start))) ∧
    (∀ s, reader.forwardsFrom w start = .ok s → ∀ answers last,
      (∃ s', reader.Answers w s answers last s') ↔
        ∃ old new, Sides backfill live cutoff w start old new last ∧ answers = relayed start old new) ∧
    (backfill.Prompt → live.Prompt → reader.Prompt → ∀ d, live.forwardsFrom w start.live = .ok d → ∀ count,
      (start.live = cutoff → ∀ c, backfill.forwardsFrom w start.backfill = .ok c →
        let taken := backfill.take count w c
        (reader.ask count w (Splice.mk (some c) d start)).2.2 =
          relayed start taken.2.2
            (live.ask (count - taken.2.2.length) (backfill.close taken.1 taken.2.1) d).2.2) ∧
      (start.live ≠ cutoff →
        (reader.ask count w (Splice.mk none d start)).2.2 = relayed start [] (live.ask count w d).2.2)) ∧
    ((∀ w c, (backfill.pull w c).2.2 ≠ .skipped) → (∀ w d, (live.pull w d).2.2 ≠ .skipped) →
      backfill.Prompt ∧ live.Prompt ∧ reader.Prompt) ∧
    ∀ (backfill : CategoryReader W B) (live : CategoryReader W L) (category : String),
      (CategoryReader.stitched backfill live cutoff).asSource category =
        .stitched (backfill.asSource category) (live.asSource category) cutoff := by
  intro reader
  refine ⟨⟨?_, ?_, ?_⟩, ?_, ?_, ?_, fun _ _ _ => rfl⟩
  · exact fun hcut _ h => forwardsFrom_of_refused hcut h
  · exact fun hcut _ h => forwardsFrom_of_opened hcut h
  · exact fun hcut => forwardsFrom_elsewhere hcut
  · exact fun s hopen answers last => answers_iff_sides hopen
  · intro hb hl hs d hd count
    constructor
    · intro hcut c hc
      have hopen : reader.forwardsFrom w start = .ok (Splice.mk (some c) d start) := by
        rw [forwardsFrom_of_opened hcut hc, hd]
        rfl
      exact ask_both hb hl hs count w (.opened hc) (.opened hd) (.opened hopen)
    · intro hcut
      have hopen : reader.forwardsFrom w start = .ok (Splice.mk none d start) := by
        rw [forwardsFrom_elsewhere hcut, hd]
        rfl
      exact ask_live hl hs count w (.opened hd) (.opened hopen)
  · intro hb hl
    exact ⟨backfill.prompt_of_pulls hb, live.prompt_of_pulls hl,
      reader.prompt_of_pulls (stitched_ne_skipped hb hl)⟩

/-- A read of two stores that fail between their events answers each failure where it occurred, and goes on
with the same side at the same position. A backfill that cannot be opened refuses a read at the cutoff, and no
other. -/
theorem stitched_reads_relay_failures :
    let orders : StreamId := ⟨"orders", "1", by decide⟩
    let placed : NewEvent := ⟨"Placed", [1], []⟩
    let filled := (Store.withClock fun _ => .epoch).append orders [placed, placed]
    let stores : Bool → Store := fun _ => filled
    let lost : StoreError := .io "lost"
    let broken : StoreError := .backend "broken"
    let history := Store.eventReader (storeAt false)
    let backfill := FaultPlan.eventReader ⟨none, [(0, lost), (2, lost)]⟩ history
    let refusing := FaultPlan.eventReader ⟨some lost, []⟩ history
    let live := FaultPlan.eventReader ⟨none, [(1, broken)]⟩ (Store.eventReader (storeAt true))
    let reader := EventReader.stitched backfill live 1
    let s : reader.Cursor := Splice.mk (some (0, .forwards 0 .all)) (0, .forwards 1 .all) ⟨0, 1⟩
    reader.forwardsFrom stores ⟨0, 1⟩ = .ok s ∧
      (reader.ask 7 stores s).2.2.map (Option.map (Except.map (·.position))) =
        [some (.error lost), some (.ok ⟨1, 1⟩), some (.error lost), some (.ok ⟨2, 1⟩),
          some (.ok ⟨2, 2⟩), some (.error broken), none] ∧
      (EventReader.stitched refusing live 1).forwardsFrom stores ⟨0, 1⟩ = .error lost ∧
      (EventReader.stitched refusing live 1).forwardsFrom stores ⟨0, 0⟩ =
        .ok (Splice.mk none (0, .forwards 0 .all) ⟨0, 0⟩) := by
  intro orders placed filled stores lost broken history backfill refusing live reader s
  obtain ⟨⟨-, hopen, -⟩, -, hasked, hprompt, -⟩ := stitched_reads_relay backfill live 1 stores ⟨0, 1⟩
  obtain ⟨⟨hrefused, -, -⟩, -⟩ := stitched_reads_relay refusing live 1 stores ⟨0, 1⟩
  obtain ⟨⟨-, -, helsewhere⟩, -⟩ := stitched_reads_relay refusing live 1 stores ⟨0, 0⟩
  have hnever : ∀ (place : Place (Bool → Store) Store) w c,
      ((Store.eventReader place).pull w c).2.2 ≠ .skipped :=
    fun place w c => (place.get w).log.pull_ne_skipped c
  obtain ⟨hb, hl, hr⟩ :=
    hprompt (FaultPlan.pull_ne_skipped _ (hnever _)) (FaultPlan.pull_ne_skipped _ (hnever _))
  have hanswers : (reader.ask 7 stores s).2.2 = _ :=
    (hasked hb hl hr (0, .forwards 1 .all) rfl 7).1 rfl (0, .forwards 0 .all) rfl
  refine ⟨hopen rfl _ rfl, ?_, hrefused rfl lost rfl, helsewhere (by decide)⟩
  rw [hanswers]
  decide +kernel

end Sources

end Stitch

end Chronicle
