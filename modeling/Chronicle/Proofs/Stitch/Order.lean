import Chronicle.Position.Scheme
import Chronicle.Proofs.Access.Pulls
import Chronicle.Proofs.Store.Coherence
import Chronicle.Stitch.Source

/-!
# Read order of stitched sources

A consumer relies on two things: the codec of a source orders its positions, and a read from a position
meets only later positions, each later than the one before. Positions of a stitched source are compared by
their backfill components first, and each phase of a spliced read moves one component and leaves the other
where it is, so a stitched source keeps the contract whenever both of its sides do. By induction every
nesting of stitched sources over stores and sources without events keeps it.
-/

namespace Chronicle

namespace PositionCodec

variable {P B L : Type}

/-- A consumer meets the first position before the second. -/
def Before (codec : PositionCodec P) (p q : P) : Prop := codec.order p q = .ok .lt

/-- A codec orders all positions, and finds equal exactly those that are. -/
structure Total (codec : PositionCodec P) : Prop where
  /-- No comparison is refused. -/
  decides : ∀ p q, ∃ o, codec.order p q = .ok o
  /-- Only a position itself is equal to it. -/
  eq_iff : ∀ p q, codec.order p q = .ok .eq ↔ p = q
  /-- The order does not depend on which position is named first. -/
  swap : ∀ p q, codec.order p q = .ok .lt ↔ codec.order q p = .ok .gt
  /-- What comes before an earlier position comes before a later one. -/
  trans : ∀ {p q r}, codec.Before p q → codec.Before q r → codec.Before p r

/-- Positions of a log are ordered as numbers. -/
theorem before_log_iff {p q : Nat} : PositionCodec.log.Before p q ↔ p < q := by
  show Except.ok (compare p q) = Except.ok Ordering.lt ↔ p < q
  rw [Except.ok.injEq]
  exact Nat.compare_eq_lt

/-- Positions of a log are ordered. -/
theorem Total.log : PositionCodec.log.Total := by
  refine ⟨fun p q => ⟨compare p q, rfl⟩, ?_, ?_, ?_⟩
  · intro p q
    show Except.ok (compare p q) = Except.ok Ordering.eq ↔ p = q
    rw [Except.ok.injEq]
    exact Nat.compare_eq_eq
  · intro p q
    show Except.ok (compare p q) = Except.ok Ordering.lt ↔ Except.ok (compare q p) = Except.ok Ordering.gt
    rw [Except.ok.injEq, Except.ok.injEq, Nat.compare_eq_lt, Nat.compare_eq_gt]
  · intro p q r hpq hqr
    rw [before_log_iff] at hpq hqr ⊢
    exact Nat.lt_trans hpq hqr

/-- The position of a source without events is ordered. -/
theorem Total.empty : PositionCodec.empty.Total := by
  refine ⟨fun _ _ => ⟨.eq, rfl⟩, fun _ _ => ⟨fun _ => rfl, fun _ => rfl⟩, ?_, ?_⟩
  · intro p q
    constructor <;> intro h <;> nomatch h
  · intro p q r hpq _
    nomatch hpq

section Stitched

variable {backfill : PositionCodec B} {live : PositionCodec L} {p q r : StitchedPosition B L}

/-- Stitched positions with different backfill components are ordered by these. -/
theorem order_stitched_of_ne {o : Ordering} (h : backfill.order p.backfill q.backfill = .ok o)
    (ho : o ≠ .eq) : (stitched backfill live).order p q = .ok o := by
  unfold stitched
  dsimp only
  rw [h]
  cases o with
  | eq => exact absurd rfl ho
  | lt => rfl
  | gt => rfl

/-- Stitched positions with one backfill component are ordered by the live ones. -/
theorem order_stitched_of_eq (h : backfill.order p.backfill q.backfill = .ok .eq) :
    (stitched backfill live).order p q = live.order p.live q.live := by
  unfold stitched
  dsimp only
  rw [h]
  rfl

/-- Stitched positions differ by the backfill components, or by the live ones if those are equal. -/
theorem order_stitched_iff (hb : backfill.Total) {o : Ordering} (ho : o ≠ .eq) :
    (stitched backfill live).order p q = .ok o ↔
      backfill.order p.backfill q.backfill = .ok o ∨
        p.backfill = q.backfill ∧ live.order p.live q.live = .ok o := by
  obtain ⟨first, hfirst⟩ := hb.decides p.backfill q.backfill
  by_cases he : first = .eq
  · subst he
    have hsame := (hb.eq_iff p.backfill q.backfill).1 hfirst
    rw [order_stitched_of_eq hfirst, hfirst]
    constructor
    · exact fun h => .inr ⟨hsame, h⟩
    · rintro (h | ⟨-, h⟩)
      · exact absurd (Except.ok.inj h).symm ho
      · exact h
  · have hne : p.backfill ≠ q.backfill := by
      intro hsame
      rw [(hb.eq_iff _ _).2 hsame] at hfirst
      exact he (Except.ok.inj hfirst).symm
    rw [order_stitched_of_ne hfirst he, hfirst]
    constructor
    · exact .inl
    · rintro (h | ⟨hsame, -⟩)
      · exact h
      · exact absurd hsame hne

/-- Stitched positions are ordered if both components are. -/
theorem Total.stitched (hb : backfill.Total) (hl : live.Total) :
    (PositionCodec.stitched backfill live).Total := by
  have hlt : Ordering.lt ≠ .eq := by decide
  have hgt : Ordering.gt ≠ .eq := by decide
  refine ⟨?_, ?_, ?_, ?_⟩
  · intro p q
    obtain ⟨first, hfirst⟩ := hb.decides p.backfill q.backfill
    by_cases he : first = .eq
    · subst he
      obtain ⟨second, hsecond⟩ := hl.decides p.live q.live
      exact ⟨second, (order_stitched_of_eq hfirst).trans hsecond⟩
    · exact ⟨first, order_stitched_of_ne hfirst he⟩
  · intro p q
    obtain ⟨first, hfirst⟩ := hb.decides p.backfill q.backfill
    by_cases he : first = .eq
    · subst he
      have hsame := (hb.eq_iff p.backfill q.backfill).1 hfirst
      rw [order_stitched_of_eq hfirst, hl.eq_iff]
      constructor
      · intro hlive
        cases p
        exact congr (congrArg StitchedPosition.mk hsame) hlive
      · rintro rfl
        rfl
    · rw [order_stitched_of_ne hfirst he]
      constructor
      · exact fun h => absurd (Except.ok.inj h) he
      · rintro rfl
        rw [(hb.eq_iff _ _).2 rfl] at hfirst
        exact hfirst.symm
  · intro p q
    rw [order_stitched_iff hb hlt, order_stitched_iff hb hgt, hb.swap, hl.swap]
    exact or_congr_right (and_congr_left' eq_comm)
  · intro p q r hpq hqr
    unfold Before at hpq hqr ⊢
    rw [order_stitched_iff hb hlt] at hpq hqr ⊢
    rcases hpq with hpq | ⟨hpq, hlpq⟩ <;> rcases hqr with hqr | ⟨hqr, hlqr⟩
    · exact .inl (hb.trans hpq hqr)
    · exact .inl (hqr ▸ hpq)
    · exact .inl (hpq ▸ hqr)
    · exact .inr ⟨hpq.trans hqr, hl.trans hlpq hlqr⟩

end Stitched

end PositionCodec

/-- What others may do to a world: nothing, or one thing after another, and none of it makes the world
other than it should be. -/
structure Meddling {W : Type} (inv : W → Prop) (env : W → W → Prop) : Prop where
  /-- Others may do nothing. -/
  refl : ∀ w, env w w
  /-- They may do one thing after another. -/
  trans : ∀ {u v w}, env u v → env v w → env u w
  /-- They leave the world as it should be. -/
  keeps : ∀ {w later}, inv w → env w later → inv later

/-- A source keeps the contract of reads: its codec orders its positions, and a read from a position meets
only later ones in ascending order, whatever others do to the world meanwhile. Its own pulls are among the
changes that it allows to others. -/
structure EventReader.Ordered {W P : Type} (inv : W → Prop) (env : W → W → Prop)
    (reader : EventReader W P) : Prop where
  /-- Positions are ordered. -/
  total : reader.codec.Total
  /-- A pull changes the world as others may. -/
  pull_env : ∀ w c, inv w → env w (reader.pull w c).1
  /-- Giving up a read changes the world as others may. -/
  close_env : ∀ w c, inv w → env w (reader.close w c)
  /-- A read meets only later positions in ascending order. -/
  ascending : ∀ {w position c events}, inv w → reader.forwardsFrom w position = .ok c →
    reader.Emits env w c events →
      (position :: events.map (·.position)).Pairwise reader.codec.Before

namespace Stitch

variable {W B L : Type} {inv : W → Prop} {env : W → W → Prop}

section Splitting

variable {backfill : Reads W B} {live : Reads W L}

/-- A spliced read whose backfill has ended yields what the live read does. -/
theorem live_of_emits {w : W} {c : live.Cursor} {reached : StitchedPosition B L}
    {s : (Splice.reads backfill live).Cursor} (hs : s = Splice.mk none c reached)
    {events : List (Placed (StitchedPosition B L))}
    (h : (Splice.reads backfill live).Emits env w s events) :
    ∃ new, live.Emits env w c new ∧
      events = new.map (·.mapPosition (⟨reached.backfill, ·⟩)) := by
  induction h generalizing c reached with
  | nil w s => exact ⟨[], .nil w c, rfl⟩
  | change hchange _ ih =>
    obtain ⟨new, hnew, hevents⟩ := ih hs
    exact ⟨new, .change hchange hnew, hevents⟩
  | @pull w later s next found events hpull _ ih =>
    subst hs
    have hlive : Splice.pullLive backfill live w c reached = (later, next, found) := hpull
    unfold Splice.pullLive at hlive
    split at hlive <;> rename_i hfound <;> obtain ⟨rfl, rfl, rfl⟩ := hlive <;>
      obtain ⟨new, hnew, rfl⟩ := ih rfl <;> exact ⟨_, .pull hfound hnew, rfl⟩

/-- The backfill position that a read has reached after some events. -/
def lastReached (start : B) (old : List (Placed B)) : B := (old.getLast?.map (·.position)).getD start

/-- Events of a backfill at the live position of a start, and then live events at the last backfill
position. -/
def spliced (start : StitchedPosition B L) (old : List (Placed B)) (new : List (Placed L)) :
    List (Placed (StitchedPosition B L)) :=
  old.map (·.mapPosition (⟨·, start.live⟩)) ++
    new.map (·.mapPosition (⟨lastReached start.backfill old, ·⟩))

/-- After its first event a backfill goes on from there. -/
theorem spliced_cons (start : StitchedPosition B L) (e : Placed B) (old : List (Placed B))
    (new : List (Placed L)) : spliced start (e :: old) new =
      e.mapPosition (⟨·, start.live⟩) :: spliced ⟨e.position, start.live⟩ old new := by
  unfold spliced lastReached
  rw [List.getLast?_cons]
  cases old.getLast? <;> rfl

/-- A spliced read yields what its backfill does, and then what the live read does. -/
theorem split_of_emits (henv : Meddling inv env)
    (hpulls : ∀ w c, inv w → env w (backfill.pull w c).1)
    (hcloses : ∀ w c, inv w → env w (backfill.close w c)) {w : W} (hw : inv w)
    {c : backfill.Cursor} {d : live.Cursor} {reached : StitchedPosition B L}
    {s : (Splice.reads backfill live).Cursor} (hs : s = Splice.mk (some c) d reached)
    {events : List (Placed (StitchedPosition B L))}
    (h : (Splice.reads backfill live).Emits env w s events) :
    ∃ old new, backfill.Emits env w c old ∧ live.Emits env w d new ∧
      events = spliced reached old new := by
  induction h generalizing c reached with
  | nil w s => exact ⟨[], [], .nil w c, .nil w d, rfl⟩
  | change hchange _ ih =>
    obtain ⟨old, new, hold, hnew, hevents⟩ := ih (henv.keeps hw hchange) hs
    exact ⟨old, new, .change hchange hold, .change hchange hnew, hevents⟩
  | @pull w later s next found events hpull hrest ih =>
    subst hs
    -- a pull of the backfill is a change of the world for the live read
    have hown := hpulls w c hw
    have hsplice : Splice.pull backfill live w ⟨some c, d, reached⟩ = (later, next, found) := hpull
    unfold Splice.pull at hsplice
    dsimp only at hsplice
    split at hsplice
    · rename_i world cursor e hfound
      rw [hfound] at hown
      obtain ⟨rfl, rfl, rfl⟩ := hsplice
      obtain ⟨old, new, hold, hnew, rfl⟩ := ih (henv.keeps hw hown) rfl
      exact ⟨_, new, .pull hfound hold, .change hown hnew, (spliced_cons reached e old new).symm⟩
    · rename_i world cursor e hfound
      rw [hfound] at hown
      obtain ⟨rfl, rfl, rfl⟩ := hsplice
      obtain ⟨old, new, hold, hnew, rfl⟩ := ih (henv.keeps hw hown) rfl
      exact ⟨_, new, .pull hfound hold, .change hown hnew, rfl⟩
    · rename_i world cursor hfound
      rw [hfound] at hown
      obtain ⟨rfl, rfl, rfl⟩ := hsplice
      obtain ⟨old, new, hold, hnew, rfl⟩ := ih (henv.keeps hw hown) rfl
      exact ⟨_, new, .pull hfound hold, .change hown hnew, rfl⟩
    · rename_i world cursor hfound
      rw [hfound] at hown
      have hclose := hcloses world cursor (henv.keeps hw hown)
      have hon : (Splice.reads backfill live).pull (backfill.close world cursor)
          (Splice.mk none d reached) = (later, next, found) := hsplice
      obtain ⟨new, hnew, hevents⟩ := live_of_emits rfl (.pull hon hrest)
      exact ⟨[], new, .nil w c, .change hown (.change hclose hnew), hevents⟩

/-- What a spliced read opens: the live side, and the backfill only at the cutoff. -/
theorem start_eq_ok [DecidableEq L] {cutoff : L} {w : W} {start : StitchedPosition B L}
    {openBackfill : W → B → Except StoreError backfill.Cursor}
    {openLive : W → L → Except StoreError live.Cursor}
    {s : Splice backfill.Cursor live.Cursor B L}
    (h : Splice.start backfill live cutoff w start openBackfill openLive = .ok s) :
    ∃ d, openLive w start.live = .ok d ∧
      ((start.live = cutoff ∧ ∃ c, openBackfill w start.backfill = .ok c ∧ s = ⟨some c, d, start⟩) ∨
        (start.live ≠ cutoff ∧ s = ⟨none, d, start⟩)) := by
  by_cases hcut : start.live = cutoff
  · rw [Splice.start_of_cutoff hcut] at h
    cases hc : openBackfill w start.backfill with
    | error e =>
      rw [hc] at h
      nomatch h
    | ok c =>
      cases hd : openLive w start.live with
      | error e =>
        rw [hc, hd] at h
        nomatch h
      | ok d =>
        rw [hc, hd] at h
        exact ⟨d, rfl, .inl ⟨hcut, c, rfl, (Except.ok.inj h).symm⟩⟩
  · rw [Splice.start_elsewhere hcut] at h
    cases hd : openLive w start.live with
    | error e =>
      rw [hd] at h
      nomatch h
    | ok d =>
      rw [hd] at h
      exact ⟨d, rfl, .inr ⟨hcut, (Except.ok.inj h).symm⟩⟩

/-- A pull of a spliced read changes the world as others may. -/
theorem pull_env (henv : Meddling inv env) (hpulls : ∀ w c, inv w → env w (backfill.pull w c).1)
    (hcloses : ∀ w c, inv w → env w (backfill.close w c))
    (hlive : ∀ w c, inv w → env w (live.pull w c).1) {w : W} (hw : inv w)
    (s : Splice backfill.Cursor live.Cursor B L) : env w (Splice.pull backfill live w s).1 := by
  have hon : ∀ {world} (d : live.Cursor) (reached : StitchedPosition B L), inv world →
      env world (Splice.pullLive backfill live world d reached).1 := by
    intro world d reached hworld
    have hown := hlive world d hworld
    unfold Splice.pullLive
    split <;> rename_i hfound <;> rw [hfound] at hown <;> exact hown
  unfold Splice.pull
  split
  · exact hon _ _ hw
  · rename_i c _
    have hown := hpulls w c hw
    split
    · rename_i hfound
      rw [hfound] at hown
      exact hown
    · rename_i hfound
      rw [hfound] at hown
      exact hown
    · rename_i hfound
      rw [hfound] at hown
      exact hown
    · rename_i world cursor hfound
      rw [hfound] at hown
      have hclosed := henv.trans hown (hcloses world cursor (henv.keeps hw hown))
      exact henv.trans hclosed (hon s.live s.reached (henv.keeps hw hclosed))

/-- Giving up a spliced read changes the world as others may. -/
theorem close_env (henv : Meddling inv env) (hold : ∀ w c, inv w → env w (backfill.close w c))
    (hlive : ∀ w c, inv w → env w (live.close w c)) {w : W} (hw : inv w)
    (s : Splice backfill.Cursor live.Cursor B L) : env w (Splice.close backfill live w s) := by
  unfold Splice.close
  split
  · exact hlive w s.live hw
  · rename_i c _
    have hown := hold w c hw
    exact henv.trans hown (hlive _ s.live (henv.keeps hw hown))

end Splitting

section Ascending

variable {backfill : PositionCodec B} {live : PositionCodec L}

/-- The positions of a spliced read ascend if those of its sides do. -/
theorem ascending_spliced (hb : backfill.Total) (hl : live.Total) {start : StitchedPosition B L}
    {old : List (Placed B)} {new : List (Placed L)}
    (hold : (start.backfill :: old.map (·.position)).Pairwise backfill.Before)
    (hnew : (start.live :: new.map (·.position)).Pairwise live.Before) :
    (start :: (spliced start old new).map (·.position)).Pairwise
      (PositionCodec.stitched backfill live).Before := by
  have hlt : Ordering.lt ≠ .eq := by decide
  induction old generalizing start with
  | nil =>
    have hall : start :: (spliced start [] new).map (·.position) =
        (start.live :: new.map (·.position)).map (⟨start.backfill, ·⟩) := by
      unfold spliced
      rw [List.map_nil, List.nil_append, List.map_map, List.map_cons, List.map_map]
      rfl
    rw [hall, List.pairwise_map]
    refine hnew.imp ?_
    intro p q h
    exact (PositionCodec.order_stitched_iff hb hlt).2 (.inr ⟨rfl, h⟩)
  | cons e old ih =>
    rw [List.map_cons, List.pairwise_cons] at hold
    obtain ⟨hfirst, hold⟩ := hold
    have hrest : ((⟨e.position, start.live⟩ : StitchedPosition B L) ::
        (spliced ⟨e.position, start.live⟩ old new).map (·.position)).Pairwise _ := ih hold hnew
    have hstep : (PositionCodec.stitched backfill live).Before start ⟨e.position, start.live⟩ :=
      (PositionCodec.order_stitched_iff hb hlt).2 (.inl (hfirst _ List.mem_cons_self))
    rw [spliced_cons, List.map_cons, List.pairwise_cons]
    refine ⟨?_, hrest⟩
    intro q hq
    rcases List.mem_cons.1 hq with rfl | hq
    · exact hstep
    · exact (hb.stitched hl).trans hstep ((List.pairwise_cons.1 hrest).1 q hq)

end Ascending

section Sources

variable [DecidableEq L] {backfill : EventReader W B} {live : EventReader W L} {cutoff : L}

/-- A read of a stitched source yields a rest of the backfill, only if it starts at the cutoff, and then
what the live source has after its start. -/
theorem split_of_forwardsFrom (henv : Meddling inv env) (hb : backfill.Ordered inv env) {w : W}
    (hw : inv w) {start : StitchedPosition B L}
    {s : (EventReader.stitched backfill live cutoff).Cursor}
    (h : (EventReader.stitched backfill live cutoff).forwardsFrom w start = .ok s)
    {events : List (Placed (StitchedPosition B L))}
    (hemits : (EventReader.stitched backfill live cutoff).Emits env w s events) :
    ∃ old new, events = spliced start old new ∧
      ((start.live = cutoff ∧
          ∃ c, backfill.forwardsFrom w start.backfill = .ok c ∧ backfill.Emits env w c old) ∨
        (start.live ≠ cutoff ∧ old = [])) ∧
      ∃ d, live.forwardsFrom w start.live = .ok d ∧ live.Emits env w d new := by
  obtain ⟨d, hd, ⟨hcut, c, hc, hs⟩ | ⟨hcut, hs⟩⟩ := start_eq_ok h
  · obtain ⟨old, new, hold, hnew, hevents⟩ :=
      split_of_emits henv hb.pull_env hb.close_env hw hs hemits
    exact ⟨old, new, hevents, .inl ⟨hcut, c, hc, hold⟩, d, hd, hnew⟩
  · obtain ⟨new, hnew, hevents⟩ := live_of_emits hs hemits
    exact ⟨[], new, hevents, .inr ⟨hcut, rfl⟩, d, hd, hnew⟩

/-- Two sources that keep the contract keep it stitched, at any cutoff. -/
theorem ordered_stitched (henv : Meddling inv env) (hb : backfill.Ordered inv env)
    (hl : live.Ordered inv env) (cutoff : L) :
    (EventReader.stitched backfill live cutoff).Ordered inv env := by
  refine ⟨hb.total.stitched hl.total, ?_, ?_, ?_⟩
  · exact fun w s hw => pull_env henv hb.pull_env hb.close_env hl.pull_env hw s
  · exact fun w s hw => close_env henv hb.close_env hl.close_env hw s
  · intro w start s events hw hopen hemits
    obtain ⟨old, new, rfl, hold, d, hd, hnew⟩ := split_of_forwardsFrom henv hb hw hopen hemits
    refine ascending_spliced hb.total hl.total ?_ (hl.ascending hw hd hnew)
    rcases hold with ⟨-, c, hc, hemitted⟩ | ⟨-, rfl⟩
    · exact hb.ascending hw hc hemitted
    · exact List.pairwise_singleton _ _

end Sources

section Composites

/-- A source without events keeps the contract. -/
theorem ordered_empty (henv : Meddling inv env) :
    (EmptySource.eventReader : EventReader W Unit).Ordered inv env := by
  have hnone : ∀ {w : W} {c : (EmptySource.reads : Reads W Unit).Cursor} {events : List (Placed Unit)},
      EmptySource.reads.Emits env w c events → events = [] := by
    intro w c events h
    induction h with
    | nil w c => rfl
    | change _ _ ih => exact ih
    | pull hpull _ ih =>
      obtain ⟨rfl, rfl, rfl⟩ := hpull
      exact ih
  refine ⟨.empty, fun w _ _ => henv.refl w, fun w _ _ => henv.refl w, ?_⟩
  intro w position c events _ _ hemits
  rw [hnone hemits]
  exact List.pairwise_singleton _ _

/-- A read of a coherent log meets the positions after those that it passed, in ascending order. -/
theorem ascending_of_store {place : Place W Store} (henv : Meddling inv env)
    (hcoherent : ∀ w, inv w → (place.get w).log.Coherent) {w : W} (hw : inv w) {passed : Nat}
    {c : (Store.reads place).Cursor} (hc : c = Log.Cursor.forwards passed .all)
    {events : List (Placed Nat)}
    (h : (Store.reads place).Emits env w c events) :
    (passed :: events.map (·.position)).Pairwise PositionCodec.log.Before := by
  induction h generalizing passed with
  | nil w c => exact List.pairwise_singleton _ _
  | change hchange _ ih => exact ih (henv.keeps hw hchange) hc
  | @pull w later c next found events hpull _ ih =>
    subst hc
    have hfound : (w, (place.get w).log.pull (.forwards passed .all)) = (later, next, found) := hpull
    rw [Log.pull_all] at hfound
    cases he : (place.get w).log.events[passed]? with
    | none =>
      rw [he] at hfound
      obtain ⟨rfl, rfl, rfl⟩ := hfound
      exact ih hw rfl
    | some e =>
      rw [he] at hfound
      obtain ⟨rfl, rfl, rfl⟩ := hfound
      obtain ⟨hlt, rfl⟩ := List.getElem?_eq_some_iff.1 he
      have hposition := (hcoherent w hw).position_getElem hlt
      have hrest := ih hw rfl
      have hstep : PositionCodec.log.Before passed (passed + 1) :=
        PositionCodec.before_log_iff.2 (Nat.lt_succ_self passed)
      show (passed :: (place.get w).log.events[passed].position :: events.map (·.position)).Pairwise _
      rw [hposition, List.pairwise_cons]
      refine ⟨?_, hrest⟩
      intro q hq
      rcases List.mem_cons.1 hq with rfl | hq
      · exact hstep
      · exact PositionCodec.Total.log.trans hstep ((List.pairwise_cons.1 hrest).1 q hq)

/-- A store keeps the contract while its log is coherent. -/
theorem ordered_store {place : Place W Store} (henv : Meddling inv env)
    (hcoherent : ∀ w, inv w → (place.get w).log.Coherent) :
    (Store.eventReader place).Ordered inv env := by
  refine ⟨.log, fun w _ _ => henv.refl w, fun w _ _ => henv.refl w, ?_⟩
  intro w position c events hw hopen hemits
  exact ascending_of_store henv hcoherent hw (Except.ok.inj hopen).symm hemits

/-- Sources stitched from stores and sources without events, nested to any depth. -/
inductive Composite (ι : Type) : Scheme → Type where
  /-- One of the stores. -/
  | store (i : ι) : Composite ι .log
  /-- A source without events. -/
  | empty : Composite ι .empty
  /-- Two sources stitched at a cutoff. -/
  | stitched {b l : Scheme} (backfill : Composite ι b) (live : Composite ι l) (cutoff : l.Position) :
    Composite ι (.stitched b l)

variable {ι : Type} [DecidableEq ι]

/-- Where a family of stores keeps one of them. -/
def storeAt (i : ι) : Place (ι → Store) Store :=
  ⟨fun stores => stores i, fun stores store j => if j = i then store else stores j⟩

/-- The reader of a composite source. -/
def Composite.reader : {scheme : Scheme} → Composite ι scheme → EventReader (ι → Store) scheme.Position
  | _, store i => Store.eventReader (storeAt i)
  | _, empty => EmptySource.eventReader
  | _, stitched backfill live cutoff => .stitched backfill.reader live.reader cutoff

/-- Every composite source keeps the contract while others write to any of its stores. -/
theorem Composite.ordered {scheme : Scheme} (source : Composite ι scheme) :
    source.reader.Ordered (fun stores => ∀ i, (stores i).Reached)
      (fun stores later => ∀ i, (stores i).LeadsTo (later i)) := by
  have henv : Meddling (fun stores : ι → Store => ∀ i, (stores i).Reached)
      (fun stores later => ∀ i, (stores i).LeadsTo (later i)) :=
    ⟨fun _ _ => .same, fun huv hvw i => (huv i).trans (hvw i),
      fun hreached hlater i => (hlater i).reached (hreached i)⟩
  induction source with
  | store i => exact ordered_store henv fun stores hreached => (hreached i).coherent
  | empty => exact ordered_empty henv
  | stitched backfill live cutoff ihb ihl => exact ordered_stitched henv ihb ihl cutoff

end Composites

/-- Two sources that keep the contract of reads keep it when they are stitched, for every cutoff and every
start. No event of the backfill comes after a live one: what a read yields is a rest of the backfill, read
from the start's backfill component if the start is at the cutoff, followed by what the live source has
after the start's live component. So every nesting of stitched sources over stores and sources without
events keeps the contract, whoever writes to the stores meanwhile. -/
theorem read_order_composes {W B L : Type} [DecidableEq L] {inv : W → Prop} {env : W → W → Prop}
    {backfill : EventReader W B} {live : EventReader W L} (henv : Meddling inv env)
    (hbackfill : backfill.Ordered inv env) (hlive : live.Ordered inv env) (cutoff : L) :
    (EventReader.stitched backfill live cutoff).Ordered inv env ∧
      (∀ {w start s events}, inv w →
        (EventReader.stitched backfill live cutoff).forwardsFrom w start = .ok s →
          (EventReader.stitched backfill live cutoff).Emits env w s events →
            ∃ old new, events = spliced start old new ∧
              ((start.live = cutoff ∧
                  ∃ c, backfill.forwardsFrom w start.backfill = .ok c ∧ backfill.Emits env w c old) ∨
                (start.live ≠ cutoff ∧ old = [])) ∧
              ∃ d, live.forwardsFrom w start.live = .ok d ∧ live.Emits env w d new) ∧
      ∀ {ι : Type} [DecidableEq ι] {scheme : Scheme} (source : Composite ι scheme),
        source.reader.Ordered (fun stores => ∀ i, (stores i).Reached)
          (fun stores later => ∀ i, (stores i).LeadsTo (later i)) :=
  ⟨ordered_stitched henv hbackfill hlive cutoff,
    fun hw hopen hemits => split_of_forwardsFrom henv hbackfill hw hopen hemits,
    fun source => source.ordered⟩

/-- A read from inside a backfill whose live side is stitched itself meets the rest of the backfill, then
what is after the cutoff, and at last what arrived while it was open. -/
theorem read_order_composes_nested :
    let orders : StreamId := ⟨"orders", "1", by decide⟩
    let placed : NewEvent := ⟨"Placed", [1], []⟩
    let filled := (Store.withClock fun _ => .epoch).append orders [placed, placed]
    let stores : Bool → Store := fun _ => filled
    let later : Bool → Store := fun i => if i then filled.append orders [placed] else filled
    let inner : Composite Bool (.stitched .empty .log) := .stitched .empty (.store true) 0
    let reader := EventReader.stitched (Composite.store false).reader inner.reader ⟨(), 1⟩
    let start : StitchedPosition Nat (StitchedPosition Unit Nat) := ⟨1, ⟨(), 1⟩⟩
    let c : reader.Cursor :=
      Splice.mk (some (.forwards 1 .all)) (Splice.mk none (.forwards 1 .all) ⟨(), 1⟩) start
    let first := reader.take 9 stores c
    let second := reader.take 9 later first.2.1
    let positions := (Item.events first.2.2 ++ Item.events second.2.2).map (·.position)
    reader.forwardsFrom stores start = .ok c ∧
      positions = [⟨2, ⟨(), 1⟩⟩, ⟨2, ⟨(), 2⟩⟩, ⟨2, ⟨(), 3⟩⟩] ∧
        (start :: positions).Pairwise reader.codec.Before := by
  intro orders placed filled stores later inner reader start c first second positions
  have hfilled : filled.Reached := (Store.Reached.start fun _ => .epoch).append orders [placed, placed]
  have hreached : ∀ i, (stores i).Reached := fun _ => hfilled
  have hlater : ∀ i, (stores i).LeadsTo (later i) := by
    intro i
    cases i with
    | false => exact .same
    | true => exact Store.LeadsTo.same.append orders [placed]
  have hall := (read_order_composes ⟨fun _ _ => .same, fun huv hvw i => (huv i).trans (hvw i),
      fun hreached hlater i => (hlater i).reached (hreached i)⟩ (Composite.store false).ordered
      inner.ordered ⟨(), 1⟩).1
  have hemits : reader.Emits (fun stores later => ∀ i, (stores i).LeadsTo (later i)) stores c
      (Item.events first.2.2 ++ (Item.events second.2.2 ++ [])) :=
    .of_take rfl (.change (show ∀ i, (first.1 i).LeadsTo (later i) from hlater) (.of_take rfl (.nil _ _)))
  rw [List.append_nil] at hemits
  exact ⟨rfl, by decide +kernel, hall.ascending hreached rfl hemits⟩

end Stitch

end Chronicle
