import Chronicle.Position.Transition
import Chronicle.Proofs.Stitch.Consumer

/-!
# Consumers that leave a stitched source

A consumer leaves a stitched source in phases, and may go back. Three codecs and two sources meet the
texts that any of them kept. What they agree on is the live component of a text: at the cutoff it means
the backfill, which only the stitched source continues, and above it the live store, which both continue
in the same way. So whatever the order of the phases, the consumer moves along one sequence.
-/

namespace Chronicle.Stitch

/-- How a consumer is deployed while it leaves a stitched source. -/
inductive Phase where
  /-- It reads the stitched source and accepts its texts only. -/
  | stitched
  /-- It reads the stitched source and accepts live texts, too. -/
  | expanding
  /-- It reads the live source and accepts the texts that the live source can continue. -/
  | migrating
  deriving DecidableEq, Repr

variable (b : Backfill) (cutoff backfillEnd : Nat)

/-- The codec of the expanding phase. -/
def expandingCodec : PositionCodec (StitchedPosition b.scheme.Position Nat) :=
  .expanding b.reader.codec liveReader.codec (b.positionAt backfillEnd) cutoff

/-- The codec of the migrating phase. -/
def migratingCodec : PositionCodec Nat := .migrating liveReader.codec cutoff

/-- The deployment of a phase. -/
def phaseDeployment : Phase → Deployment
  | .stitched => stitchedWith b cutoff (stitchedReader b cutoff).codec
  | .expanding => stitchedWith b cutoff (expandingCodec b cutoff backfillEnd)
  | .migrating => ⟨Nat, liveReader, migratingCodec cutoff⟩

/-- A live read stands at a stage that has left the backfill. -/
def LiveAt (_ : Sources) (stage : Stage) (cursor : liveReader.Cursor) : Prop :=
  ∃ passed, stage = .live passed ∧ cursor = liveCursor passed

/-- The read of a phase stands at a stage. -/
def PhaseAt : (p : Phase) → Sources → Stage → (phaseDeployment b cutoff backfillEnd p).reader.Cursor → Prop
  | .stitched => StandsAt b cutoff
  | .expanding => StandsAt b cutoff
  | .migrating => LiveAt

/-- A text that one of the phases keeps at a stage: that of a stitched position, or that of a live one. -/
def Kept (stage : Stage) (text : String) : Prop :=
  Joined b cutoff stage text ∨
    ∃ passed, stage = .live passed ∧ text = liveReader.codec.serialize passed

variable {b cutoff backfillEnd} {w : Sources} {stage : Stage} {text : String}

/-- What both later phases make of a text that was kept: the expanding one accepts it at the stage where
it was kept, and the migrating one accepts the same live component, unless that is the cutoff. -/
theorem Kept.read (hw : w.Sound) (hc : cutoff < Numeral.wordLimit)
    (he : backfillEnd < Numeral.wordLimit) (hv : stage.Valid b cutoff w) (h : Kept b cutoff stage text) :
    ∃ position, LiesAt b cutoff stage position ∧
      (text = joinedText b position ∨ text = liveReader.codec.serialize position.live) ∧
      (expandingCodec b cutoff backfillEnd).deserialize text = .ok position ∧
      (migratingCodec cutoff).deserialize text =
        if position.live = cutoff then .error (.illegalState "Cannot handle positions in the backfill")
        else .ok position.live := by
  rcases h with ⟨position, hl, rfl⟩ | ⟨passed, rfl, rfl⟩
  · obtain ⟨hb, hlive⟩ := exact_liesAt hw hc hv hl
    exact ⟨position, hl, .inl rfl, PositionCodec.expanding_deserialize_joined hb hlive,
      PositionCodec.migrating_deserialize_joined hb hlive⟩
  · obtain ⟨hlt, hp⟩ := hv
    have hx : liveReader.codec.Exact passed :=
      PositionCodec.exact_log (Nat.lt_of_le_of_lt hp hw.live_size)
    refine ⟨⟨b.positionAt backfillEnd, passed⟩, ⟨rfl, b.exact_positionAt he⟩, .inr rfl,
      PositionCodec.expanding_deserialize_plain hx, ?_⟩
    rw [if_neg (by simp only; omega)]
    exact PositionCodec.migrating_deserialize_plain hx

/-- The stitched source's codec accepts a text that was kept only at the stage where it was kept. -/
theorem Kept.read_stitched (hw : w.Sound) (hc : cutoff < Numeral.wordLimit)
    (hv : stage.Valid b cutoff w) (h : Kept b cutoff stage text)
    {position : StitchedPosition b.scheme.Position Nat}
    (hd : (stitchedReader b cutoff).codec.deserialize text = .ok position) :
    LiesAt b cutoff stage position := by
  rcases h with ⟨kept, hl, rfl⟩ | ⟨passed, rfl, rfl⟩
  · rw [deserialize_joined hw hc hv hl] at hd
    cases hd
    exact hl
  · have hx : liveReader.codec.Exact passed :=
      PositionCodec.exact_log (Nat.lt_of_le_of_lt hv.2 hw.live_size)
    have hr : (stitchedReader b cutoff).codec.deserialize (liveReader.codec.serialize passed) = _ :=
      PositionCodec.stitched_deserialize_plain hx
    rw [hr] at hd
    cases hd

/-- A live component above the cutoff means a stage that has left the backfill. -/
theorem eq_live_of_liesAt {position : StitchedPosition b.scheme.Position Nat}
    (h : LiesAt b cutoff stage position) (hne : position.live ≠ cutoff) :
    stage = .live position.live := by
  cases stage with
  | backfill passed =>
    simp only [LiesAt] at h
    exact absurd (congrArg StitchedPosition.live h) hne
  | live passed => exact congrArg Stage.live h.1.symm

/-- The migrating phase opens a session exactly when the live component of the text is not the cutoff,
and there. -/
theorem resume_migrating {position : StitchedPosition b.scheme.Position Nat}
    (hd : (migratingCodec cutoff).deserialize text =
      if position.live = cutoff then .error (.illegalState "Cannot handle positions in the backfill")
      else .ok position.live) :
    (phaseDeployment b cutoff backfillEnd .migrating).resume w text =
      if position.live = cutoff then .error (.illegalState "Cannot handle positions in the backfill")
      else .ok ⟨liveCursor position.live, none⟩ := by
  by_cases h : position.live = cutoff
  · rw [if_pos h] at hd ⊢
    exact Deployment.resume_of_refused (d := phaseDeployment b cutoff backfillEnd .migrating) hd
  · rw [if_neg h] at hd ⊢
    exact Deployment.resume_of_denotes (d := phaseDeployment b cutoff backfillEnd .migrating) hd

/-- The migrating phase follows the stages of the stitched source that have left the backfill. -/
theorem migrating_follows (hc : cutoff < Numeral.wordLimit) (he : backfillEnd < Numeral.wordLimit) :
    (phaseDeployment b cutoff backfillEnd .migrating).Follows b cutoff (Kept b cutoff) LiveAt where
  resume := by
    intro w stage text hw hv ht s hs
    obtain ⟨position, hl, -, -, hd⟩ := ht.read hw hc he hv
    rw [resume_migrating hd] at hs
    by_cases hcut : position.live = cutoff
    · rw [if_pos hcut] at hs
      cases hs
    · rw [if_neg hcut] at hs
      cases hs
      exact ⟨⟨_, eq_live_of_liesAt hl hcut, rfl⟩, rfl⟩
  next := by
    intro w stage cursor hw hv hat
    obtain ⟨passed, rfl, rfl⟩ := hat
    have hp := pull_liveCursor hw passed
    simp only [Stage.next?]
    cases hn : w.live.log.events[passed]? with
    | none =>
      rw [hn] at hp
      have hnext := Reads.next_of_pull (r := liveReader.toReads) hp fun hskip => by cases hskip
      exact ⟨_, hnext, passed, rfl, rfl⟩
    | some e =>
      rw [hn] at hp
      have hnext := Reads.next_of_pull (r := liveReader.toReads) hp fun hskip => by cases hskip
      exact ⟨_, _, hnext, ⟨passed + 1, rfl, rfl⟩, .inr ⟨passed + 1, rfl, rfl⟩⟩
  close _ _ := rfl
  append _ _ hat := hat

/-- Every phase follows the stages of the stitched source. -/
theorem phase_follows (hc : cutoff < Numeral.wordLimit) (he : backfillEnd < Numeral.wordLimit)
    (p : Phase) : (phaseDeployment b cutoff backfillEnd p).Follows b cutoff (Kept b cutoff)
      (PhaseAt b cutoff backfillEnd p) := by
  cases p with
  | stitched =>
    refine stitchedWith_follows (fun _ => rfl) (fun _ _ h => .inl h) ?_
    intro w stage text position hw hv ht hd
    exact ht.read_stitched hw hc hv hd
  | expanding =>
    refine stitchedWith_follows (fun _ => rfl) (fun _ _ h => .inl h) ?_
    intro w stage text position hw hv ht hd
    obtain ⟨kept, hl, -, hk, -⟩ := ht.read hw hc he hv
    rw [hk] at hd
    cases hd
    exact hl
  | migrating => exact migrating_follows hc he

variable (b cutoff backfillEnd)

/-- A consumer that has not started yet, before any of the phases. -/
def leavingConsumer (w : Sources) : Consumer (phaseDeployment b cutoff backfillEnd) where
  world := w
  text := (stitchedReader b cutoff).codec.serialize (stitchedReader b cutoff).emptyPosition

/-- Whatever the order of the phases, and whatever is appended to the live store meanwhile, a consumer
has processed a prefix of the sequence: each event once, in order, and an open session takes exactly the
next one. The expanding phase accepts every text that was kept; the migrating phase refuses it exactly
when its live component is the cutoff. The positions involved are words. -/
theorem phases_follow_sequence (w : Sources) (acts : List (Act Phase))
    (hb : w.backfill.Reached) (hl : w.live.Reached) (hc : cutoff < Numeral.wordLimit)
    (he : backfillEnd < Numeral.wordLimit) (hbs : w.backfill.size < Numeral.wordLimit)
    (hls : (w.after acts).live.size < Numeral.wordLimit) :
    let c := (leavingConsumer b cutoff backfillEnd w).acts acts
    c.world = w.after acts ∧
      c.processed <+: sequence b cutoff c.world ∧
      (c.session.isSome = true →
        c.upcoming = (sequence b cutoff c.world)[c.processed.length]?.map .ok) ∧
      ∃ position,
        (c.text = joinedText b position ∨ c.text = liveReader.codec.serialize position.live) ∧
        (expandingCodec b cutoff backfillEnd).deserialize c.text = .ok position ∧
        (∃ s, (phaseDeployment b cutoff backfillEnd .expanding).resume c.world c.text = .ok s) ∧
        (phaseDeployment b cutoff backfillEnd .migrating).resume c.world c.text =
          if position.live = cutoff then
            .error (.illegalState "Cannot handle positions in the backfill")
          else .ok ⟨liveCursor position.live, none⟩ := by
  intro c
  have hstart : (leavingConsumer b cutoff backfillEnd w).Sound b cutoff (Kept b cutoff)
      (PhaseAt b cutoff backfillEnd) (.backfill 0) := by
    have hk : Kept b cutoff (.backfill 0) (leavingConsumer b cutoff backfillEnd w).text :=
      .inl ⟨_, liesAt_emptyPosition b cutoff, rfl⟩
    exact ⟨Nat.zero_le _, rfl, nofun, hk, .backfill 0, Nat.zero_le _, hk⟩
  obtain ⟨stage, hs, hwc, hw⟩ := hstart.acts (phase_follows hc he) acts hb hl hbs hls
  have hprefix : c.processed <+: sequence b cutoff c.world := by
    rw [hs.processed_eq]
    exact Stage.behind_prefix hw hs.valid
  obtain ⟨earlier, hv, hk⟩ := hs.text_saved
  obtain ⟨position, hlies, htext, hexpand, hmigrate⟩ := hk.read hw hc he hv
  exact ⟨hwc, hprefix, hs.upcoming_eq (phase_follows hc he) hw, position, htext, hexpand,
    resume_liesAt hv hexpand hlies, resume_migrating hmigrate⟩

/-- A consumer meets the end of the backfill, is refused by the migrating phase at the cutoff, migrates
after one live event, and goes back to the expanding phase with a live text. -/
theorem phases_follow_sequence_and_back :
    let orders : StreamId := ⟨"orders", "1", by decide⟩
    let empty := Store.withClock fun _ => .epoch
    let w : Sources := ⟨empty.append orders [⟨"Placed", [1], []⟩], empty⟩
    let acts : List (Act Phase) :=
      [.start .stitched, .take, .stop, .start .migrating, .append orders [⟨"Paid", [2], []⟩],
        .start .expanding, .take, .stop, .append orders [⟨"Sent", [3], []⟩], .start .migrating, .take,
        .stop, .append orders [⟨"Lost", [4], []⟩], .start .expanding, .take, .stop]
    let c := (leavingConsumer .store 0 7 w).acts acts
    w.backfill.Reached ∧ w.live.Reached ∧ 0 < Numeral.wordLimit ∧ 7 < Numeral.wordLimit ∧
      w.backfill.size < Numeral.wordLimit ∧ (w.after acts).live.size < Numeral.wordLimit ∧
      c.processed <+: sequence .store 0 (w.after acts) ∧
      (sequence .store 0 (w.after acts)).map (·.data) = [[1], [2], [3], [4]] ∧
      ∃ s, (phaseDeployment .store 0 7 .expanding).resume c.world c.text = .ok s := by
  intro orders empty w acts c
  have hempty : empty.Reached := .start _
  have hb : w.backfill.Reached := hempty.append _ _
  have hbs : w.backfill.size < Numeral.wordLimit := by decide
  have hls : (w.after acts).live.size < Numeral.wordLimit := by decide
  have hall := phases_follow_sequence .store 0 7 w acts hb hempty (by decide) (by decide) hbs hls
  obtain ⟨hw, hp, -, position, -, -, hexpand, -⟩ := hall
  exact ⟨hb, hempty, by decide, by decide, hbs, hls, hw ▸ hp, by decide, hexpand⟩

end Chronicle.Stitch
