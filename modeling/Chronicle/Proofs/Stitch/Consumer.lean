import Chronicle.Proofs.Access.Pulls
import Chronicle.Proofs.Stitch.Stages

/-!
# Consumers of a stitched source

A consumer works in sessions. A session reads the text that was kept, opens a read there, takes events,
and when it stops keeps the text of the last position it met. Others append to the live store at any
time. What carries a consumer through all sessions is that there is always one stage such that the events
behind it are those processed, the open read stands at it, and the text that would be kept denotes it.
-/

namespace Chronicle

namespace Stitch

/-- A way to deploy a consumer: the source that it reads and the codec of the texts that it keeps. -/
structure Deployment where
  /-- The positions of the source. -/
  Position : Type
  /-- The source. -/
  reader : EventReader Sources Position
  /-- The texts. -/
  codec : PositionCodec Position

/-- An open session of a deployment. -/
structure Session (d : Deployment) where
  /-- The open read. -/
  cursor : d.reader.Cursor
  /-- The position of the last event taken. -/
  last : Option d.Position := none

/-- Opens a session at the position that a text denotes. -/
def Deployment.resume (d : Deployment) (w : Sources) (text : String) : Except StoreError (Session d) := do
  let position ← d.codec.deserialize text
  let cursor ← d.reader.forwardsFrom w position
  return ⟨cursor, none⟩

namespace Deployment

variable {d : Deployment} {w : Sources} {text : String}

/-- A text that denotes a position opens a read from there. -/
theorem resume_of_denotes {position : d.Position} (h : d.codec.deserialize text = .ok position) :
    d.resume w text = (d.reader.forwardsFrom w position).map (⟨·, none⟩) := by
  unfold resume
  rw [h]
  change (d.reader.forwardsFrom w position >>= fun cursor => Except.ok (Session.mk cursor none)) = _
  cases d.reader.forwardsFrom w position <;> rfl

/-- A text that is refused opens no session. -/
theorem resume_of_refused {e : StoreError} (h : d.codec.deserialize text = .error e) :
    d.resume w text = .error e := by
  unfold resume
  rw [h]
  rfl

end Deployment

/-- What happens to a consumer with a choice of deployments. -/
inductive Act (ι : Type) where
  /-- Somebody appends to the live store. -/
  | append (stream : StreamId) (events : List NewEvent)
  /-- The consumer starts a session, unless one is open. -/
  | start (deployment : ι)
  /-- The open session takes the next event, if there is one. -/
  | take
  /-- The open session ends. -/
  | stop

/-- The sources after what was appended in the course of some acts. -/
def Sources.after {ι : Type} (w : Sources) : List (Act ι) → Sources
  | [] => w
  | .append stream events :: rest => (w.append stream events).after rest
  | _ :: rest => w.after rest

section Machine

variable {ι : Type} (d : ι → Deployment)

/-- A consumer with a choice of deployments, and the sources that it reads. -/
structure Consumer where
  /-- The sources. -/
  world : Sources
  /-- The text that was kept. -/
  text : String
  /-- The events processed so far. -/
  processed : List EventRecord := []
  /-- The open session and its deployment. -/
  session : Option ((i : ι) × Session (d i)) := none

namespace Consumer

variable {d}

/-- The text to be kept if the consumer stops now. -/
def kept (c : Consumer d) : String :=
  match c.session with
  | some ⟨i, ⟨_, some position⟩⟩ => (d i).codec.serialize position
  | _ => c.text

/-- A consumer starts a session. If its text is refused, it does nothing. -/
def start (c : Consumer d) (i : ι) : Consumer d :=
  match c.session with
  | some _ => c
  | none =>
    match (d i).resume c.world c.text with
    | .error _ => c
    | .ok s => { c with session := some ⟨i, s⟩ }

/-- A session takes the next result of its read. A failure is not processed. -/
def take (c : Consumer d) : Consumer d :=
  match c.session with
  | none => c
  | some ⟨i, s⟩ =>
    match (d i).reader.next c.world s.cursor with
    | (w, cursor, some (.ok e)) =>
      { c with
        world := w
        processed := c.processed ++ [e.record]
        session := some ⟨i, ⟨cursor, some e.position⟩⟩ }
    | (w, cursor, some (.error _)) => { c with world := w, session := some ⟨i, ⟨cursor, s.last⟩⟩ }
    | (w, cursor, none) => { c with world := w, session := some ⟨i, ⟨cursor, s.last⟩⟩ }

/-- A session gives up its read and keeps its text. -/
def stop (c : Consumer d) : Consumer d :=
  match c.session with
  | none => c
  | some ⟨i, s⟩ =>
    { c with
      world := (d i).reader.close c.world s.cursor
      text := c.kept
      session := none }

/-- One act. -/
def act (c : Consumer d) : Act ι → Consumer d
  | .append stream events => { c with world := c.world.append stream events }
  | .start i => c.start i
  | .take => c.take
  | .stop => c.stop

/-- Any number of acts. -/
def acts (c : Consumer d) (acts : List (Act ι)) : Consumer d := acts.foldl act c

/-- What the open session would take next, none without a session or at the end of the read. -/
def upcoming (c : Consumer d) : Option (Except StoreError EventRecord) :=
  match c.session with
  | none => none
  | some ⟨i, s⟩ => ((d i).reader.next c.world s.cursor).2.2.map (·.map (·.record))

/-- What the open session takes next is processed, unless it is a failure. -/
theorem take_processed_eq (c : Consumer d) : c.take.processed = c.processed ++
    (match c.upcoming with
      | some (.ok record) => [record]
      | _ => []) := by
  unfold take upcoming
  cases c.session with
  | none => exact (List.append_nil _).symm
  | some found =>
    obtain ⟨i, s⟩ := found
    dsimp only
    rcases (d i).reader.next c.world s.cursor with ⟨w, cursor, _ | e | e⟩
    · exact (List.append_nil _).symm
    · exact (List.append_nil _).symm
    · rfl

end Consumer

end Machine

/-- The sources stay sound if what is appended fits. -/
theorem Sources.Sound.of_after {ι : Type} {w : Sources} {acts : List (Act ι)}
    (hb : w.backfill.Reached) (hl : w.live.Reached) (hbs : w.backfill.size < Numeral.wordLimit)
    (hls : (w.after acts).live.size < Numeral.wordLimit) : w.Sound := by
  refine ⟨hb, hl, hbs, Nat.lt_of_le_of_lt ?_ hls⟩
  clear hb hl hbs hls
  induction acts generalizing w with
  | nil => exact Nat.le_refl _
  | cons act rest ih =>
    cases act with
    | append stream events =>
      have hg := (w.live.log.prefix_append stream events (w.live.clock w.live.asked)).length_le
      exact Nat.le_trans hg (ih (w := w.append stream events))
    | start i => exact ih
    | take => exact ih
    | stop => exact ih

section Following

variable (b : Backfill) (cutoff : Nat) (Saved : Stage → String → Prop)

/-- A deployment follows the stages that texts denote: from a text that it accepts it opens a read at
the stage, the read yields what follows the stage, and the text of what it yields denotes the stage
after that. -/
structure Deployment.Follows (d : Deployment) (At : Sources → Stage → d.reader.Cursor → Prop) :
    Prop where
  /-- A text is refused, or a read is opened at the stage that it denotes. -/
  resume : ∀ {w : Sources} {stage text}, w.Sound → stage.Valid b cutoff w → Saved stage text →
    ∀ {s}, d.resume w text = .ok s → At w stage s.cursor ∧ s.last = none
  /-- A read yields what follows the stage. -/
  next : ∀ {w : Sources} {stage cursor}, w.Sound → stage.Valid b cutoff w → At w stage cursor →
    match stage.next? b cutoff w with
    | some (record, later) => ∃ cursor' position,
        d.reader.next w cursor = (w, cursor', some (.ok ⟨position, record⟩)) ∧
          At w later cursor' ∧ Saved later (d.codec.serialize position)
    | none => ∃ cursor', d.reader.next w cursor = (w, cursor', none) ∧ At w stage cursor'
  /-- Giving up a read changes nothing. -/
  close : ∀ w cursor, d.reader.close w cursor = w
  /-- A read stays where it is when the live store grows. -/
  append : ∀ {w : Sources} {stage cursor} (stream : StreamId) (events : List NewEvent),
    At w stage cursor → At (w.append stream events) stage cursor

variable {ι : Type} {d : ι → Deployment} (At : ∀ i, Sources → Stage → (d i).reader.Cursor → Prop)

/-- The events processed are those behind a stage, where the open read stands and which the text that
would be kept denotes. The text that was kept denotes some stage, too. -/
structure Consumer.Sound (c : Consumer d) (stage : Stage) : Prop where
  /-- The stage lies in the sequence. -/
  valid : stage.Valid b cutoff c.world
  /-- What was processed is behind it. -/
  processed_eq : c.processed = stage.behind b cutoff c.world
  /-- The open read stands there. -/
  standing : ∀ i s, c.session = some ⟨i, s⟩ → At i c.world stage s.cursor
  /-- The text that would be kept denotes it. -/
  kept_saved : Saved stage c.kept
  /-- The text that was kept denotes a stage. -/
  text_saved : ∃ earlier : Stage, earlier.Valid b cutoff c.world ∧ Saved earlier c.text

variable {b cutoff Saved At}

namespace Consumer.Sound

variable {c : Consumer d} {stage : Stage}

/-- Events that are appended to the live store leave a consumer where it is. -/
theorem append (hf : ∀ i, (d i).Follows b cutoff Saved (At i)) (h : c.Sound b cutoff Saved At stage)
    (stream : StreamId) (events : List NewEvent) :
    (c.act (.append stream events)).Sound b cutoff Saved At stage where
  valid := Stage.valid_append stream events h.valid
  processed_eq := by
    have hb := Stage.behind_append stream events h.valid
    exact h.processed_eq.trans hb.symm
  standing i s hs := (hf i).append stream events (h.standing i s hs)
  kept_saved := h.kept_saved
  text_saved := by
    obtain ⟨earlier, hv, hs⟩ := h.text_saved
    exact ⟨earlier, Stage.valid_append stream events hv, hs⟩

/-- A consumer that starts a session stands where its text says, and otherwise stays as it is. -/
theorem start (hf : ∀ i, (d i).Follows b cutoff Saved (At i)) (hw : c.world.Sound)
    (h : c.Sound b cutoff Saved At stage) (i : ι) : (c.start i).Sound b cutoff Saved At stage := by
  unfold Consumer.start
  cases hs : c.session with
  | some open_ => exact h
  | none =>
    have hk : Saved stage c.text := by
      have hk := h.kept_saved
      unfold kept at hk
      rw [hs] at hk
      exact hk
    dsimp only
    cases hr : (d i).resume c.world c.text with
    | error e => exact h
    | ok s =>
      obtain ⟨hat, hlast⟩ := (hf i).resume hw h.valid hk hr
      obtain ⟨cursor, last⟩ := s
      simp only at hlast
      subst hlast
      refine ⟨h.valid, h.processed_eq, ?_, hk, h.text_saved⟩
      intro j t ht
      cases ht
      exact hat

/-- A session that takes an event moves on by one stage, and at the end of its read it stays. -/
theorem take (hf : ∀ i, (d i).Follows b cutoff Saved (At i)) (hw : c.world.Sound)
    (h : c.Sound b cutoff Saved At stage) : ∃ later, c.take.Sound b cutoff Saved At later ∧
      c.take.world = c.world ∧ c.take.session.isSome = c.session.isSome := by
  unfold Consumer.take
  cases hs : c.session with
  | none => exact ⟨stage, h, rfl, congrArg Option.isSome hs⟩
  | some found =>
    obtain ⟨i, s⟩ := found
    have hn := (hf i).next hw h.valid (h.standing i s hs)
    dsimp only
    cases hnext : stage.next? b cutoff c.world with
    | none =>
      rw [hnext] at hn
      obtain ⟨cursor, hc, hat⟩ := hn
      rw [hc]
      have hk := h.kept_saved
      unfold kept at hk
      rw [hs] at hk
      refine ⟨stage, ⟨h.valid, h.processed_eq, ?_, ?_, h.text_saved⟩, rfl, rfl⟩
      · intro j t ht
        cases ht
        exact hat
      · obtain ⟨_, last⟩ := s
        cases last <;> exact hk
    | some following =>
      obtain ⟨record, later⟩ := following
      rw [hnext] at hn
      obtain ⟨cursor, position, hc, hat, hk⟩ := hn
      rw [hc]
      refine ⟨later, ⟨Stage.valid_next h.valid hnext, ?_, ?_, hk, h.text_saved⟩, rfl, rfl⟩
      · rw [Stage.behind_next h.valid hnext, ← h.processed_eq]
      · intro j t ht
        cases ht
        exact hat

/-- A session that stops leaves the text of the stage where it stood. -/
theorem stop (hf : ∀ i, (d i).Follows b cutoff Saved (At i)) (h : c.Sound b cutoff Saved At stage) :
    c.stop.Sound b cutoff Saved At stage ∧ c.stop.world = c.world := by
  unfold Consumer.stop
  cases hs : c.session with
  | none => exact ⟨h, rfl⟩
  | some found =>
    obtain ⟨i, s⟩ := found
    dsimp only
    rw [(hf i).close]
    refine ⟨⟨h.valid, h.processed_eq, ?_, h.kept_saved, stage, h.valid, h.kept_saved⟩, rfl⟩
    intro j t ht
    cases ht

/-- Acts keep a consumer sound and change the sources only by what is appended. -/
theorem acts (hf : ∀ i, (d i).Follows b cutoff Saved (At i)) (acts : List (Act ι))
    (hb : c.world.backfill.Reached) (hl : c.world.live.Reached)
    (hbs : c.world.backfill.size < Numeral.wordLimit)
    (hls : (c.world.after acts).live.size < Numeral.wordLimit)
    (h : c.Sound b cutoff Saved At stage) :
    ∃ later, (c.acts acts).Sound b cutoff Saved At later ∧
      (c.acts acts).world = c.world.after acts ∧ (c.acts acts).world.Sound := by
  induction acts generalizing c stage with
  | nil => exact ⟨stage, h, rfl, hb, hl, hbs, hls⟩
  | cons act rest ih =>
    have hw : c.world.Sound := .of_after hb hl hbs hls
    cases act with
    | append stream events =>
      exact ih (c := c.act (.append stream events)) hb (hl.append stream events) hbs hls
        (h.append hf stream events)
    | start i =>
      have hwi : (c.start i).world = c.world := by
        unfold Consumer.start
        split
        · rfl
        · split <;> rfl
      have hi := ih (c := c.start i) (by rw [hwi]; exact hb) (by rw [hwi]; exact hl)
        (by rw [hwi]; exact hbs) (by rw [hwi]; exact hls) (h.start hf hw i)
      rw [hwi] at hi
      exact hi
    | take =>
      obtain ⟨later, ht, hwt, -⟩ := h.take hf hw
      have hi := ih (c := c.take) (by rw [hwt]; exact hb) (by rw [hwt]; exact hl)
        (by rw [hwt]; exact hbs) (by rw [hwt]; exact hls) ht
      rw [hwt] at hi
      exact hi
    | stop =>
      obtain ⟨hs, hws⟩ := h.stop hf
      have hi := ih (c := c.stop) (by rw [hws]; exact hb) (by rw [hws]; exact hl)
        (by rw [hws]; exact hbs) (by rw [hws]; exact hls) hs
      rw [hws] at hi
      exact hi

/-- An open session would take exactly the event of the sequence after those processed. -/
theorem upcoming_eq (hf : ∀ i, (d i).Follows b cutoff Saved (At i)) (hw : c.world.Sound)
    (h : c.Sound b cutoff Saved At stage) (hs : c.session.isSome = true) :
    c.upcoming = (sequence b cutoff c.world)[c.processed.length]?.map .ok := by
  obtain ⟨⟨i, s⟩, hs⟩ := Option.isSome_iff_exists.1 hs
  have hn := (hf i).next hw h.valid (h.standing i s hs)
  rw [h.processed_eq, Stage.sequence_getElem? hw h.valid]
  unfold upcoming
  rw [hs]
  dsimp only
  cases hnext : stage.next? b cutoff c.world with
  | none =>
    rw [hnext] at hn
    obtain ⟨cursor, hc, -⟩ := hn
    rw [hc]
    rfl
  | some following =>
    obtain ⟨record, later⟩ := following
    rw [hnext] at hn
    obtain ⟨cursor, position, hc, -, -⟩ := hn
    rw [hc]
    rfl

/-- What an open session takes is added to what was processed. -/
theorem take_processed (hf : ∀ i, (d i).Follows b cutoff Saved (At i)) (hw : c.world.Sound)
    (h : c.Sound b cutoff Saved At stage) (hs : c.session.isSome = true) :
    c.take.processed = c.processed ++ (sequence b cutoff c.world)[c.processed.length]?.toList := by
  have hu := h.upcoming_eq hf hw hs
  rw [c.take_processed_eq, hu]
  cases (sequence b cutoff c.world)[c.processed.length]? <;> rfl

/-- A session that takes often enough has processed the whole sequence. -/
theorem takes (hf : ∀ i, (d i).Follows b cutoff Saved (At i)) (hw : c.world.Sound)
    (h : c.Sound b cutoff Saved At stage) (hs : c.session.isSome = true) {n : Nat}
    (hn : (sequence b cutoff c.world).length ≤ c.processed.length + n) :
    (c.acts (List.replicate n .take)).processed = sequence b cutoff c.world := by
  induction n generalizing c stage with
  | zero =>
    have hp := Stage.behind_prefix hw h.valid
    rw [← h.processed_eq] at hp
    exact hp.eq_of_length_le hn
  | succ n ih =>
    obtain ⟨later, ht, hwt, hst⟩ := h.take hf hw
    have hp := h.take_processed hf hw hs
    have hi := ih (c := c.take) (by rw [hwt]; exact hw) ht (by rw [hst]; exact hs) ?_
    · rw [hwt] at hi
      exact hi
    · rw [hwt, hp]
      by_cases hlt : c.processed.length < (sequence b cutoff c.world).length
      · rw [List.getElem?_eq_getElem hlt, Option.toList_some, List.length_append, List.length_singleton]
        omega
      · rw [List.getElem?_eq_none (by omega), Option.toList_none, List.append_nil]
        omega

end Consumer.Sound

end Following

section Spliced

variable (b : Backfill) (cutoff : Nat)

/-- A deployment that reads the stitched source, with some codec of its positions. -/
def stitchedWith (codec : PositionCodec (StitchedPosition b.scheme.Position Nat)) : Deployment :=
  ⟨_, stitchedReader b cutoff, codec⟩

/-- The text of a position of the stitched source. -/
def joinedText (position : StitchedPosition b.scheme.Position Nat) : String :=
  PositionCodec.stitchedText b.reader.codec liveReader.codec position

/-- A text is that of a position at a stage. -/
def Joined (stage : Stage) (text : String) : Prop :=
  ∃ position, LiesAt b cutoff stage position ∧ text = joinedText b position

variable {b cutoff}

/-- A deployment of the stitched source follows the stages if its texts do. -/
theorem stitchedWith_follows {codec : PositionCodec (StitchedPosition b.scheme.Position Nat)}
    {Saved : Stage → String → Prop} (hs : ∀ position, codec.serialize position = joinedText b position)
    (hj : ∀ stage text, Joined b cutoff stage text → Saved stage text)
    (hd : ∀ {w : Sources} {stage text position}, w.Sound → stage.Valid b cutoff w →
      Saved stage text → codec.deserialize text = .ok position → LiesAt b cutoff stage position) :
    (stitchedWith b cutoff codec).Follows b cutoff Saved (StandsAt b cutoff) where
  resume := by
    intro w stage text hw hv ht s hs
    cases hp : codec.deserialize text with
    | error e =>
      rw [Deployment.resume_of_refused (d := stitchedWith b cutoff codec) hp] at hs
      cases hs
    | ok position =>
      obtain ⟨read, hr, hat⟩ := forwardsFrom_liesAt hv (hd hw hv ht hp)
      have ho := Deployment.resume_of_denotes (d := stitchedWith b cutoff codec) (w := w) hp
      have hr' : (stitchedWith b cutoff codec).reader.forwardsFrom w position = .ok read := hr
      rw [hr'] at ho
      rw [ho] at hs
      cases hs
      exact ⟨hat, rfl⟩
  next := by
    intro w stage s hw hv hat
    have hp := pull_standsAt hw hv hat
    cases hn : stage.next? b cutoff w with
    | none =>
      rw [hn] at hp
      obtain ⟨s', hpull, hat'⟩ := hp
      exact ⟨s', Reads.next_of_pull (r := (stitchedReader b cutoff).toReads) hpull nofun, hat'⟩
    | some following =>
      obtain ⟨record, later⟩ := following
      rw [hn] at hp
      obtain ⟨s', position, hpull, hat', hl⟩ := hp
      exact ⟨s', position, Reads.next_of_pull (r := (stitchedReader b cutoff).toReads) hpull nofun, hat',
        hj _ _ ⟨position, hl, hs position⟩⟩
  close := close_spliced
  append stream events hat := standsAt_append hat stream events

/-- A text that is read as a position at a stage opens a session of the stitched source. -/
theorem resume_liesAt {codec : PositionCodec (StitchedPosition b.scheme.Position Nat)} {w : Sources}
    {stage : Stage} (hv : stage.Valid b cutoff w) {text : String}
    {position : StitchedPosition b.scheme.Position Nat} (hd : codec.deserialize text = .ok position)
    (hl : LiesAt b cutoff stage position) :
    ∃ s, (stitchedWith b cutoff codec).resume w text = .ok s := by
  obtain ⟨read, hr, -⟩ := forwardsFrom_liesAt hv hl
  have ho := Deployment.resume_of_denotes (d := stitchedWith b cutoff codec) (w := w) hd
  have hr' : (stitchedWith b cutoff codec).reader.forwardsFrom w position = .ok read := hr
  rw [hr'] at ho
  exact ⟨_, ho⟩

/-- The stitched source's codec reads back its texts. -/
theorem deserialize_joined {w : Sources} (hw : w.Sound) (hc : cutoff < Numeral.wordLimit)
    {stage : Stage} (hv : stage.Valid b cutoff w) {position : StitchedPosition b.scheme.Position Nat}
    (hl : LiesAt b cutoff stage position) :
    (stitchedReader b cutoff).codec.deserialize (joinedText b position) = .ok position := by
  obtain ⟨hb, hlive⟩ := exact_liesAt hw hc hv hl
  exact PositionCodec.stitched_deserialize_joined hb hlive

variable (b cutoff)

/-- The stitched source with its own codec. -/
def stitchedDeployment : Unit → Deployment := fun _ =>
  stitchedWith b cutoff (stitchedReader b cutoff).codec

/-- A consumer of the stitched source that has not started yet. -/
def stitchedConsumer (w : Sources) : Consumer (stitchedDeployment b cutoff) where
  world := w
  text := (stitchedReader b cutoff).codec.serialize (stitchedReader b cutoff).emptyPosition

/-- The empty position lies where nothing is passed. -/
theorem liesAt_emptyPosition :
    LiesAt b cutoff (.backfill 0) (stitchedReader b cutoff).emptyPosition := by
  have he := b.emptyPosition_eq
  change StitchedPosition.mk b.reader.emptyPosition cutoff = _
  rw [he]

/-- Whatever a consumer of the stitched source does, and whatever is appended to the live store
meanwhile, it has processed a prefix of the sequence: each event once, in order. No session is refused;
an open one takes exactly the next event of the sequence, or ends there; and a session that takes often
enough has processed the whole. The positions involved are words. -/
theorem stitched_sessions_follow_sequence (w : Sources) (acts : List (Act Unit))
    (hb : w.backfill.Reached) (hl : w.live.Reached) (hc : cutoff < Numeral.wordLimit)
    (hbs : w.backfill.size < Numeral.wordLimit) (hls : (w.after acts).live.size < Numeral.wordLimit) :
    let c := (stitchedConsumer b cutoff w).acts acts
    c.world = w.after acts ∧
      c.processed <+: sequence b cutoff c.world ∧
      (c.start ()).session.isSome = true ∧
      (c.session.isSome = true →
        c.upcoming = (sequence b cutoff c.world)[c.processed.length]?.map .ok) ∧
      ∀ n, (sequence b cutoff c.world).length ≤ n →
        ((c.start ()).acts (List.replicate n .take)).processed = sequence b cutoff c.world := by
  intro c
  have hf : ∀ i, (stitchedDeployment b cutoff i).Follows b cutoff (Joined b cutoff)
      (StandsAt b cutoff) := by
    intro i
    refine stitchedWith_follows (fun _ => rfl) (fun _ _ h => h) ?_
    intro w stage text position hw hv ht hd
    obtain ⟨kept, hk, rfl⟩ := ht
    rw [deserialize_joined hw hc hv hk] at hd
    cases hd
    exact hk
  have hstart : (stitchedConsumer b cutoff w).Sound b cutoff (Joined b cutoff)
      (fun _ => StandsAt b cutoff) (.backfill 0) := by
    have hj : Joined b cutoff (.backfill 0) (stitchedConsumer b cutoff w).text :=
      ⟨_, liesAt_emptyPosition b cutoff, rfl⟩
    exact ⟨Nat.zero_le _, rfl, nofun, hj, .backfill 0, Nat.zero_le _, hj⟩
  obtain ⟨stage, hs, hwc, hw⟩ := hstart.acts hf acts hb hl hbs hls
  have hopen : (c.start ()).session.isSome = true := by
    unfold Consumer.start
    cases hsession : c.session with
    | some found =>
      dsimp only
      rw [hsession]
      rfl
    | none =>
      obtain ⟨earlier, hv, position, hp, ht⟩ := hs.text_saved
      have hd : (stitchedReader b cutoff).codec.deserialize c.text = .ok position := by
        rw [show c.text = _ from ht]
        exact deserialize_joined hw hc hv hp
      obtain ⟨s, hr⟩ := resume_liesAt hv hd hp
      have hr' : (stitchedDeployment b cutoff ()).resume c.world c.text = .ok s := hr
      dsimp only
      rw [hr']
      rfl
  have hprefix : c.processed <+: sequence b cutoff c.world := by
    rw [hs.processed_eq]
    exact Stage.behind_prefix hw hs.valid
  have hwstart : (c.start ()).world = c.world := by
    unfold Consumer.start
    split
    · rfl
    · split <;> rfl
  refine ⟨hwc, hprefix, hopen, hs.upcoming_eq hf hw, ?_⟩
  intro n hn
  have ht := (hs.start hf hw ()).takes hf (by rw [hwstart]; exact hw) hopen (n := n) (by
    rw [hwstart]
    exact Nat.le_trans hn (Nat.le_add_left _ _))
  rw [hwstart] at ht
  exact ht

/-- A consumer stops in the backfill, meets an event that arrived meanwhile, and stops again. The event
that the live store already held at the cutoff is not processed twice. -/
theorem stitched_sessions_follow_sequence_resuming :
    let orders : StreamId := ⟨"orders", "1", by decide⟩
    let empty := Store.withClock fun _ => .epoch
    let w : Sources := ⟨empty.append orders [⟨"Placed", [1], []⟩, ⟨"Paid", [2], []⟩],
      empty.append orders [⟨"Paid", [2], []⟩]⟩
    let acts : List (Act Unit) :=
      [.start (), .take, .stop, .append orders [⟨"Sent", [3], []⟩], .start (), .take, .take, .stop]
    let c := (stitchedConsumer .store 1 w).acts acts
    w.backfill.Reached ∧ w.live.Reached ∧ 1 < Numeral.wordLimit ∧
      w.backfill.size < Numeral.wordLimit ∧ (w.after acts).live.size < Numeral.wordLimit ∧
      c.processed <+: sequence .store 1 c.world ∧
      ((c.start ()).acts (List.replicate 3 .take)).processed.map (·.data) = [[1], [2], [3]] := by
  intro orders empty w acts c
  have hempty : empty.Reached := .start _
  have hb : w.backfill.Reached := hempty.append _ _
  have hl : w.live.Reached := hempty.append _ _
  have hbs : w.backfill.size < Numeral.wordLimit := by decide
  have hls : (w.after acts).live.size < Numeral.wordLimit := by decide
  have hseq : (sequence .store 1 (w.after acts)).map (·.data) = [[1], [2], [3]] := by decide
  obtain ⟨hw, hp, -, -, hall⟩ := stitched_sessions_follow_sequence .store 1 w acts hb hl (by decide) hbs hls
  refine ⟨hb, hl, by decide, hbs, hls, hp, ?_⟩
  have hlen := congrArg List.length hseq
  rw [List.length_map] at hlen
  have h3 := hall 3 (by rw [hw]; exact Nat.le_of_eq hlen)
  rw [h3, hw]
  exact hseq

end Spliced

end Stitch

end Chronicle
