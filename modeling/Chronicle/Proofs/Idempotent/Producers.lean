import Chronicle.Proofs.Idempotent.Repeating

/-!
# Many producers of the same events

Several producers hold the same events, each a first part of them, and each writes its part to one stream
after the version that the stream had. Their steps fall in any order, and nobody else writes to the
stream. What was written so far is always a first part of the common events, and every write under way
stands somewhere in it, so whatever a read finds is what its producer holds there. A write that comes too
late is behind the stream: it reads again, pairs at least one event of the others, and so every write is
over after a bounded number of its own steps.
-/

namespace Chronicle

namespace Idempotent

/-- A producer: the events it wants in the stream, and what it takes for the same event. -/
structure Producer where
  /-- The events, in order. -/
  batch : List NewEvent
  /-- When a stored event counts as one of them. -/
  compatible : Compatibility := .basic

/-- The write of a producer. -/
structure Client where
  /-- Whose write it is. -/
  producer : Producer
  /-- What it does next. -/
  next : Next Log.Cursor
  /-- How many steps it has taken. -/
  turns : Nat := 0

/-- A world with a store and the writes of several producers. -/
structure Crowd (W : Type) where
  /-- The world with the store. -/
  world : W
  /-- The writes. -/
  clients : List Client

/-- Who does something. -/
inductive Move where
  /-- A write takes a step. -/
  | own (index : Nat)
  /-- Another writer appends a batch. -/
  | other (stream : StreamId) (events : List NewEvent)

/-- A move of other writers goes to other streams. -/
def Move.Spares (stream : StreamId) : Move → Prop
  | .own _ => True
  | .other target _ => target ≠ stream

instance (stream : StreamId) : (move : Move) → Decidable (move.Spares stream)
  | .own _ => inferInstanceAs (Decidable True)
  | .other target _ => inferInstanceAs (Decidable (target ≠ stream))

/-- A write has returned. -/
def Client.Over (client : Client) : Prop := ∃ outcome, client.next = .ended outcome

instance (client : Client) : Decidable client.Over :=
  match h : client.next with
  | .ended outcome => .isTrue ⟨outcome, h⟩
  | .going _ => .isFalse fun ⟨_, ho⟩ => by rw [h] at ho; cases ho

/-- What is left to do for a write: an event to pair may cost a refused write before it, and a write that
is behind has been refused already. -/
def effort (log : Log) (stream : StreamId) : Next Log.Cursor → Nat
  | .ended _ => 0
  | .going p => 4 * p.remaining.length +
      match p.phase with
      | .opening => if p.expected < log.version stream then 2 else 5
      | .pairing _ => if p.expected < log.version stream then 1 else 4
      | .writing => 3

section Effort

variable {log : Log} {stream : StreamId} {p : Progress Log.Cursor}

/-- A write that is over has nothing left to do. -/
theorem effort_ended (outcome : WriteOutcome) : effort log stream (.ended outcome) = 0 := rfl

/-- What is left to do before a read. -/
theorem effort_opening (hp : p.phase = .opening) : effort log stream (.going p) =
    4 * p.remaining.length + if p.expected < log.version stream then 2 else 5 := by
  unfold effort
  simp only [hp]

/-- What is left to do during a read. -/
theorem effort_pairing {cursor : Log.Cursor} (hp : p.phase = .pairing cursor) :
    effort log stream (.going p) =
      4 * p.remaining.length + if p.expected < log.version stream then 1 else 4 := by
  unfold effort
  simp only [hp]

/-- What is left to do after a read. -/
theorem effort_writing (hp : p.phase = .writing) :
    effort log stream (.going p) = 4 * p.remaining.length + 3 := by
  unfold effort
  simp only [hp]

/-- What is left to do for a write that has not taken a step. -/
theorem effort_start (log : Log) (stream : StreamId) (batch : List NewEvent) :
    effort log stream (.going (.start batch (log.version stream))) = 4 * batch.length + 5 :=
  (effort_opening rfl).trans (congrArg (4 * batch.length + ·) (if_neg (Int.lt_irrefl _)))

/-- A write under way has something left to do. -/
theorem effort_pos (log : Log) (stream : StreamId) (p : Progress Log.Cursor) :
    0 < effort log stream (.going p) := by
  cases hp : p.phase with
  | opening => rw [effort_opening hp]; split <;> omega
  | pairing cursor => rw [effort_pairing hp]; split <;> omega
  | writing => rw [effort_writing hp]; omega

end Effort

section Crowds

variable {W : Type} (place : Place W Store) (allowance : Nat)

/-- The writes of producers that have not taken a step, all after one version. -/
def Crowd.start (world : W) (producers : List Producer) (expected : Int) : Crowd W :=
  { world := world
    clients := producers.map fun producer =>
      { producer := producer, next := .going (.start producer.batch expected) } }

/-- A step of a write. A write that is over does nothing more. -/
def Client.turn (stream : StreamId) (w : W) (client : Client) : W × Client :=
  match client.next with
  | .ended _ => (w, client)
  | .going p =>
    let stepped := stepOnStore place client.producer.compatible none allowance w stream p
    (stepped.1, { client with next := stepped.2, turns := client.turns + 1 })

/-- One move. -/
def Crowd.move (stream : StreamId) (crowd : Crowd W) : Move → Crowd W
  | .other other events =>
    { crowd with world := place.set crowd.world ((place.get crowd.world).append other events) }
  | .own index =>
    match crowd.clients[index]? with
    | none => crowd
    | some client =>
      let turned := client.turn place allowance stream crowd.world
      { world := turned.1, clients := crowd.clients.set index turned.2 }

/-- Any number of moves. -/
def Crowd.moves (stream : StreamId) (crowd : Crowd W) (moves : List Move) : Crowd W :=
  moves.foldl (Crowd.move place allowance stream) crowd

end Crowds

/-- A stream holds what it held and the first of some events after that. -/
structure Written (log : Log) (stream : StreamId) (old : List (Placed Nat)) (common : List NewEvent)
    (written : Nat) : Prop where
  /-- The log is coherent. -/
  coherent : log.Coherent
  /-- No more are written than there are. -/
  written_le : written ≤ common.length
  /-- They are written in order behind what was there. -/
  events : ∃ new, log.streamEvents stream = old ++ new ∧ new.map (·.record.content) = common.take written

/-- A write under way stands after some of the events written, and what it has left are the events of its
batch from there on. -/
structure Follows (log : Log) (stream : StreamId) (old : Nat) (batch : List NewEvent) (written : Nat)
    (p : Progress Log.Cursor) : Prop where
  /-- Where it stands. -/
  stands : ∃ m ≤ batch.length, m ≤ written ∧ p.remaining = batch.drop m ∧ p.expected + 1 = old + m
  /-- Its read has passed the stream up to there. -/
  read : ∀ cursor, p.phase = .pairing cursor → ∃ passed after,
    cursor = .forwards passed (.streamAfter stream after) ∧ ReadUpTo log stream p.expected passed after

/-- What holds of a write among those of other producers. -/
structure Client.Sound (log : Log) (stream : StreamId) (old : Nat) (common : List NewEvent) (written : Nat)
    (client : Client) : Prop where
  /-- Its events are the first of the common ones. -/
  batch_prefix : client.producer.batch <+: common
  /-- It takes a stored event for the one that it was made from. -/
  acceptsOwn : client.producer.compatible.AcceptsOwn
  /-- It is under way and follows what is written, or it is over and all of its events are. -/
  state : match client.next with
    | .going p => Follows log stream old client.producer.batch written p
    | .ended outcome => outcome = .accepted ∧ client.producer.batch.length ≤ written
  /-- It has taken no more steps than it may. -/
  turns_le : client.turns + effort log stream client.next ≤ 4 * client.producer.batch.length + 5

section Writing

variable {log : Log} {stream : StreamId} {old : List (Placed Nat)} {common : List NewEvent} {written : Nat}

/-- The version counts what was there and what is written. -/
theorem Written.version_eq (h : Written log stream old common written) :
    log.version stream + 1 = old.length + written := by
  obtain ⟨new, hevents, hnew⟩ := h.events
  have hlen := congrArg List.length hnew
  rw [List.length_map, List.length_take_of_le h.written_le] at hlen
  have hcount := Log.length_streamEvents log stream
  rw [hevents, List.length_append] at hcount
  have hv := h.coherent.version_eq stream
  omega

/-- An event of the stream beyond what was there is the one of the common events in its place. -/
theorem Written.content_eq (h : Written log stream old common written) {e : Placed Nat}
    (he : e ∈ log.events) (hs : e.record.stream = stream) {m : Nat}
    (hn : e.record.number = old.length + m) : common[m]? = some e.record.content ∧ m < written := by
  obtain ⟨new, hevents, hnew⟩ := h.events
  have hindex : e.record.number = (old.length + m : Nat) := by omega
  have hat := h.coherent.getElem?_streamEvents he hs hindex
  rw [hevents, List.getElem?_append_right (by omega), Nat.add_sub_cancel_left] at hat
  have hcontent : (common.take written)[m]? = some e.record.content := by
    rw [← hnew, List.getElem?_map, hat, Option.map_some]
  rw [List.getElem?_take] at hcontent
  split at hcontent
  · rename_i hlt
    exact ⟨hcontent, hlt⟩
  · cases hcontent

/-- A first part of the common events is written whole by writing its rest behind what is written. -/
theorem Written.append (h : Written log stream old common written) {batch : List NewEvent}
    (hb : batch <+: common) (hle : written ≤ batch.length) (timestamp : Timestamp) :
    Written (log.append stream (batch.drop written) timestamp) stream old common batch.length := by
  obtain ⟨new, hevents, hnew⟩ := h.events
  refine ⟨h.coherent.append _ _ _, hb.length_le, ?_⟩
  refine ⟨_, by rw [Log.streamEvents_append_self, hevents, List.append_assoc], ?_⟩
  rw [List.map_append, hnew, Log.map_content_placeBatch, ← List.prefix_iff_eq_take.1 hb]
  have htake : common.take written = batch.take written := take_of_grown hb hle
  rw [htake, List.take_append_drop]

/-- A batch for another stream changes nothing that is written. -/
theorem Written.append_ne (h : Written log stream old common written) {other : StreamId}
    (hne : other ≠ stream) (events : List NewEvent) (timestamp : Timestamp) :
    Written (log.append other events timestamp) stream old common written := by
  obtain ⟨new, hevents, hnew⟩ := h.events
  exact ⟨h.coherent.append _ _ _, h.written_le, new,
    by rw [Log.streamEvents_append_ne log hne.symm, hevents], hnew⟩

/-- What is left to do does not grow with the log. -/
theorem effort_mono {log' : Log} (hv : log.version stream ≤ log'.version stream)
    (next : Next Log.Cursor) : effort log' stream next ≤ effort log stream next := by
  cases next with
  | ended outcome => exact Nat.le_refl _
  | going p =>
    cases hp : p.phase with
    | opening => rw [effort_opening hp, effort_opening hp]; split <;> split <;> omega
    | pairing cursor => rw [effort_pairing hp, effort_pairing hp]; split <;> split <;> omega
    | writing => exact Nat.le_of_eq ((effort_writing hp).trans (effort_writing hp).symm)

/-- A write stays sound when others write. -/
theorem Client.Sound.grow {client : Client} {later : Nat} {log' : Log} {already : Nat}
    (h : client.Sound log stream already common written) (hl : log.events <+: log'.events)
    (hv : log.version stream ≤ log'.version stream) (hw : written ≤ later) :
    client.Sound log' stream already common later := by
  have hstate := h.state
  have hturns := h.turns_le
  have heffort := effort_mono hv client.next
  refine ⟨h.batch_prefix, h.acceptsOwn, ?_, by omega⟩
  cases hn : client.next with
  | ended outcome =>
    rw [hn] at hstate
    exact ⟨hstate.1, Nat.le_trans hstate.2 hw⟩
  | going p =>
    rw [hn] at hstate
    obtain ⟨m, hm, hmw, hr, he⟩ := hstate.stands
    refine ⟨⟨m, hm, Nat.le_trans hmw hw, hr, he⟩, ?_⟩
    intro cursor hp
    obtain ⟨passed, after, hcursor, hread⟩ := hstate.read cursor hp
    exact ⟨passed, after, hcursor, hread.mono hl⟩

end Writing

section Stepping

variable {W : Type} {place : Place W Store} {allowance : Nat} {stream : StreamId}
  {common : List NewEvent} {written : Nat}

section Client

variable {log : Log} {already : Nat} {client : Client} {p : Progress Log.Cursor}

/-- A write stays sound when it moves on to something that takes less. -/
theorem Client.Sound.onward (h : client.Sound log stream already common written)
    (hn : client.next = .going p) {next : Next Log.Cursor}
    (hstate : match next with
      | .going later => Follows log stream already client.producer.batch written later
      | .ended outcome => outcome = .accepted ∧ client.producer.batch.length ≤ written)
    (heffort : effort log stream next < effort log stream (.going p)) :
    Client.Sound log stream already common written
      { client with next := next, turns := client.turns + 1 } := by
  have hturns := h.turns_le
  rw [hn] at hturns
  exact ⟨h.batch_prefix, h.acceptsOwn, hstate, by dsimp only; omega⟩

/-- Once the pairing is over, the write is over or turns to writing. -/
theorem Client.Sound.paired (h : client.Sound log stream already common written)
    (hn : client.next = .going p) (hphase : p.phase ≠ .writing)
    (hv : p.remaining = [] ∨ log.version stream ≤ p.expected) :
    Client.Sound log stream already common written
      { client with next := p.paired, turns := client.turns + 1 } := by
  have hstate := h.state
  rw [hn] at hstate
  obtain ⟨m, hm, hmw, hr, he⟩ := hstate.stands
  refine h.onward hn ?_ ?_
  · unfold Progress.paired
    by_cases hz : p.remaining.isEmpty = true
    · rw [if_pos hz]
      have hdrop : client.producer.batch.drop m = [] := hr ▸ List.isEmpty_iff.1 hz
      exact ⟨rfl, Nat.le_trans (List.drop_eq_nil_iff.1 hdrop) hmw⟩
    · rw [if_neg hz]
      exact ⟨⟨m, hm, hmw, hr, he⟩, fun _ hp => by cases hp⟩
  · unfold Progress.paired
    by_cases hz : p.remaining.isEmpty = true
    · rw [if_pos hz, effort_ended]
      exact effort_pos log stream p
    · have hbehind : ¬ p.expected < log.version stream := by
        rcases hv with hv | hv
        · exact absurd (List.isEmpty_iff.2 hv) hz
        · omega
      rw [if_neg hz, effort_writing rfl]
      dsimp only
      cases hp : p.phase with
      | opening => rw [effort_opening hp, if_neg hbehind]; omega
      | pairing cursor => rw [effort_pairing hp, if_neg hbehind]; omega
      | writing => exact absurd hp hphase

end Client

variable {w : W} {old : List (Placed Nat)} {client : Client} {p : Progress Log.Cursor}

/-- A step that leaves the world only moves the write on. -/
theorem Client.turn_quiet {next : Next Log.Cursor} (hn : client.next = .going p)
    (hs : stepOnStore place client.producer.compatible none allowance w stream p = (w, next)) :
    client.turn place allowance stream w =
      (w, { client with next := next, turns := client.turns + 1 }) := by
  unfold Client.turn
  simp only [hn, hs]

/-- What a step of a write does: nothing to the world, or it writes the rest of its batch behind what is
written and is over. -/
def Client.Turned (place : Place W Store) (allowance : Nat) (stream : StreamId) (old : Nat)
    (common : List NewEvent) (written : Nat) (w : W) (client : Client) : Prop :=
  (∃ later : Client, client.turn place allowance stream w = (w, later) ∧
    later.producer = client.producer ∧
      later.Sound (place.get w).log stream old common written) ∨
  written ≤ client.producer.batch.length ∧ (∃ p, client.next = .going p) ∧
    client.turn place allowance stream w =
      (place.set w ((place.get w).append stream (client.producer.batch.drop written)),
        { client with next := .ended .accepted, turns := client.turns + 1 })

/-- A write opens its read, or there is nothing to read. -/
theorem Client.Sound.turn_opening (hw : Written (place.get w).log stream old common written)
    (h : client.Sound (place.get w).log stream old.length common written)
    (hn : client.next = .going p) (hp : p.phase = .opening) :
    client.Turned place allowance stream old.length common written w := by
  have hstate := h.state
  rw [hn] at hstate
  obtain ⟨m, hm, hmw, hr, he⟩ := hstate.stands
  have hstep : stepOnStore place client.producer.compatible none allowance w stream p = _ :=
    stepOnStore_opening allowance hp
  by_cases hs : (place.get w).log.hasStream stream = true
  · rw [if_pos hs] at hstep
    refine .inl ⟨_, turn_quiet hn hstep, rfl, h.onward hn ⟨⟨m, hm, hmw, hr, he⟩, ?_⟩ ?_⟩
    · intro cursor hcursor
      cases hcursor
      exact ⟨0, p.expected, rfl, .start (by dsimp only; omega)⟩
    · rw [effort_pairing rfl, effort_opening hp]
      dsimp only
      split <;> omega
  · rw [if_neg hs] at hstep
    have hz := mt (hw.coherent.hasStream_iff stream).2 hs
    have hv := hw.coherent.version_eq stream
    have hphase : p.phase ≠ .writing := by rw [hp]; simp
    exact .inl ⟨_, turn_quiet hn hstep, rfl, h.paired hn hphase (.inr (by omega))⟩

/-- A write pairs the event it finds, which is its own next event, or is done with pairing. -/
theorem Client.Sound.turn_pairing {cursor : Log.Cursor}
    (hw : Written (place.get w).log stream old common written)
    (h : client.Sound (place.get w).log stream old.length common written)
    (hn : client.next = .going p) (hp : p.phase = .pairing cursor) :
    client.Turned place allowance stream old.length common written w := by
  have hstate := h.state
  rw [hn] at hstate
  obtain ⟨m, hm, hmw, hr, he⟩ := hstate.stands
  obtain ⟨passed, after, rfl, hread⟩ := hstate.read cursor hp
  have hphase : p.phase ≠ .writing := by rw [hp]; simp
  have hstep : stepOnStore place client.producer.compatible none allowance w stream p = _ :=
    stepOnStore_pairing allowance hp
  cases hrem : p.remaining with
  | nil =>
    rw [hrem] at hstep
    exact .inl ⟨_, turn_quiet hn hstep, rfl, h.paired hn hphase (.inl hrem)⟩
  | cons new rest =>
    rw [hrem] at hstep
    dsimp only at hstep
    cases hf : Log.firstSelected (.streamAfter stream after) passed
        ((place.get w).log.events.drop passed) with
    | mk stop found =>
      rw [hf] at hstep
      cases found with
      | none =>
        exact .inl ⟨_, turn_quiet hn hstep, rfl,
          h.paired hn hphase (.inr (hread.version_le hw.coherent hf))⟩
      | some current =>
        obtain ⟨hmem, hstream, hnumber, hread'⟩ := hread.next hw.coherent hf
        obtain ⟨hcommon, hlt⟩ := hw.content_eq hmem hstream (hnumber.trans he)
        have hhead : client.producer.batch[m]? = some new := by
          rw [← List.head?_drop, ← hr, hrem, List.head?_cons]
        have hmlt : m < client.producer.batch.length := (List.getElem?_eq_some_iff.1 hhead).1
        have hcontent : current.record.content = new := by
          have hsame : common[m]? = client.producer.batch[m]? := by
            obtain ⟨more, hmore⟩ := h.batch_prefix
            rw [← hmore, List.getElem?_append_left hmlt]
          rw [hcommon, hhead, Option.some.injEq] at hsame
          exact hsame
        have haccepts : client.producer.compatible.reason? current.record new = none :=
          hcontent ▸ h.acceptsOwn current.record
        dsimp only at hstep
        rw [haccepts] at hstep
        have hrest : rest = client.producer.batch.drop (m + 1) := by
          rw [← List.tail_drop, ← hr, hrem, List.tail_cons]
        refine .inl ⟨_, turn_quiet hn hstep, rfl,
          h.onward hn ⟨⟨m + 1, hmlt, hlt, hrest, by dsimp only; omega⟩, ?_⟩ ?_⟩
        · intro cursor hcursor
          cases hcursor
          exact ⟨stop, after, rfl, hread'⟩
        · -- the event found shows that the write was behind
          have hversion := hw.version_eq
          have hbehind : p.expected < (place.get w).log.version stream := by omega
          rw [effort_pairing rfl, effort_pairing hp, if_pos hbehind, hrem, List.length_cons]
          dsimp only
          split <;> omega

/-- A write writes the rest of its batch where it stands, or it is behind and reads again. -/
theorem Client.Sound.turn_writing (hplace : place.Lawful)
    (hw : Written (place.get w).log stream old common written)
    (h : client.Sound (place.get w).log stream old.length common written)
    (hn : client.next = .going p) (hp : p.phase = .writing) :
    client.Turned place allowance stream old.length common written w := by
  have hstate := h.state
  rw [hn] at hstate
  obtain ⟨m, hm, hmw, hr, he⟩ := hstate.stands
  have hversion := hw.version_eq
  by_cases hv : (place.get w).log.version stream = p.expected
  · have hall : m = written := by omega
    subst hall
    have hstep : stepOnStore place client.producer.compatible none allowance w stream p = _ :=
      stepOnStore_writing_accepted allowance hp hv
    refine .inr ⟨hm, ⟨p, hn⟩, ?_⟩
    unfold Client.turn
    simp only [hn, hstep, hr]
  · have hbehind : p.expected < (place.get w).log.version stream := by omega
    have hstep : stepOnStore place client.producer.compatible none allowance w stream p = _ :=
      stepOnStore_writing_refused allowance hplace hp hv
    rw [if_pos hbehind, Option.any_none, if_neg Bool.false_ne_true] at hstep
    refine .inl ⟨_, turn_quiet hn hstep, rfl, h.onward hn ⟨⟨m, hm, hmw, hr, he⟩, ?_⟩ ?_⟩
    · intro cursor hcursor
      cases hcursor
    · rw [effort_opening rfl, effort_writing hp]
      dsimp only
      rw [if_pos hbehind]
      omega

/-- A step of a write does nothing to the world or writes what is left. -/
theorem Client.Sound.turned (hplace : place.Lawful)
    (hw : Written (place.get w).log stream old common written)
    (h : client.Sound (place.get w).log stream old.length common written) :
    client.Turned place allowance stream old.length common written w := by
  cases hn : client.next with
  | ended outcome =>
    refine .inl ⟨client, ?_, rfl, h⟩
    unfold Client.turn
    rw [hn]
  | going p =>
    cases hp : p.phase with
    | opening => exact h.turn_opening hw hn hp
    | pairing cursor => exact h.turn_pairing hw hn hp
    | writing => exact h.turn_writing hplace hw hn hp

end Stepping

section Together

variable {W : Type} {place : Place W Store} {allowance : Nat} {stream : StreamId}
  {old : List (Placed Nat)} {common : List NewEvent} {producers : List Producer} {crowd : Crowd W}

/-- What holds of the writes of producers after every move. -/
structure Crowd.Sound (place : Place W Store) (stream : StreamId) (old : List (Placed Nat))
    (common : List NewEvent) (producers : List Producer) (crowd : Crowd W) (written : Nat) : Prop where
  /-- The first of the common events are written. -/
  holds : Written (place.get crowd.world).log stream old common written
  /-- They are the whole batch of a producer, if they are any. -/
  whole : written = 0 ∨ ∃ producer ∈ producers, producer.batch.length = written
  /-- The writes are those of the producers. -/
  producers_eq : crowd.clients.map (·.producer) = producers
  /-- Each of them is sound. -/
  clients : ∀ client ∈ crowd.clients,
    client.Sound (place.get crowd.world).log stream old.length common written

/-- Writes that have not taken a step are sound. -/
theorem Crowd.Sound.start {w : W} (hc : (place.get w).log.Coherent) (stream : StreamId)
    (hproducers : ∀ producer ∈ producers, producer.batch <+: common ∧ producer.compatible.AcceptsOwn) :
    (Crowd.start w producers ((place.get w).log.version stream)).Sound place stream
      ((place.get w).log.streamEvents stream) common producers 0 := by
  have hlen := Log.length_streamEvents (place.get w).log stream
  have hv := hc.version_eq stream
  refine ⟨⟨hc, Nat.zero_le _, [], (List.append_nil _).symm, rfl⟩, .inl rfl, ?_, ?_⟩
  · unfold Crowd.start
    rw [List.map_map]
    exact List.map_id _
  · intro client hclient
    obtain ⟨producer, hp, rfl⟩ := List.mem_map.1 hclient
    obtain ⟨hbatch, hown⟩ := hproducers producer hp
    refine ⟨hbatch, hown, ⟨⟨0, Nat.zero_le _, Nat.le_refl _, rfl, ?_⟩, fun _ hcursor => by cases hcursor⟩, ?_⟩
    · simp only [Progress.start]
      omega
    · have heffort := effort_start (place.get w).log stream producer.batch
      unfold Crowd.start
      dsimp only
      omega

/-- Writes stay sound when others append to other streams. -/
theorem Crowd.Sound.other {written : Nat} (hplace : place.Lawful)
    (h : crowd.Sound place stream old common producers written) {target : StreamId}
    (hne : target ≠ stream) (events : List NewEvent) :
    (crowd.move place allowance stream (.other target events)).Sound place stream old common producers
      written := by
  have hlog : (place.get (place.set crowd.world ((place.get crowd.world).append target events))).log =
      (place.get crowd.world).log.append target events
        ((place.get crowd.world).clock (place.get crowd.world).asked) := by
    rw [hplace.get_set]
    rfl
  unfold Crowd.move
  refine ⟨by simp only [hlog]; exact h.holds.append_ne hne events _, h.whole, h.producers_eq, ?_⟩
  intro client hclient
  simp only [hlog]
  exact (h.clients client hclient).grow (Log.prefix_append _ _ _ _)
    (Int.le_of_eq (Log.version_append_ne _ hne.symm events _).symm) (Nat.le_refl _)

/-- What the step of a write makes of all of them. -/
theorem Crowd.move_own {index : Nat} {client later : Client} {w : W}
    (hi : crowd.clients[index]? = some client)
    (hturn : client.turn place allowance stream crowd.world = (w, later)) :
    crowd.move place allowance stream (.own index) =
      { world := w, clients := crowd.clients.set index later } := by
  unfold Crowd.move
  simp only [hi, hturn]

/-- Writes stay sound when one of them takes a step. -/
theorem Crowd.Sound.own {written : Nat} (hplace : place.Lawful)
    (h : crowd.Sound place stream old common producers written) (index : Nat) :
    ∃ later, (crowd.move place allowance stream (.own index)).Sound place stream old common producers
      later := by
  cases hi : crowd.clients[index]? with
  | none =>
    have hsame : crowd.move place allowance stream (.own index) = crowd := by
      unfold Crowd.move
      simp only [hi]
    rw [hsame]
    exact ⟨written, h⟩
  | some client =>
    have hmem := List.mem_of_getElem? hi
    have hclient := h.clients client hmem
    have hset (later : Client) (hsame : later.producer = client.producer) :
        (crowd.clients.set index later).map (·.producer) = producers :=
      (map_set_of_eq hi hsame).trans h.producers_eq
    have hturned : client.Turned place allowance stream old.length common written crowd.world :=
      hclient.turned hplace h.holds
    rcases hturned with ⟨later, hturn, hproducer, hlater⟩ | ⟨hle, ⟨p, hn⟩, hturn⟩
    · rw [move_own hi hturn]
      refine ⟨written, h.holds, h.whole, hset later hproducer, ?_⟩
      intro other hother
      rcases List.mem_or_eq_of_mem_set hother with hother | rfl
      · exact h.clients other hother
      · exact hlater
    · have hlog : (place.get (place.set crowd.world ((place.get crowd.world).append stream
          (client.producer.batch.drop written)))).log =
          (place.get crowd.world).log.append stream (client.producer.batch.drop written)
            ((place.get crowd.world).clock (place.get crowd.world).asked) := by
        rw [hplace.get_set]
        rfl
      have hwritten := h.holds.append hclient.batch_prefix hle
        ((place.get crowd.world).clock (place.get crowd.world).asked)
      have hversion := h.holds.version_eq
      have hversion' := hwritten.version_eq
      have hproducer : client.producer ∈ producers := by
        rw [← h.producers_eq]
        exact List.mem_map_of_mem hmem
      rw [move_own hi hturn]
      refine ⟨client.producer.batch.length, by simp only [hlog]; exact hwritten,
        .inr ⟨client.producer, hproducer, rfl⟩, hset _ rfl, ?_⟩
      intro other hother
      simp only [hlog]
      have hgrow {one : Client} (hone : one ∈ crowd.clients) :=
        (h.clients one hone).grow (Log.prefix_append (place.get crowd.world).log stream
          (client.producer.batch.drop written)
          ((place.get crowd.world).clock (place.get crowd.world).asked)) (by omega) hle
      rcases List.mem_or_eq_of_mem_set hother with hother | rfl
      · exact hgrow hother
      · exact (hgrow hmem).onward hn ⟨rfl, Nat.le_refl _⟩ (effort_pos _ stream p)

/-- Writes stay sound, whatever moves are made. -/
theorem Crowd.Sound.moves {written : Nat} (hplace : place.Lawful)
    (h : crowd.Sound place stream old common producers written) {moves : List Move}
    (hmoves : ∀ move ∈ moves, move.Spares stream) :
    ∃ later, (crowd.moves place allowance stream moves).Sound place stream old common producers later := by
  induction moves generalizing crowd written with
  | nil => exact ⟨written, h⟩
  | cons move rest ih =>
    have hrest : ∀ move ∈ rest, move.Spares stream := fun m hm => hmoves m (List.mem_cons_of_mem _ hm)
    cases move with
    | own index =>
      have hown : ∃ later, (crowd.move place allowance stream (.own index)).Sound place stream old common
          producers later := h.own hplace index
      obtain ⟨later, hlater⟩ := hown
      exact ih hlater hrest
    | other target events =>
      have hne : target ≠ stream := hmoves (.other target events) List.mem_cons_self
      exact ih (h.other hplace hne events) hrest

variable (allowance) in
/-- Many producers write parts of the same events to one stream, and nobody else writes to it. No write
is refused, each is over before it has taken more than a bounded number of steps, the stream only ever
holds what it held and first events of the common ones, and once all writes are over it holds what it
held and one copy of the longest batch. -/
theorem producers_converge (hplace : place.Lawful) (w : W) (hstore : (place.get w).Reached)
    (stream : StreamId) (common : List NewEvent) (producers : List Producer)
    (hproducers : ∀ producer ∈ producers, producer.batch <+: common ∧ producer.compatible.AcceptsOwn)
    (moves : List Move) (hmoves : ∀ move ∈ moves, move.Spares stream) :
    let old := (place.get w).log.streamEvents stream
    let crowd := (Crowd.start w producers ((place.get w).log.version stream)).moves place allowance
      stream moves
    let now := (place.get crowd.world).log.streamEvents stream
    crowd.clients.map (·.producer) = producers ∧
      (∀ client ∈ crowd.clients, ∀ outcome, client.next = .ended outcome → outcome = .accepted) ∧
      (∀ client ∈ crowd.clients, ∀ p, client.next = .going p →
        client.turns < 4 * client.producer.batch.length + 5) ∧
      (∃ new, now = old ++ new ∧ new.map (·.record.content) <+: common) ∧
      ((∀ client ∈ crowd.clients, client.Over) → ∀ longest ∈ producers,
        (∀ producer ∈ producers, producer.batch.length ≤ longest.batch.length) →
          ∃ new, now = old ++ new ∧ new.map (·.record.content) = longest.batch) := by
  intro old crowd now
  obtain ⟨written, hsound⟩ : ∃ written, crowd.Sound place stream old common producers written :=
    (Crowd.Sound.start hstore.coherent stream hproducers).moves hplace hmoves
  obtain ⟨new, hevents, hnew⟩ := hsound.holds.events
  refine ⟨hsound.producers_eq, ?_, ?_, ⟨new, hevents, ?_⟩, ?_⟩
  · intro client hclient outcome hn
    have hstate := (hsound.clients client hclient).state
    rw [hn] at hstate
    exact hstate.1
  · intro client hclient p hn
    have hturns := (hsound.clients client hclient).turns_le
    have hpos := effort_pos (place.get crowd.world).log stream p
    rw [hn] at hturns
    omega
  · rw [hnew]
    exact List.take_prefix _ _
  · intro hover longest hlongest hmax
    refine ⟨new, hevents, ?_⟩
    -- the longest batch is written whole, and nothing longer was there to write
    have hle : longest.batch.length ≤ written := by
      rw [← hsound.producers_eq] at hlongest
      obtain ⟨client, hclient, rfl⟩ := List.mem_map.1 hlongest
      obtain ⟨outcome, hn⟩ := hover client hclient
      have hstate := (hsound.clients client hclient).state
      rw [hn] at hstate
      exact hstate.2
    have hge : written ≤ longest.batch.length := by
      rcases hsound.whole with hz | ⟨producer, hproducer, hlen⟩
      · omega
      · have hlonger := hmax producer hproducer
        omega
    rw [hnew, Nat.le_antisymm hge hle]
    exact (List.prefix_iff_eq_take.1 (hproducers longest hlongest).1).symm

/-- Two producers read a stream before either writes. The one with fewer events writes first, and the
other is refused, pairs those two and adds the third. -/
theorem producers_converge_racing :
    let orders : StreamId := ⟨"orders", "1", by decide⟩
    let bills : StreamId := ⟨"bills", "1", by decide⟩
    let placed : NewEvent := ⟨"Placed", [1], []⟩
    let paid : NewEvent := ⟨"Paid", [2], []⟩
    let sent : NewEvent := ⟨"Sent", [3], []⟩
    let store := (Store.withClock fun _ => .epoch).append orders [⟨"Opened", [], []⟩]
    let producers : List Producer := [{ batch := [placed, paid] }, { batch := [placed, paid, sent] }]
    let moves : List Move := [.own 0, .own 1, .own 1, .own 0, .other bills [paid], .own 0, .own 1, .own 1,
      .own 1, .own 1, .own 1, .own 1]
    let old := ((Place.whole Store).get store).log.streamEvents orders
    let crowd := (Crowd.start store producers (((Place.whole Store).get store).log.version orders)).moves
      (Place.whole Store) 0 orders moves
    (Place.whole Store).Lawful ∧ store.Reached ∧ store.log.version orders = 0 ∧
      (∀ producer ∈ producers,
        producer.batch <+: [placed, paid, sent] ∧ producer.compatible.AcceptsOwn) ∧
      (∀ move ∈ moves, move.Spares orders) ∧
      (∀ client ∈ crowd.clients, client.Over) ∧
      ∃ new, ((Place.whole Store).get crowd.world).log.streamEvents orders = old ++ new ∧
        new.map (·.record.content) = [placed, paid, sent] := by
  intro orders bills placed paid sent store producers moves old crowd
  have hstore : store.Reached := (Store.Reached.start fun _ => .epoch).append orders _
  have hproducers : ∀ producer ∈ producers,
      producer.batch <+: [placed, paid, sent] ∧ producer.compatible.AcceptsOwn :=
    List.forall_mem_cons.2 ⟨⟨⟨[sent], rfl⟩, Compatibility.basic_acceptsOwn⟩,
      List.forall_mem_singleton.2 ⟨List.prefix_rfl, Compatibility.basic_acceptsOwn⟩⟩
  have hmoves : ∀ move ∈ moves, move.Spares orders := by decide
  have hover : ∀ client ∈ crowd.clients, client.Over := by decide +kernel
  have hlongest : ∀ producer ∈ producers, producer.batch.length ≤ [placed, paid, sent].length := by
    intro producer hp
    exact (hproducers producer hp).1.length_le
  have hall := producers_converge 0 (Place.whole_lawful Store) store hstore orders [placed, paid, sent]
    producers hproducers moves hmoves
  obtain ⟨new, hnow, hnew⟩ :=
    hall.2.2.2.2 hover { batch := [placed, paid, sent] } (by simp [producers]) hlongest
  refine ⟨Place.whole_lawful Store, hstore, by decide +kernel, hproducers, hmoves, hover, new, ?_, hnew⟩
  -- reducibly, so that no side is run
  with_reducible exact hnow

end Together

end Idempotent

end Chronicle
