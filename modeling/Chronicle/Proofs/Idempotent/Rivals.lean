import Chronicle.Idempotent.Writer
import Chronicle.Proofs.Store.Coherence

/-!
# An idempotent write among other writers

One idempotent write of a store is watched step by step while others append to any streams of the same
store between its steps. The write carries a shrinking rest of its batch and an advancing version, and
its lazy read meets events that arrive while it is open. What links them is that the paired part of the
batch stands in the stream under the numbers that follow the expected version, and that the read has
passed exactly the events up to the version reached. The outcome, the events the write added, and the
number of writes it tried below itself follow for every order of steps.
-/

namespace Chronicle

namespace Idempotent

section Reading

variable {log : Log} {stream : StreamId}

/-- How many events of a stream lie among the first events of a log. -/
def seen (log : Log) (stream : StreamId) (passed : Nat) : Nat :=
  (log.events.take passed).countP (·.record.stream = stream)

/-- A read of a stream that has passed exactly its events up to a number. It may have begun after some
of them, as long as nothing has been paired since. -/
structure ReadUpTo (log : Log) (stream : StreamId) (reached : Int) (passed : Nat) (after : Int) :
    Prop where
  /-- The read is still in the log. -/
  inLog : passed ≤ log.events.length
  /-- It began no later than where it stands. -/
  after_le : after ≤ reached
  /-- It has passed nothing beyond where it stands. -/
  seen_le : (seen log stream passed : Int) ≤ reached + 1
  /-- It has passed nothing selected yet, or everything up to where it stands. -/
  fresh_or_full : reached = after ∨ (seen log stream passed : Int) = reached + 1

/-- A read that begins after a number stands there. -/
theorem ReadUpTo.start {reached : Int} (h : -1 ≤ reached) : ReadUpTo log stream reached 0 reached :=
  ⟨Nat.zero_le _, Int.le_refl _, by simp only [seen, List.take_zero, List.countP_nil]; omega, .inl rfl⟩

/-- Events that arrive behind a read do not move it. -/
theorem ReadUpTo.mono {log' : Log} {reached after : Int} {passed : Nat}
    (h : ReadUpTo log stream reached passed after) (hl : log.events <+: log'.events) :
    ReadUpTo log' stream reached passed after := by
  have hs : seen log' stream passed = seen log stream passed := by
    unfold seen
    rw [take_of_grown hl h.inLog]
  have hi : passed ≤ log'.events.length := Nat.le_trans h.inLog hl.length_le
  exact ⟨hi, h.after_le, by rw [hs]; exact h.seen_le, by rw [hs]; exact h.fresh_or_full⟩

/-- The number of an event is what a read has seen and the events of the stream since. -/
theorem number_of_split (hc : log.Coherent) {passed : Nat} {xs ys : List (Placed Nat)} {e : Placed Nat}
    (hd : log.events.drop passed = xs ++ e :: ys) (he : e.record.stream = stream) :
    e.record.number = seen log stream passed + xs.countP (·.record.stream = stream) := by
  have hs : log.events = (log.events.take passed ++ xs) ++ e :: ys := by
    rw [List.append_assoc, ← hd, List.take_append_drop]
  rw [hc.number_eq hs, he, List.countP_append]
  unfold seen
  omega

/-- What a read has seen and what it has not are all events of the stream. -/
theorem seen_add_countP (log : Log) (stream : StreamId) (passed : Nat) :
    seen log stream passed + (log.events.drop passed).countP (·.record.stream = stream) =
      log.count stream := by
  unfold seen Log.count
  rw [← List.countP_append, List.take_append_drop]

/-- An event of the stream that a read does not select has a number up to where the read began. -/
theorem number_le_of_not_admits {after : Int} {e : Placed Nat} (he : e.record.stream = stream)
    (h : (Log.Selection.streamAfter stream after).admits e.record = false) :
    e.record.number ≤ after := by
  simp only [Log.Selection.admits, he, true_and, decide_eq_false_iff_not] at h
  omega

/-- A read that ends has passed the stream up to its version. -/
theorem ReadUpTo.version_le (hc : log.Coherent) {reached after : Int} {passed stop : Nat}
    (h : ReadUpTo log stream reached passed after)
    (hf : Log.firstSelected (.streamAfter stream after) passed (log.events.drop passed) = (stop, none)) :
    log.version stream ≤ reached := by
  have hn := (Log.firstSelected_none hf).2
  have ht := seen_add_countP log stream passed
  have hle := h.after_le
  have hse := h.seen_le
  rw [hc.version_eq]
  by_cases hz : (log.events.drop passed).countP (·.record.stream = stream) = 0
  · omega
  · obtain ⟨xs, e, ys, hd, he, hx⟩ := exists_split_of_lt_countP (Nat.sub_one_lt hz)
    have he' : e.record.stream = stream := by simpa using he
    have hnum := number_of_split hc hd he'
    have hna := number_le_of_not_admits he' (hn e (hd ▸ List.mem_append_right _ List.mem_cons_self))
    omega

/-- A read finds the event right after where it stands. -/
theorem ReadUpTo.next (hc : log.Coherent) {reached after : Int} {passed stop : Nat} {e : Placed Nat}
    (h : ReadUpTo log stream reached passed after)
    (hf : Log.firstSelected (.streamAfter stream after) passed (log.events.drop passed) =
      (stop, some e)) :
    e ∈ log.events ∧ e.record.stream = stream ∧ e.record.number = reached + 1 ∧
      ReadUpTo log stream (reached + 1) stop after := by
  obtain ⟨xs, ys, hd, hstop, ha, hx⟩ := Log.firstSelected_some hf
  simp only [Log.Selection.admits, decide_eq_true_eq] at ha
  obtain ⟨he, hafter⟩ := ha
  have hnum := number_of_split hc hd he
  have hle := h.after_le
  have hse := h.seen_le
  have hfull := h.fresh_or_full
  have hreached : e.record.number = reached + 1 := by
    by_cases hz : xs.countP (·.record.stream = stream) = 0
    · omega
    · -- the event before it in the stream was passed over, so it lies where the read began
      obtain ⟨us, u, vs, hu, hus, hcount⟩ := exists_split_of_lt_countP (Nat.sub_one_lt hz)
      have hus' : u.record.stream = stream := by simpa using hus
      have hd' : log.events.drop passed = us ++ u :: (vs ++ e :: ys) := by
        rw [hd, hu, List.append_assoc, List.cons_append]
      have hnum' := number_of_split hc hd' hus'
      have hna := number_le_of_not_admits hus' (hx u (hu ▸ List.mem_append_right _ List.mem_cons_self))
      omega
  have hlen : passed + xs.length + 1 ≤ log.events.length := by
    have hl := congrArg List.length hd
    simp only [List.length_drop, List.length_append, List.length_cons] at hl
    omega
  have htake : (log.events.drop passed).take (xs.length + 1) = xs ++ [e] := by
    rw [hd, List.take_length_add_append, List.take_succ_cons, List.take_zero]
  have hseen : seen log stream stop =
      seen log stream passed + (xs.countP (·.record.stream = stream) + 1) := by
    unfold seen
    rw [hstop, Nat.add_assoc, List.take_add, htake, List.countP_append, List.countP_append,
      List.countP_singleton, if_pos (by simpa using he)]
  exact ⟨List.mem_of_mem_drop (hd ▸ List.mem_append_right _ List.mem_cons_self), he, hreached,
    hstop ▸ hlen, by omega, by omega, .inr (by omega)⟩

end Reading

section Contest

variable {W : Type} (place : Place W Store) (compatible : Compatibility) (maxAttempts : Option Nat)
  (allowance : Nat)

/-- An idempotent writer that reads and writes the same store. -/
def onStore : Idempotent W Nat where
  reader := Store.streamReader place
  writer := Store.writer place
  compatible := compatible
  maxAttempts := maxAttempts
  allowance := allowance

/-- A step of it, which keeps a read of the log. -/
def stepOnStore (w : W) (stream : StreamId) (p : Progress Log.Cursor) : W × Next Log.Cursor :=
  (onStore place compatible maxAttempts allowance).step w stream p

/-- Whose turn it is. -/
inductive Turn where
  /-- The write takes a step. -/
  | own
  /-- Another writer appends a batch to some stream. -/
  | rival (stream : StreamId) (events : List NewEvent)

/-- A write among other writers, and what is told of it. -/
structure Contest (W : Type) where
  /-- The world with the store. -/
  world : W
  /-- What the write does next. -/
  next : Next Log.Cursor
  /-- What came of the writes that it tried below itself, in order. -/
  calls : List WriteOutcome := []
  /-- The events that its own steps added to the log, in order. -/
  added : List (Placed Nat) := []
  /-- How often others appended events to its stream. -/
  rivals : Nat := 0

/-- A write that has not taken a step. -/
def Contest.start (world : W) (batch : List NewEvent) (expected : Int) : Contest W :=
  { world := world, next := .going (.start batch expected) }

/-- What comes of the write below, if the next step makes one. -/
def callOf (w : W) (stream : StreamId) (p : Progress Log.Cursor) : List WriteOutcome :=
  match p.phase with
  | .writing => [((Store.writer place).write w stream p.remaining p.expected).2]
  | _ => []

/-- The events that a log has beyond another. -/
def newEvents (before after : Log) : List (Placed Nat) := after.events.drop before.events.length

/-- One turn. A write that is over does nothing more. -/
def Contest.turn (stream : StreamId) (c : Contest W) : Turn → Contest W
  | .rival other events =>
    { c with
      world := place.set c.world ((place.get c.world).append other events)
      rivals := c.rivals + if other = stream ∧ events ≠ [] then 1 else 0 }
  | .own =>
    match c.next with
    | .ended _ => c
    | .going p =>
      let stepped := stepOnStore place compatible maxAttempts allowance c.world stream p
      { world := stepped.1
        next := stepped.2
        calls := c.calls ++ callOf place c.world stream p
        added := c.added ++ newEvents (place.get c.world).log (place.get stepped.1).log
        rivals := c.rivals }

/-- Any number of turns. -/
def Contest.turns (stream : StreamId) (c : Contest W) (turns : List Turn) : Contest W :=
  turns.foldl (Contest.turn place compatible maxAttempts allowance stream) c

/-- A log has no new events beyond itself. -/
@[simp] theorem newEvents_self (log : Log) : newEvents log log = [] := by
  simp [newEvents]

section Steps

variable {place compatible maxAttempts}
variable {w : W} {stream : StreamId} {p : Progress Log.Cursor}

/-- Opening the read meets a stream that is known, or pairs nothing. -/
theorem stepOnStore_opening (hp : p.phase = .opening) :
    stepOnStore place compatible maxAttempts allowance w stream p =
      if (place.get w).log.hasStream stream = true then
        (w, .going { p with phase := .pairing (.forwards 0 (.streamAfter stream p.expected)) })
      else (w, p.paired) := by
  unfold stepOnStore step
  rw [hp]
  dsimp only
  unfold openRead
  simp only [onStore, Store.streamReader, Store.openStream, Log.readAfter]
  by_cases h : (place.get w).log.hasStream stream = true
  · rw [if_pos h, if_pos h]
    rfl
  · rw [if_neg h, if_neg h]
    rfl

/-- Pairing a batch that is exhausted, or with a read that has ended, is over; otherwise the event
found is judged. The store stays as it is. -/
theorem stepOnStore_pairing {passed : Nat} {selection : Log.Selection}
    (hp : p.phase = .pairing (.forwards passed selection)) :
    stepOnStore place compatible maxAttempts allowance w stream p =
      match p.remaining with
      | [] => (w, p.paired)
      | new :: rest =>
        match Log.firstSelected selection passed ((place.get w).log.events.drop passed) with
        | (_, none) => (w, p.paired)
        | (stop, some current) =>
          match compatible.reason? current.record new with
          | some reason => (w, .ended (.refused (.incompatibleWrite
              (PositionCodec.log.serialize current.position) reason current.record new)))
          | none => (w, .going
              { p with
                remaining := rest
                expected := p.expected + 1
                phase := .pairing (.forwards stop selection) }) := by
  unfold stepOnStore step
  rw [hp]
  dsimp only
  unfold pair
  cases p.remaining with
  | nil => rfl
  | cons new rest =>
    simp only [onStore, Store.streamReader, Store.reads, Log.pull]
    cases hf : Log.firstSelected selection passed ((place.get w).log.events.drop passed) with
    | mk stop found =>
      cases found with
      | none => rfl
      | some current =>
        cases hr : compatible.reason? current.record new with
        | none => simp only [Log.foundOf, hr]
        | some reason => simp only [Log.foundOf, hr]

/-- Writing at the version that the stream has appends the rest of the batch. -/
theorem stepOnStore_writing_accepted (hp : p.phase = .writing)
    (h : (place.get w).log.version stream = p.expected) :
    stepOnStore place compatible maxAttempts allowance w stream p =
      (place.set w ((place.get w).append stream p.remaining), .ended .accepted) := by
  unfold stepOnStore step
  rw [hp]
  dsimp only
  unfold attempt
  simp only [onStore, Store.writer, Store.write_accepted h]
  rfl

/-- Writing at another version leaves the store. It is tried again only if the stream is ahead. -/
theorem stepOnStore_writing_refused (hplace : place.Lawful) (hp : p.phase = .writing)
    (h : (place.get w).log.version stream ≠ p.expected) :
    stepOnStore place compatible maxAttempts allowance w stream p =
      (w, if p.expected < (place.get w).log.version stream then
          if maxAttempts.any (· ≤ p.attempts + 1) then
            .ended (.refused (.retriesExhausted stream (p.attempts + 1)))
          else .going { p with attempts := p.attempts + 1, phase := .opening }
        else .ended (.refused (.wrongExpectedVersion ((place.get w).log.version stream) p.expected))) := by
  unfold stepOnStore step
  rw [hp]
  dsimp only
  unfold attempt
  simp only [onStore, Store.writer, Store.write_refused h, hplace.set_get, exhausted]
  by_cases hlt : p.expected < (place.get w).log.version stream
  · rw [if_pos hlt, if_pos hlt]
    by_cases hx : maxAttempts.any (· ≤ p.attempts + 1) = true
    · exact (if_pos hx).trans (congrArg (Prod.mk w) (if_pos hx).symm)
    · exact (if_neg hx).trans (congrArg (Prod.mk w) (if_neg hx).symm)
  · rw [if_neg hlt, if_neg hlt]
    rfl

end Steps

/-- The first events of a batch stand in the stream under the numbers after a version, each accepted
as the one of the batch. -/
def Absorbed (log : Log) (stream : StreamId) (expected : Int) (batch : List NewEvent) (m : Nat) : Prop :=
  ∀ (i : Nat) new, i < m → batch[i]? = some new → ∃ e ∈ log.events,
    e.record.stream = stream ∧ e.record.number = expected + 1 + i ∧
      compatible.reason? e.record new = none

/-- A whole batch stands in the stream under the numbers after a version. Its first events were there
already and are accepted, the others are those that the write added. -/
def Delivered (log : Log) (added : List (Placed Nat)) (stream : StreamId) (expected : Int)
    (batch : List NewEvent) : Prop :=
  ∃ m ≤ batch.length, added.map (·.record.content) = batch.drop m ∧
    ∀ (i : Nat) new, batch[i]? = some new → ∃ e ∈ log.events,
      e.record.stream = stream ∧ e.record.number = expected + 1 + i ∧
        if i < m then e ∉ added ∧ compatible.reason? e.record new = none
        else e ∈ added ∧ e.record.content = new

/-- What the phase of a write under way says of the log. -/
def PhaseFits (log : Log) (stream : StreamId) (rivals : Nat) (p : Progress Log.Cursor) : Prop :=
  match p.phase with
  | .opening => True
  | .pairing cursor => ∃ passed after, cursor = .forwards passed (.streamAfter stream after) ∧
      ReadUpTo log stream p.expected passed after
  | .writing => p.expected < log.version stream → p.attempts < rivals

/-- A write under way: what it has paired stands in the stream, it has added nothing, and every attempt
that failed was beaten by a rival of its own. -/
structure Underway (stream : StreamId) (expected : Int) (batch : List NewEvent) (c : Contest W)
    (p : Progress Log.Cursor) : Prop where
  /-- Nothing was added. -/
  added_eq : c.added = []
  /-- No write below was accepted. -/
  calls_count : c.calls.count .accepted = 0
  /-- Every write below was an attempt. -/
  calls_length : c.calls.length = p.attempts
  /-- Attempts were beaten by rivals. -/
  attempts_le : p.attempts ≤ c.rivals
  /-- Attempts are left. -/
  attempts_lt : ∀ most, maxAttempts = some most → p.attempts = 0 ∨ p.attempts < most
  /-- What is paired stands in the stream. -/
  absorbed : ∃ m ≤ batch.length, p.remaining = batch.drop m ∧ p.expected = expected + m ∧
    Absorbed compatible (place.get c.world).log stream expected batch m
  /-- The phase fits the log. -/
  phase : PhaseFits (place.get c.world).log stream c.rivals p

/-- What is left to say of a write that is over. -/
def Settled (stream : StreamId) (expected : Int) (batch : List NewEvent) (c : Contest W) :
    WriteOutcome → Prop
  | .accepted => Delivered compatible (place.get c.world).log c.added stream expected batch
  | .refused _ => c.added = []
  | .unfinished => False

/-- A write that is over: its outcome is right and it tried no more than it may. -/
structure Over (stream : StreamId) (expected : Int) (batch : List NewEvent) (c : Contest W)
    (outcome : WriteOutcome) : Prop where
  /-- At most one write below was accepted. -/
  calls_count : c.calls.count .accepted ≤ 1
  /-- All but one write below were beaten by rivals. -/
  calls_length : c.calls.length ≤ 1 + c.rivals
  /-- The limit of attempts was kept. -/
  calls_le : ∀ most, maxAttempts = some most → c.calls.length ≤ max 1 most
  /-- The outcome is right. -/
  settled : Settled place compatible stream expected batch c outcome

/-- What holds of a write among others after every turn. -/
def Contest.Sound (stream : StreamId) (expected : Int) (batch : List NewEvent) (c : Contest W) : Prop :=
  (place.get c.world).log.Coherent ∧
    match c.next with
    | .going p => Underway place compatible maxAttempts stream expected batch c p
    | .ended outcome => Over place compatible maxAttempts stream expected batch c outcome

section Keeping

variable {place compatible maxAttempts}
variable {stream : StreamId} {expected : Int} {batch : List NewEvent}

/-- What is absorbed stays when events arrive. -/
theorem Absorbed.mono {log log' : Log} {m : Nat} (h : Absorbed compatible log stream expected batch m)
    (hl : log.events <+: log'.events) : Absorbed compatible log' stream expected batch m := by
  intro i new hi hn
  obtain ⟨e, he, hrest⟩ := h i new hi hn
  exact ⟨e, hl.subset he, hrest⟩

/-- What is delivered stays when events arrive. -/
theorem Delivered.mono {log log' : Log} {added : List (Placed Nat)}
    (h : Delivered compatible log added stream expected batch) (hl : log.events <+: log'.events) :
    Delivered compatible log' added stream expected batch := by
  obtain ⟨m, hm, hadded, hall⟩ := h
  refine ⟨m, hm, hadded, ?_⟩
  intro i new hn
  obtain ⟨e, he, hrest⟩ := hall i new hn
  exact ⟨e, hl.subset he, hrest⟩

/-- A batch that is absorbed whole is delivered, and nothing was added. -/
theorem Absorbed.delivered {log : Log} {m : Nat}
    (h : Absorbed compatible log stream expected batch m) (hm : m ≤ batch.length)
    (hall : batch.drop m = []) : Delivered compatible log [] stream expected batch := by
  have hlen := List.drop_eq_nil_iff.1 hall
  refine ⟨m, hm, by rw [hall, List.map_nil], ?_⟩
  intro i new hn
  have hi : i < batch.length := (List.getElem?_eq_some_iff.1 hn).1
  obtain ⟨e, he, hs, hnum, ha⟩ := h i new (by omega) hn
  refine ⟨e, he, hs, hnum, ?_⟩
  rw [if_pos (by omega)]
  exact ⟨List.not_mem_nil, ha⟩

/-- A batch of which a part is absorbed is delivered by writing the rest at the version reached. -/
theorem Absorbed.delivered_append {log : Log} {m : Nat} (hc : log.Coherent)
    (h : Absorbed compatible log stream expected batch m) (hm : m ≤ batch.length)
    (hv : log.version stream = expected + m) (timestamp : Timestamp) :
    Delivered compatible (log.append stream (batch.drop m) timestamp)
      (newEvents log (log.append stream (batch.drop m) timestamp)) stream expected batch := by
  have hnew : newEvents log (log.append stream (batch.drop m) timestamp) =
      Log.placeBatch timestamp stream log.events.length (log.version stream) (batch.drop m) := by
    unfold newEvents
    rw [Log.events_append, List.drop_left]
  refine ⟨m, hm, by rw [hnew, Log.map_content_placeBatch], ?_⟩
  intro i new hn
  by_cases hi : i < m
  · obtain ⟨e, he, hs, hnum, ha⟩ := h i new hi hn
    refine ⟨e, (Log.prefix_append _ _ _ _).subset he, hs, hnum, ?_⟩
    rw [if_pos hi]
    refine ⟨?_, ha⟩
    intro hmem
    rw [hnew] at hmem
    obtain ⟨xs, ys, hxy⟩ := List.append_of_mem hmem
    have hbatch := (Log.placeBatch_split timestamp stream hxy).2
    have hlt := (hc.number_lt he).2
    rw [hs] at hlt
    have hversion := hc.version_eq stream
    omega
  · have hd : (batch.drop m)[i - m]? = some new := by
      rw [List.getElem?_drop, Nat.add_sub_cancel' (by omega), hn]
    have hp := Log.getElem?_placeBatch timestamp stream log.events.length (log.version stream)
      (batch.drop m) (i - m)
    rw [hd, Option.map_some] at hp
    have hmem := List.mem_of_getElem? hp
    refine ⟨⟨log.events.length + (i - m) + 1,
      new.stored timestamp stream (log.version stream + (i - m : Nat) + 1)⟩, ?_, rfl, ?_, ?_⟩
    · rw [Log.events_append]
      exact List.mem_append_right _ hmem
    · simp only [NewEvent.stored]
      omega
    · rw [if_neg hi, hnew]
      exact ⟨hmem, NewEvent.content_stored _ _ _ _⟩

/-- The phase still fits when another batch arrives. -/
theorem PhaseFits.rival {log : Log} {rivals : Nat} {p : Progress Log.Cursor}
    (h : PhaseFits log stream rivals p) (hle : p.attempts ≤ rivals) (other : StreamId)
    (events : List NewEvent) (timestamp : Timestamp) :
    PhaseFits (log.append other events timestamp) stream
      (rivals + if other = stream ∧ events ≠ [] then 1 else 0) p := by
  unfold PhaseFits at h ⊢
  cases hp : p.phase with
  | opening => trivial
  | pairing cursor =>
    rw [hp] at h
    obtain ⟨passed, after, hcur, hread⟩ := h
    exact ⟨passed, after, hcur, hread.mono (Log.prefix_append _ _ _ _)⟩
  | writing =>
    rw [hp] at h
    intro hlt
    by_cases ho : other = stream ∧ events ≠ []
    · rw [if_pos ho]
      omega
    · rw [if_neg ho]
      by_cases hs : other = stream
      · have hz : events = [] := Decidable.not_not.1 fun hne => ho ⟨hs, hne⟩
        rw [hz] at hlt
        exact h hlt
      · rw [Log.version_append_ne log (Ne.symm hs)] at hlt
        exact h hlt

/-- A write stays sound when another writer takes a turn. -/
theorem Contest.Sound.rival {c : Contest W} (hplace : place.Lawful)
    (h : c.Sound place compatible maxAttempts stream expected batch) (other : StreamId)
    (events : List NewEvent) :
    (c.turn place compatible maxAttempts allowance stream (.rival other events)).Sound place compatible
      maxAttempts stream expected batch := by
  obtain ⟨hc, hn⟩ := h
  have hw : (place.get (place.set c.world ((place.get c.world).append other events))).log =
      (place.get c.world).log.append other events ((place.get c.world).clock (place.get c.world).asked) := by
    rw [hplace.get_set]
    rfl
  have hgrow := Log.prefix_append (place.get c.world).log other events
    ((place.get c.world).clock (place.get c.world).asked)
  refine ⟨by simp only [Contest.turn, hw]; exact hc.append _ _ _, ?_⟩
  simp only [Contest.turn]
  cases hnext : c.next with
  | going p =>
    rw [hnext] at hn
    obtain ⟨m, hm, hr, he, ha⟩ := hn.absorbed
    have hle := hn.attempts_le
    refine ⟨hn.added_eq, hn.calls_count, hn.calls_length, Nat.le_add_right_of_le hle, hn.attempts_lt,
      ⟨m, hm, hr, he, ?_⟩, ?_⟩
    · simp only [hw]
      exact ha.mono hgrow
    · simp only [hw]
      exact hn.phase.rival hle other events _
  | ended outcome =>
    rw [hnext] at hn
    have hlen := hn.calls_length
    refine ⟨hn.calls_count, by dsimp only; omega, hn.calls_le, ?_⟩
    have hs := hn.settled
    cases outcome with
    | accepted =>
      simp only [Settled, hw] at hs ⊢
      exact hs.mono hgrow
    | refused error => exact hs
    | unfinished => exact hs

/-- A step that leaves the world and writes nothing below only moves on. -/
theorem Contest.turn_own_quiet {c : Contest W} {p : Progress Log.Cursor} {next : Next Log.Cursor}
    (hn : c.next = .going p) (hcall : callOf place c.world stream p = [])
    (hs : stepOnStore place compatible maxAttempts allowance c.world stream p = (c.world, next)) :
    c.turn place compatible maxAttempts allowance stream .own = { c with next := next } := by
  unfold Contest.turn
  simp only [hn, hs, hcall, List.append_nil, newEvents_self]

/-- Once the pairing is over, the write is over or turns to writing. -/
theorem Underway.paired {c : Contest W} {p : Progress Log.Cursor}
    (hc : (place.get c.world).log.Coherent)
    (h : Underway place compatible maxAttempts stream expected batch c p)
    (hv : p.remaining = [] ∨ (place.get c.world).log.version stream ≤ p.expected) :
    ({ c with next := p.paired } : Contest W).Sound place compatible maxAttempts stream expected batch := by
  obtain ⟨m, hm, hr, he, ha⟩ := h.absorbed
  refine ⟨hc, ?_⟩
  unfold Progress.paired
  by_cases hz : p.remaining.isEmpty = true
  · rw [if_pos hz]
    have hdrop : batch.drop m = [] := hr ▸ List.isEmpty_iff.1 hz
    have hlen := h.calls_length
    have hle := h.attempts_le
    refine ⟨by rw [h.calls_count]; omega, by dsimp only; omega, ?_, ?_⟩
    · intro most hmost
      have hlt := h.attempts_lt most hmost
      dsimp only
      omega
    · simp only [Settled, h.added_eq]
      exact ha.delivered hm hdrop
  · rw [if_neg hz]
    refine ⟨h.added_eq, h.calls_count, h.calls_length, h.attempts_le, h.attempts_lt,
      ⟨m, hm, hr, he, ha⟩, ?_⟩
    intro hlt
    rcases hv with hv | hv
    · exact absurd (List.isEmpty_iff.2 hv) hz
    · dsimp only at hlt
      omega

/-- A write stays sound when it opens its read. -/
theorem Contest.Sound.opening {c : Contest W} {p : Progress Log.Cursor} (hexp : -1 ≤ expected)
    (hc : (place.get c.world).log.Coherent) (hn : c.next = .going p) (hp : p.phase = .opening)
    (h : Underway place compatible maxAttempts stream expected batch c p) :
    (c.turn place compatible maxAttempts allowance stream .own).Sound place compatible maxAttempts
      stream expected batch := by
  have hcall : callOf place c.world stream p = [] := by unfold callOf; rw [hp]
  have hstep : stepOnStore place compatible maxAttempts allowance c.world stream p = _ :=
    stepOnStore_opening allowance hp
  obtain ⟨m, hm, hr, he, ha⟩ := h.absorbed
  by_cases hs : (place.get c.world).log.hasStream stream = true
  · rw [if_pos hs] at hstep
    rw [Contest.turn_own_quiet allowance hn hcall hstep]
    refine ⟨hc, h.added_eq, h.calls_count, h.calls_length, h.attempts_le, h.attempts_lt,
      ⟨m, hm, hr, he, ha⟩, ?_⟩
    have hge : -1 ≤ p.expected := by omega
    exact ⟨0, p.expected, rfl, .start hge⟩
  · rw [if_neg hs] at hstep
    rw [Contest.turn_own_quiet allowance hn hcall hstep]
    have hz := mt (hc.hasStream_iff stream).2 hs
    have hv := hc.version_eq stream
    exact h.paired hc (.inr (by omega))

/-- A write stays sound when it pairs an event. -/
theorem Contest.Sound.pairing {c : Contest W} {p : Progress Log.Cursor} {cursor : Log.Cursor}
    (hc : (place.get c.world).log.Coherent) (hn : c.next = .going p) (hp : p.phase = .pairing cursor)
    (h : Underway place compatible maxAttempts stream expected batch c p) :
    (c.turn place compatible maxAttempts allowance stream .own).Sound place compatible maxAttempts
      stream expected batch := by
  have hcall : callOf place c.world stream p = [] := by unfold callOf; rw [hp]
  have hph := h.phase
  unfold PhaseFits at hph
  rw [hp] at hph
  obtain ⟨passed, after, rfl, hread⟩ := hph
  obtain ⟨m, hm, hr, he, ha⟩ := h.absorbed
  have hstep : stepOnStore place compatible maxAttempts allowance c.world stream p = _ :=
    stepOnStore_pairing allowance hp
  cases hrem : p.remaining with
  | nil =>
    rw [hrem] at hstep
    rw [Contest.turn_own_quiet allowance hn hcall hstep]
    exact h.paired hc (.inl hrem)
  | cons new rest =>
    rw [hrem] at hstep
    dsimp only at hstep
    cases hf : Log.firstSelected (.streamAfter stream after) passed
        ((place.get c.world).log.events.drop passed) with
    | mk stop found =>
      rw [hf] at hstep
      cases found with
      | none =>
        rw [Contest.turn_own_quiet allowance hn hcall hstep]
        exact h.paired hc (.inr (hread.version_le hc hf))
      | some current =>
        obtain ⟨hmem, hstream, hnumber, hread'⟩ := hread.next hc hf
        dsimp only at hstep
        cases hj : compatible.reason? current.record new with
        | some reason =>
          rw [hj] at hstep
          rw [Contest.turn_own_quiet allowance hn hcall hstep]
          have hlen := h.calls_length
          have hle := h.attempts_le
          refine ⟨hc, by rw [h.calls_count]; omega, by dsimp only; omega, ?_, h.added_eq⟩
          intro most hmost
          have hlt := h.attempts_lt most hmost
          dsimp only
          omega
        | none =>
          rw [hj] at hstep
          rw [Contest.turn_own_quiet allowance hn hcall hstep]
          have hhead : batch[m]? = some new := by
            rw [← List.head?_drop, ← hr, hrem, List.head?_cons]
          have hmlt : m < batch.length := (List.getElem?_eq_some_iff.1 hhead).1
          have hrest : rest = batch.drop (m + 1) := by
            rw [← List.tail_drop, ← hr, hrem, List.tail_cons]
          refine ⟨hc, h.added_eq, h.calls_count, h.calls_length, h.attempts_le, h.attempts_lt,
            ⟨m + 1, hmlt, hrest, by dsimp only; omega, ?_⟩, ?_⟩
          · intro i other hi ho
            by_cases him : i < m
            · exact ha i other him ho
            · have hie : i = m := by omega
              subst hie
              rw [hhead, Option.some.injEq] at ho
              subst ho
              exact ⟨current, hmem, hstream, by omega, hj⟩
          · exact ⟨stop, after, rfl, hread'⟩

/-- A write stays sound when it writes below. -/
theorem Contest.Sound.writing {c : Contest W} {p : Progress Log.Cursor} (hplace : place.Lawful)
    (hc : (place.get c.world).log.Coherent) (hn : c.next = .going p) (hp : p.phase = .writing)
    (h : Underway place compatible maxAttempts stream expected batch c p) :
    (c.turn place compatible maxAttempts allowance stream .own).Sound place compatible maxAttempts
      stream expected batch := by
  have hbeaten := h.phase
  unfold PhaseFits at hbeaten
  rw [hp] at hbeaten
  dsimp only at hbeaten
  obtain ⟨m, hm, hr, he, ha⟩ := h.absorbed
  have hlen := h.calls_length
  have hle := h.attempts_le
  by_cases hv : (place.get c.world).log.version stream = p.expected
  · have hcall : callOf place c.world stream p = [.accepted] := by
      unfold callOf
      rw [hp]
      simp only [Store.writer, Store.write_accepted hv]
    unfold Contest.turn
    simp only [hn, stepOnStore_writing_accepted allowance hp hv, hcall]
    have hw : (place.get (place.set c.world ((place.get c.world).append stream p.remaining))).log =
        (place.get c.world).log.append stream p.remaining
          ((place.get c.world).clock (place.get c.world).asked) := by
      rw [hplace.get_set]
      rfl
    refine ⟨by simp only [hw]; exact hc.append _ _ _, ?_⟩
    refine ⟨?_, ?_, ?_, ?_⟩
    · simp only [List.count_append, h.calls_count, List.count_singleton_self]
      omega
    · simp only [List.length_append, List.length_singleton]
      omega
    · intro most hmost
      have hlt := h.attempts_lt most hmost
      simp only [List.length_append, List.length_singleton]
      omega
    · simp only [Settled, hw, h.added_eq, List.nil_append]
      rw [hr]
      exact ha.delivered_append hc hm (by omega) _
  · have hcall : callOf place c.world stream p = [.refused (.wrongExpectedVersion
        ((place.get c.world).log.version stream) p.expected)] := by
      unfold callOf
      rw [hp]
      simp only [Store.writer, Store.write_refused hv]
    unfold Contest.turn
    simp only [hn, stepOnStore_writing_refused allowance hplace hp hv, hcall, newEvents_self,
      List.append_nil]
    refine ⟨hc, ?_⟩
    have hcount : (c.calls ++ [WriteOutcome.refused (.wrongExpectedVersion
        ((place.get c.world).log.version stream) p.expected)]).count .accepted = 0 := by
      rw [List.count_append, h.calls_count]
      rfl
    have hlength : (c.calls ++ [WriteOutcome.refused (.wrongExpectedVersion
        ((place.get c.world).log.version stream) p.expected)]).length = p.attempts + 1 := by
      rw [List.length_append, hlen, List.length_singleton]
    by_cases hlt : p.expected < (place.get c.world).log.version stream
    · have hb := hbeaten hlt
      simp only [if_pos hlt]
      by_cases hx : maxAttempts.any (· ≤ p.attempts + 1) = true
      · simp only [if_pos hx]
        refine ⟨by dsimp only; omega, by dsimp only; omega, ?_, h.added_eq⟩
        intro most hmost
        have hle := h.attempts_lt most hmost
        dsimp only
        omega
      · simp only [if_neg hx]
        refine ⟨h.added_eq, hcount, hlength, hb, ?_, ⟨m, hm, hr, he, ha⟩, trivial⟩
        intro most hmost
        simp only [hmost, Option.any_some, decide_eq_true_eq] at hx
        exact .inr (by dsimp only; omega)
    · simp only [if_neg hlt]
      refine ⟨by dsimp only; omega, by dsimp only; omega, ?_, h.added_eq⟩
      intro most hmost
      have hle := h.attempts_lt most hmost
      dsimp only
      omega

/-- A write stays sound when it takes a turn. -/
theorem Contest.Sound.own {c : Contest W} (hplace : place.Lawful) (hexp : -1 ≤ expected)
    (h : c.Sound place compatible maxAttempts stream expected batch) :
    (c.turn place compatible maxAttempts allowance stream .own).Sound place compatible maxAttempts
      stream expected batch := by
  obtain ⟨hc, hw⟩ := h
  cases hn : c.next with
  | ended outcome =>
    have hsame : c.turn place compatible maxAttempts allowance stream .own = c := by
      unfold Contest.turn
      rw [hn]
    rw [hsame]
    exact ⟨hc, hw⟩
  | going p =>
    rw [hn] at hw
    cases hp : p.phase with
    | opening => exact .opening allowance hexp hc hn hp hw
    | pairing cursor => exact .pairing allowance hc hn hp hw
    | writing => exact .writing allowance hplace hc hn hp hw

/-- A write is sound after any turns, whoever takes them. -/
theorem Contest.Sound.turns {c : Contest W} (hplace : place.Lawful) (hexp : -1 ≤ expected)
    (h : c.Sound place compatible maxAttempts stream expected batch) (turns : List Turn) :
    (c.turns place compatible maxAttempts allowance stream turns).Sound place compatible maxAttempts
      stream expected batch := by
  unfold Contest.turns
  induction turns generalizing c with
  | nil => exact h
  | cons turn rest ih =>
    rw [List.foldl_cons]
    cases turn with
    | own => exact ih (h.own allowance hplace hexp)
    | rival other events => exact ih (h.rival allowance hplace other events)

/-- A write that has not taken a step is sound. -/
theorem Contest.Sound.start {w : W} (hc : (place.get w).log.Coherent) :
    (Contest.start w batch expected).Sound place compatible maxAttempts stream expected batch := by
  refine ⟨hc, rfl, rfl, rfl, Nat.le_refl _, fun _ _ => .inl rfl, ?_, trivial⟩
  exact ⟨0, Nat.zero_le _, rfl, by simp [Progress.start], fun i _ hi => absurd hi (Nat.not_lt_zero i)⟩

/-- A step leaves the world or appends to its own stream. -/
theorem stepOnStore_world (hplace : place.Lawful) {w : W} {rivals : Nat} {p : Progress Log.Cursor}
    (h : PhaseFits (place.get w).log stream rivals p) :
    (stepOnStore place compatible maxAttempts allowance w stream p).1 = w ∨
      ∃ rest, (stepOnStore place compatible maxAttempts allowance w stream p).1 =
        place.set w ((place.get w).append stream rest) := by
  unfold PhaseFits at h
  cases hp : p.phase with
  | opening =>
    left
    rw [stepOnStore_opening allowance hp]
    split <;> rfl
  | pairing cursor =>
    rw [hp] at h
    obtain ⟨passed, after, rfl, -⟩ := h
    left
    rw [stepOnStore_pairing allowance hp]
    split
    · rfl
    · split
      · rfl
      · split <;> rfl
  | writing =>
    by_cases hv : (place.get w).log.version stream = p.expected
    · right
      rw [stepOnStore_writing_accepted allowance hp hv]
      exact ⟨p.remaining, rfl⟩
    · left
      rw [stepOnStore_writing_refused allowance hplace hp hv]

/-- Between two moments of a write, exactly the events that it accounts for were added, behind all others
and to its own stream. -/
def Contest.AddsOnly (place : Place W Store) (stream : StreamId) (before after : Contest W) : Prop :=
  ∃ new, (place.get after.world).log.events = (place.get before.world).log.events ++ new ∧
    after.added = before.added ++ new ∧ (∀ e ∈ new, e.record.stream = stream) ∧
    ∀ other, other ≠ stream →
      (place.get after.world).log.version other = (place.get before.world).log.version other

/-- A turn of the write touches no other stream. -/
theorem Contest.Sound.own_addsOnly {c : Contest W} (hplace : place.Lawful)
    (h : c.Sound place compatible maxAttempts stream expected batch) :
    c.AddsOnly place stream (c.turn place compatible maxAttempts allowance stream .own) := by
  obtain ⟨-, hw⟩ := h
  cases hn : c.next with
  | ended outcome =>
    have hsame : c.turn place compatible maxAttempts allowance stream .own = c := by
      unfold Contest.turn
      rw [hn]
    rw [hsame]
    exact ⟨[], (List.append_nil _).symm, (List.append_nil _).symm,
      fun _ he => absurd he List.not_mem_nil, fun _ _ => rfl⟩
  | going p =>
    rw [hn] at hw
    unfold Contest.AddsOnly Contest.turn
    simp only [hn]
    have hworld : (stepOnStore place compatible maxAttempts allowance c.world stream p).1 = _ ∨ _ :=
      stepOnStore_world allowance hplace hw.phase
    rcases hworld with hs | ⟨rest, hs⟩
    · simp only [hs, newEvents_self]
      exact ⟨[], (List.append_nil _).symm, rfl, fun _ he => absurd he List.not_mem_nil,
        fun _ _ => trivial⟩
    · have hlog : (place.get
          (stepOnStore place compatible maxAttempts allowance c.world stream p).1).log =
          (place.get c.world).log.append stream rest
            ((place.get c.world).clock (place.get c.world).asked) := by
        rw [hs, hplace.get_set]
        rfl
      rw [hlog]
      refine ⟨_, Log.events_append _ _ _ _, ?_, ?_, ?_⟩
      · unfold newEvents
        rw [Log.events_append, List.drop_left]
      · intro e he
        exact (Log.origin_of_mem_placeBatch _ _ he).1
      · intro other hne
        exact Log.version_append_ne _ hne _ _

end Keeping

/-- A write among other writers, after any turns in any order. At most one write below was accepted. A
write that ended well has its batch in the stream: a first part that was there and is accepted, and a last
part that it added itself. A write that was refused added nothing. A further step of it touches no other
stream, all writes below but one were beaten by a rival batch, and the limit of attempts was kept. -/
theorem write_among_rivals (hplace : place.Lawful) {w : W} (hstore : (place.get w).Reached)
    (stream : StreamId) (batch : List NewEvent) {expected : Int} (hexp : -1 ≤ expected)
    (turns : List Turn) :
    let contest := (Contest.start w batch expected).turns place compatible maxAttempts allowance stream turns
    contest.calls.count .accepted ≤ 1 ∧
      (contest.next = .ended .accepted →
        Delivered compatible (place.get contest.world).log contest.added stream expected batch) ∧
      (∀ error, contest.next = .ended (.refused error) → contest.added = []) ∧
      contest.next ≠ .ended .unfinished ∧
      contest.AddsOnly place stream
        (contest.turn place compatible maxAttempts allowance stream .own) ∧
      contest.calls.length ≤ 1 + contest.rivals ∧
      ∀ most, maxAttempts = some most → contest.calls.length ≤ max 1 most := by
  intro contest
  have hsound : contest.Sound place compatible maxAttempts stream expected batch :=
    (Contest.Sound.start hstore.coherent).turns allowance hplace hexp turns
  have honly := hsound.own_addsOnly allowance hplace
  obtain ⟨-, hn⟩ := hsound
  cases hnext : contest.next with
  | going p =>
    rw [hnext] at hn
    have hcount := hn.calls_count
    have hlen := hn.calls_length
    have hle := hn.attempts_le
    refine ⟨by omega, by simp, by simp, by simp, honly, by omega, ?_⟩
    intro most hmost
    have hlt := hn.attempts_lt most hmost
    omega
  | ended outcome =>
    rw [hnext] at hn
    refine ⟨hn.calls_count, ?_, ?_, ?_, honly, hn.calls_length, hn.calls_le⟩
    · intro heq
      cases heq
      exact hn.settled
    · intro error heq
      cases heq
      exact hn.settled
    · intro heq
      cases heq
      exact hn.settled

/-- A rival writes the first of two events between the read and the write. The write is refused once,
absorbs that event and adds the second. -/
theorem write_among_rivals_absorbing :
    let store := Store.withClock fun _ => .epoch
    let stream : StreamId := ⟨"orders", "1", by decide⟩
    let batch : List NewEvent := [⟨"Placed", [1], []⟩, ⟨"Paid", [2], []⟩]
    let turns : List Turn := [.own, .rival stream [⟨"Placed", [1], [7]⟩], .own, .own, .own, .own, .own]
    let contest := (Contest.start store batch (-1)).turns (Place.whole Store) .basic none 0 stream turns
    (Place.whole Store).Lawful ∧ store.Reached ∧ (-1 : Int) ≤ -1 ∧
      contest.calls = [.refused (.wrongExpectedVersion 0 (-1)), .accepted] ∧ contest.rivals = 1 ∧
        Delivered .basic ((Place.whole Store).get contest.world).log contest.added stream (-1) batch := by
  intro store stream batch turns contest
  have hnext : contest.next = .ended .accepted := rfl
  have hall := write_among_rivals (Place.whole Store) .basic none 0 (Place.whole_lawful Store)
    (Store.Reached.start fun _ => .epoch) stream batch (Int.le_refl (-1)) turns
  exact ⟨Place.whole_lawful Store, .start _, Int.le_refl _, by decide +kernel, by decide +kernel,
    hall.2.1 hnext⟩

end Contest

end Idempotent

end Chronicle
