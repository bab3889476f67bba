import Chronicle.Proofs.Lists
import Chronicle.Store.Basic

/-!
# Coherence of a store's log

A log is a list of events beside a table of versions, and neither is checked when a batch arrives. What
keeps the two in step is stated once here, by the events that come before an event: their number is its
position, and the number of those in its stream is its event number. An empty log is coherent, and a
batch keeps a log coherent, so the log of every store that writes and appends lead to is.
-/

namespace Chronicle

namespace Log

/-- The number of events of a stream. -/
def count (log : Log) (stream : StreamId) : Nat :=
  log.events.countP (·.record.stream = stream)

/-- Positions and event numbers count the events before, and versions count the events of a stream. -/
structure Coherent (log : Log) : Prop where
  /-- A position counts the events up to and including one. -/
  position_eq : ∀ {xs e ys}, log.events = xs ++ e :: ys → e.position = xs.length + 1
  /-- An event number counts the earlier events of the same stream. -/
  number_eq : ∀ {xs e ys}, log.events = xs ++ e :: ys →
    e.record.number = xs.countP (·.record.stream = e.record.stream)
  /-- A version is recorded exactly for streams with events, and is the number of the last. -/
  lookup_eq : ∀ stream, log.versions.lookup stream =
    if log.count stream = 0 then none else some ((log.count stream : Int) - 1)

/-- A log without events is coherent. -/
theorem Coherent.empty : ({} : Log).Coherent where
  position_eq h := by simp at h
  number_eq h := by simp at h
  lookup_eq stream := by simp [count]

/-- The version of a stream is the number of its last event, and -1 without events. -/
theorem Coherent.version_eq {log : Log} (h : log.Coherent) (stream : StreamId) :
    log.version stream = (log.count stream : Int) - 1 := by
  unfold version
  rw [h.lookup_eq]
  split
  · simp only [Option.getD_none, noVersion]
    omega
  · rfl

/-- A stream is known exactly when it has events. -/
theorem Coherent.hasStream_iff {log : Log} (h : log.Coherent) (stream : StreamId) :
    log.hasStream stream = true ↔ 0 < log.count stream := by
  unfold hasStream
  rw [h.lookup_eq]
  split <;> simp <;> omega

/-- Every event of a stream is numbered below the count of the stream. -/
theorem Coherent.number_lt {log : Log} (h : log.Coherent) {e : Placed Nat} (he : e ∈ log.events) :
    0 ≤ e.record.number ∧ e.record.number < log.count e.record.stream := by
  obtain ⟨xs, ys, hxy⟩ := List.append_of_mem he
  have hn := h.number_eq hxy
  have hc : log.count e.record.stream =
      xs.countP (·.record.stream = e.record.stream) + (ys.countP (·.record.stream = e.record.stream) + 1) := by
    unfold count
    rw [hxy, List.countP_append, List.countP_cons_of_pos (by simp)]
  constructor <;> omega

/-- The position of the event at an index. -/
theorem Coherent.position_getElem {log : Log} (h : log.Coherent) {i : Nat}
    (hi : i < log.events.length) : log.events[i].position = i + 1 := by
  have hs : log.events = log.events.take i ++ log.events[i] :: log.events.drop (i + 1) := by
    rw [List.getElem_cons_drop, List.take_append_drop]
  have hp := h.position_eq hs
  rwa [List.length_take_of_le (Nat.le_of_lt hi)] at hp

/-- Events at one position are one. -/
theorem Coherent.eq_of_position_eq {log : Log} (h : log.Coherent) {e other : Placed Nat}
    (he : e ∈ log.events) (ho : other ∈ log.events) (hp : e.position = other.position) : e = other := by
  obtain ⟨i, hi, rfl⟩ := List.getElem_of_mem he
  obtain ⟨j, hj, rfl⟩ := List.getElem_of_mem ho
  rw [h.position_getElem hi, h.position_getElem hj] at hp
  obtain rfl := Nat.succ.inj hp
  rfl

/-- The events of a log above a position are those after as many. -/
theorem Coherent.filter_position {log : Log} (h : log.Coherent) (cutoff : Nat) :
    log.events.filter (cutoff < ·.position) = log.events.drop cutoff := by
  have hp : ∀ i (hi : i < log.events.length), log.events[i].position = i + 1 := fun i hi =>
    h.position_getElem hi
  have ht : (log.events.take cutoff).filter (cutoff < ·.position) = [] := by
    rw [List.filter_eq_nil_iff]
    intro e he
    obtain ⟨i, hi, rfl⟩ := List.mem_take_iff_getElem.1 he
    have := hp i (by omega)
    simp only [decide_eq_true_eq]
    omega
  have hd : (log.events.drop cutoff).filter (cutoff < ·.position) = log.events.drop cutoff := by
    rw [List.filter_eq_self]
    intro e he
    obtain ⟨i, hi, rfl⟩ := List.mem_drop_iff_getElem.1 he
    have := hp (cutoff + i) (by omega)
    simp only [decide_eq_true_eq]
    omega
  calc log.events.filter (cutoff < ·.position)
      = (log.events.take cutoff ++ log.events.drop cutoff).filter (cutoff < ·.position) := by
        rw [List.take_append_drop]
    _ = log.events.drop cutoff := by rw [List.filter_append, ht, hd, List.nil_append]

/-- The events of a log below a position are one fewer than it says. -/
theorem Coherent.filter_position_below {log : Log} (h : log.Coherent) (position : Nat) :
    log.events.filter (·.position < position) = log.events.take (position - 1) := by
  have ht : (log.events.take (position - 1)).filter (·.position < position) =
      log.events.take (position - 1) := by
    rw [List.filter_eq_self]
    intro e he
    obtain ⟨i, hi, rfl⟩ := List.mem_take_iff_getElem.1 he
    have hp := h.position_getElem (i := i) (by omega)
    rw [decide_eq_true_eq]
    omega
  have hd : (log.events.drop (position - 1)).filter (·.position < position) = [] := by
    rw [List.filter_eq_nil_iff]
    intro e he
    obtain ⟨i, hi, rfl⟩ := List.mem_drop_iff_getElem.1 he
    have hp := h.position_getElem (i := position - 1 + i) (by omega)
    rw [decide_eq_true_eq]
    omega
  calc log.events.filter (·.position < position)
      = (log.events.take (position - 1) ++ log.events.drop (position - 1)).filter (·.position < position) := by
        rw [List.take_append_drop]
    _ = log.events.take (position - 1) := by rw [List.filter_append, ht, hd, List.append_nil]

section Batch

variable (timestamp : Timestamp) (stream : StreamId)

/-- A batch has as many records as events. -/
@[simp] theorem length_placeBatch (position : Nat) (number : Int) (events : List NewEvent) :
    (placeBatch timestamp stream position number events).length = events.length := by
  induction events generalizing position number with
  | nil => rfl
  | cons event rest ih => simp only [placeBatch, List.length_cons, ih]

/-- All records of a batch belong to its stream and bear its timestamp. -/
theorem origin_of_mem_placeBatch {position : Nat} {number : Int} {events : List NewEvent}
    {e : Placed Nat} (h : e ∈ placeBatch timestamp stream position number events) :
    e.record.stream = stream ∧ e.record.timestamp = timestamp := by
  induction events generalizing position number with
  | nil => simp only [placeBatch, List.not_mem_nil] at h
  | cons event rest ih =>
    simp only [placeBatch, List.mem_cons] at h
    rcases h with rfl | h
    · exact ⟨rfl, rfl⟩
    · exact ih h

/-- The records of a batch hold its events in order. -/
theorem map_content_placeBatch (position : Nat) (number : Int) (events : List NewEvent) :
    (placeBatch timestamp stream position number events).map (·.record.content) = events := by
  induction events generalizing position number with
  | nil => rfl
  | cons event rest ih => simp only [placeBatch, List.map_cons, NewEvent.content_stored, ih]

/-- The record of a batch at an index. -/
theorem getElem?_placeBatch (position : Nat) (number : Int) (events : List NewEvent) (i : Nat) :
    (placeBatch timestamp stream position number events)[i]? =
      events[i]?.map fun event =>
        ⟨position + i + 1, event.stored timestamp stream (number + i + 1)⟩ := by
  induction events generalizing position number i with
  | nil => rfl
  | cons event rest ih =>
    cases i with
    | zero => simp [placeBatch]
    | succ i =>
      simp only [placeBatch, List.getElem?_cons_succ, ih, Int.natCast_succ]
      congr 1
      funext later
      congr 2 <;> omega

/-- Positions and numbers of a batch follow on from the given ones. -/
theorem placeBatch_split {position : Nat} {number : Int} {events : List NewEvent}
    {xs ys : List (Placed Nat)} {e : Placed Nat}
    (h : placeBatch timestamp stream position number events = xs ++ e :: ys) :
    e.position = position + xs.length + 1 ∧ e.record.number = number + xs.length + 1 := by
  induction events generalizing position number xs with
  | nil => simp [placeBatch] at h
  | cons event rest ih =>
    cases xs with
    | nil =>
      simp only [placeBatch, List.nil_append, List.cons.injEq] at h
      obtain ⟨rfl, -⟩ := h
      simp [NewEvent.stored]
    | cons x xs =>
      simp only [placeBatch, List.cons_append, List.cons.injEq] at h
      obtain ⟨hp, hn⟩ := ih h.2
      simp only [List.length_cons]
      constructor <;> omega

/-- A batch counts whole for its own stream. -/
theorem countP_placeBatch_self {position : Nat} {number : Int} {events : List NewEvent} :
    (placeBatch timestamp stream position number events).countP (·.record.stream = stream) =
      events.length := by
  rw [List.countP_eq_length.2, length_placeBatch]
  intro e he
  simpa using (origin_of_mem_placeBatch timestamp stream he).1

/-- A batch counts nothing for another stream. -/
theorem countP_placeBatch_ne {other : StreamId} (hne : other ≠ stream) {position : Nat} {number : Int}
    {events : List NewEvent} :
    (placeBatch timestamp stream position number events).countP (·.record.stream = other) = 0 := by
  rw [List.countP_eq_zero]
  intro e he
  have hs := (origin_of_mem_placeBatch timestamp stream he).1
  simp only [hs, decide_eq_true_eq]
  exact Ne.symm hne

end Batch

/-- A version is found for the stream that it was set for. -/
theorem lookup_setVersion_self (versions : List (StreamId × Int)) (stream : StreamId) (number : Int) :
    (setVersion versions stream number).lookup stream = some number := by
  simp [setVersion]

/-- Setting a version hides that of no other stream. -/
theorem lookup_setVersion_ne {other stream : StreamId} (hne : other ≠ stream)
    (versions : List (StreamId × Int)) (number : Int) :
    (setVersion versions stream number).lookup other = versions.lookup other := by
  have hb : (other == stream) = false := by simpa using hne
  unfold setVersion
  rw [List.lookup_cons, hb]
  exact lookup_filter_ne hne versions

/-- The events of a log after a batch. -/
theorem events_append (log : Log) (stream : StreamId) (events : List NewEvent) (timestamp : Timestamp) :
    (log.append stream events timestamp).events = log.events ++
      placeBatch timestamp stream log.events.length (log.version stream) events := by
  unfold append
  cases events with
  | nil => simp [placeBatch]
  | cons event rest => simp

/-- A batch lengthens its own stream. -/
theorem count_append_self (log : Log) (stream : StreamId) (events : List NewEvent)
    (timestamp : Timestamp) :
    (log.append stream events timestamp).count stream = log.count stream + events.length := by
  unfold count
  rw [events_append, List.countP_append, countP_placeBatch_self]

/-- A batch lengthens no other stream. -/
theorem count_append_ne (log : Log) {other stream : StreamId} (hne : other ≠ stream)
    (events : List NewEvent) (timestamp : Timestamp) :
    (log.append stream events timestamp).count other = log.count other := by
  unfold count
  rw [events_append, List.countP_append, countP_placeBatch_ne _ _ hne, Nat.add_zero]

/-- A batch changes the version of no other stream. -/
theorem lookup_append_ne (log : Log) {other stream : StreamId} (hne : other ≠ stream)
    (events : List NewEvent) (timestamp : Timestamp) :
    (log.append stream events timestamp).versions.lookup other = log.versions.lookup other := by
  unfold append
  split
  · rfl
  · exact lookup_setVersion_ne hne _ _

/-- A batch leaves the last numbers of other streams as they are. -/
theorem version_append_ne (log : Log) {other stream : StreamId} (hne : other ≠ stream)
    (events : List NewEvent) (timestamp : Timestamp) :
    (log.append stream events timestamp).version other = log.version other := by
  unfold version
  rw [lookup_append_ne log hne]

/-- A batch keeps a log coherent. -/
theorem Coherent.append {log : Log} (h : log.Coherent) (stream : StreamId) (events : List NewEvent)
    (timestamp : Timestamp) : (log.append stream events timestamp).Coherent := by
  refine ⟨?_, ?_, ?_⟩
  · intro xs e ys hxy
    rw [events_append, List.append_eq_append_iff] at hxy
    rcases hxy with ⟨as, rfl, hb⟩ | ⟨bs, hl, hb⟩
    · have hp := (placeBatch_split timestamp stream hb).1
      rw [hp, List.length_append]
    · cases bs with
      | nil =>
        rw [List.append_nil] at hl
        have hb' : placeBatch _ _ _ _ _ = [] ++ e :: ys := hb.symm
        have hp := (placeBatch_split timestamp stream hb').1
        rw [hp, hl, List.length_nil, Nat.add_zero]
      | cons b bs =>
        rw [List.cons_append, List.cons.injEq] at hb
        rw [hb.1]
        exact h.position_eq hl
  · intro xs e ys hxy
    have hv := h.version_eq stream
    rw [events_append, List.append_eq_append_iff] at hxy
    rcases hxy with ⟨as, rfl, hb⟩ | ⟨bs, hl, hb⟩
    · have hn := (placeBatch_split timestamp stream hb).2
      have hs : e.record.stream = stream :=
        (origin_of_mem_placeBatch timestamp stream (hb ▸ List.mem_append_right _ List.mem_cons_self)).1
      have hc : as.countP (·.record.stream = stream) = as.length := by
        rw [List.countP_eq_length]
        intro x hx
        simpa using (origin_of_mem_placeBatch timestamp stream (hb ▸ List.mem_append_left _ hx)).1
      rw [hn, hs, List.countP_append, hc, hv]
      unfold count
      omega
    · cases bs with
      | nil =>
        rw [List.append_nil] at hl
        have hb' : placeBatch _ _ _ _ _ = [] ++ e :: ys := hb.symm
        have hn := (placeBatch_split timestamp stream hb').2
        have hs : e.record.stream = stream :=
          (origin_of_mem_placeBatch timestamp stream (hb ▸ List.mem_cons_self)).1
        rw [hn, hs, hv, ← hl]
        unfold count
        simp only [List.length_nil]
        omega
      | cons b bs =>
        rw [List.cons_append, List.cons.injEq] at hb
        rw [hb.1]
        exact h.number_eq hl
  · intro other
    by_cases hne : other = stream
    · subst hne
      rw [count_append_self]
      cases events with
      | nil => simpa [Log.append] using h.lookup_eq other
      | cons event rest =>
        have hv := h.version_eq other
        simp only [Log.append, List.isEmpty_cons, Bool.false_eq_true, if_false, lookup_setVersion_self,
          List.length_cons, hv]
        rw [if_neg (by omega)]
        congr 1
        omega
    · rw [lookup_append_ne log hne, count_append_ne log hne]
      exact h.lookup_eq other

/-- A batch leaves the events of a log where they are. -/
theorem prefix_append (log : Log) (stream : StreamId) (events : List NewEvent) (timestamp : Timestamp) :
    log.events <+: (log.append stream events timestamp).events := by
  rw [events_append]
  exact List.prefix_append _ _

section Streams

/-- The events of a stream, in order. -/
def streamEvents (log : Log) (stream : StreamId) : List (Placed Nat) :=
  log.events.filter (·.record.stream = stream)

/-- A stream has as many events as are counted. -/
theorem length_streamEvents (log : Log) (stream : StreamId) :
    (log.streamEvents stream).length = log.count stream := by
  unfold streamEvents count
  rw [List.countP_eq_length_filter]

/-- An event stands among those of its stream where its number says. -/
theorem Coherent.getElem?_streamEvents {log : Log} (h : log.Coherent) {e : Placed Nat}
    (he : e ∈ log.events) {stream : StreamId} (hs : e.record.stream = stream) {index : Nat}
    (hn : e.record.number = index) : (log.streamEvents stream)[index]? = some e := by
  obtain ⟨xs, ys, hxy⟩ := List.append_of_mem he
  have hnumber := h.number_eq hxy
  rw [hs, hn, List.countP_eq_length_filter, Int.natCast_inj] at hnumber
  unfold streamEvents
  rw [hxy, List.filter_append, List.filter_cons_of_pos (by simpa using hs), hnumber,
    List.getElem?_append_right (Nat.le_refl _), Nat.sub_self, List.getElem?_cons_zero]

/-- The events of a stream are numbered from 0 on, in order. -/
theorem Coherent.numbers {log : Log} (h : log.Coherent) (stream : StreamId) :
    (log.streamEvents stream).map (·.record.number) =
      (List.range (log.streamEvents stream).length).map Int.ofNat := by
  refine List.ext_getElem (by simp) ?_
  intro i hi _
  rw [List.length_map] at hi
  rw [List.getElem_map, List.getElem_map, List.getElem_range]
  -- the earlier events of the stream are those before the event in the log
  have hsplit := List.take_append_drop i (log.streamEvents stream)
  rw [List.drop_eq_getElem_cons hi] at hsplit
  obtain ⟨xs, rest, hxs, hfirst, hrest⟩ := List.filter_eq_append_iff.1 hsplit.symm
  obtain ⟨ys, zs, rfl, hys, hs, -⟩ := List.filter_eq_cons_iff.1 hrest
  have hstream : (log.streamEvents stream)[i].record.stream = stream := by simpa using hs
  have hnumber := h.number_eq (hxs.trans (List.append_assoc xs ys _).symm)
  have hnone : ys.countP (·.record.stream = stream) = 0 := List.countP_eq_zero.2 hys
  rw [hstream, List.countP_append, hnone, List.countP_eq_length_filter, hfirst,
    List.length_take_of_le (Nat.le_of_lt hi)] at hnumber
  exact hnumber

/-- The recorded version of a stream is the number of its last event. -/
theorem Coherent.lookup_eq_last {log : Log} (h : log.Coherent) (stream : StreamId) :
    log.versions.lookup stream = (log.streamEvents stream).getLast?.map (·.record.number) := by
  rw [h.lookup_eq, ← List.getLast?_map, h.numbers, List.getLast?_map, List.getLast?_range,
    length_streamEvents]
  split
  · rfl
  · simp only [Option.map_some, Int.ofNat_eq_natCast]
    congr 1
    omega

/-- Events of one stream with one number are one. -/
theorem Coherent.eq_of_number_eq {log : Log} (h : log.Coherent) {e other : Placed Nat}
    (he : e ∈ log.events) (ho : other ∈ log.events) (hs : e.record.stream = other.record.stream)
    (hn : e.record.number = other.record.number) : e = other := by
  have hindex : e.record.number = e.record.number.toNat := by
    have hl := (h.number_lt he).1
    omega
  have hfirst := h.getElem?_streamEvents he hs hindex
  rw [h.getElem?_streamEvents ho rfl (hn ▸ hindex)] at hfirst
  exact (Option.some.inj hfirst).symm

/-- A batch comes behind the events of its own stream. -/
theorem streamEvents_append_self (log : Log) (stream : StreamId) (events : List NewEvent)
    (timestamp : Timestamp) : (log.append stream events timestamp).streamEvents stream =
      log.streamEvents stream ++
        placeBatch timestamp stream log.events.length (log.version stream) events := by
  unfold streamEvents
  rw [events_append, List.filter_append]
  congr 1
  rw [List.filter_eq_self]
  intro e he
  simpa using (origin_of_mem_placeBatch timestamp stream he).1

/-- A batch adds nothing to another stream. -/
theorem streamEvents_append_ne (log : Log) {other stream : StreamId} (hne : other ≠ stream)
    (events : List NewEvent) (timestamp : Timestamp) :
    (log.append stream events timestamp).streamEvents other = log.streamEvents other := by
  unfold streamEvents
  rw [events_append, List.filter_append]
  have hnone : (placeBatch timestamp stream log.events.length (log.version stream) events).filter
      (·.record.stream = other) = [] := by
    rw [List.filter_eq_nil_iff]
    intro e he
    rw [(origin_of_mem_placeBatch timestamp stream he).1]
    simpa using Ne.symm hne
  rw [hnone, List.append_nil]

end Streams

section Reading

variable {selection : Selection}

/-- A search that finds nothing has passed everything, and nothing of it was selected. -/
theorem firstSelected_none {passed stop : Nat} {events : List (Placed Nat)}
    (h : firstSelected selection passed events = (stop, none)) :
    stop = passed + events.length ∧ ∀ e ∈ events, selection.admits e.record = false := by
  induction events generalizing passed with
  | nil =>
    simp only [firstSelected, Prod.mk.injEq] at h
    simp [h.1]
  | cons event rest ih =>
    unfold firstSelected at h
    split at h
    · simp at h
    · rename_i hn
      obtain ⟨hs, hr⟩ := ih h
      refine ⟨by simp only [List.length_cons]; omega, ?_⟩
      intro e he
      rcases List.mem_cons.1 he with rfl | he
      · simpa using hn
      · exact hr e he

/-- A search that finds an event has passed exactly those before it, and it is the first selected. -/
theorem firstSelected_some {passed stop : Nat} {events : List (Placed Nat)} {e : Placed Nat}
    (h : firstSelected selection passed events = (stop, some e)) :
    ∃ xs ys, events = xs ++ e :: ys ∧ stop = passed + xs.length + 1 ∧
      selection.admits e.record = true ∧ ∀ x ∈ xs, selection.admits x.record = false := by
  induction events generalizing passed with
  | nil => simp [firstSelected] at h
  | cons event rest ih =>
    unfold firstSelected at h
    split at h
    · rename_i hs
      simp only [Prod.mk.injEq, Option.some.injEq] at h
      obtain ⟨rfl, rfl⟩ := h
      exact ⟨[], rest, rfl, rfl, hs, by simp⟩
    · rename_i hn
      obtain ⟨xs, ys, hxy, hp, hs, hx⟩ := ih h
      refine ⟨event :: xs, ys, by rw [hxy, List.cons_append], by simp only [List.length_cons]; omega,
        hs, ?_⟩
      intro x hm
      rcases List.mem_cons.1 hm with rfl | hm
      · simpa using hn
      · exact hx x hm

/-- A read of everything finds the next event of the log, if there is one. -/
theorem pull_all (log : Log) (passed : Nat) :
    log.pull (.forwards passed .all) =
      match log.events[passed]? with
      | some e => (.forwards (passed + 1) .all, .event e)
      | none => (.forwards passed .all, .finished) := by
  simp only [pull]
  cases hd : log.events.drop passed with
  | nil =>
    rw [List.getElem?_eq_none (List.drop_eq_nil_iff.1 hd)]
    rfl
  | cons e rest =>
    have he : log.events[passed]? = some e := by
      rw [← List.head?_drop, hd, List.head?_cons]
    rw [he]
    simp [firstSelected, Selection.admits, foundOf]

end Reading

end Log

namespace Store

/-- The stores that appends lead to from an empty one. -/
inductive Reached : Store → Prop where
  /-- A store begins without events. -/
  | start (clock : Nat → Timestamp) : Reached (withClock clock)
  /-- Anyone may append to it. -/
  | append {store : Store} (stream : StreamId) (events : List NewEvent) (h : Reached store) :
    Reached (store.append stream events)

/-- An accepted write is an append. -/
theorem write_accepted {store : Store} {stream : StreamId} {events : List NewEvent} {expected : Int}
    (h : store.log.version stream = expected) :
    store.write stream events expected = (store.append stream events, .accepted) :=
  if_pos h

/-- A refused write leaves the store and reports both versions. -/
theorem write_refused {store : Store} {stream : StreamId} {events : List NewEvent} {expected : Int}
    (h : store.log.version stream ≠ expected) :
    store.write stream events expected =
      (store, .refused (.wrongExpectedVersion (store.log.version stream) expected)) :=
  if_neg h

/-- Writes, accepted or refused, lead to no other stores than appends. -/
theorem Reached.write {store : Store} (h : store.Reached) (stream : StreamId)
    (events : List NewEvent) (expected : Int) : (store.write stream events expected).1.Reached := by
  by_cases hv : store.log.version stream = expected
  · rw [write_accepted hv]
    exact h.append stream events
  · rw [write_refused hv]
    exact h

/-- The stores that appends and writes lead to from a given one, also writes that are refused. -/
inductive LeadsTo (store : Store) : Store → Prop where
  /-- Nothing need happen. -/
  | same : LeadsTo store store
  /-- Anyone may append. -/
  | append {later : Store} (h : LeadsTo store later) (stream : StreamId) (events : List NewEvent) :
    LeadsTo store (later.append stream events)
  /-- Anyone may write. -/
  | write {later : Store} (h : LeadsTo store later) (stream : StreamId) (events : List NewEvent)
    (expected : Int) : LeadsTo store (later.write stream events expected).1

/-- What a later store leads to comes later too. -/
theorem LeadsTo.trans {store later last : Store} (h : store.LeadsTo later) (hl : later.LeadsTo last) :
    store.LeadsTo last := by
  induction hl with
  | same => exact h
  | append _ stream events ih => exact ih.append stream events
  | write _ stream events expected ih => exact ih.write stream events expected

/-- A later store is reached too. -/
theorem LeadsTo.reached {store later : Store} (h : store.LeadsTo later) (hr : store.Reached) :
    later.Reached := by
  induction h with
  | same => exact hr
  | append _ stream events ih => exact ih.append stream events
  | write _ stream events expected ih => exact ih.write stream events expected

/-- A later store begins with the events of an earlier one. -/
theorem LeadsTo.events_prefix {store later : Store} (h : store.LeadsTo later) :
    store.log.events <+: later.log.events := by
  induction h with
  | same => exact List.prefix_rfl
  | append _ stream events ih => exact ih.trans (Log.prefix_append _ _ _ _)
  | @write later _ stream events expected ih =>
    by_cases hv : later.log.version stream = expected
    · rw [write_accepted hv]
      exact ih.trans (Log.prefix_append _ _ _ _)
    · rw [write_refused hv]
      exact ih

/-- Every record bears an answer of the store's clock. -/
theorem Reached.timestamp {store : Store} (h : store.Reached) {e : Placed Nat} (he : e ∈ store.log.events) :
    ∃ asked, e.record.timestamp = store.clock asked := by
  induction h with
  | start clock => exact absurd he List.not_mem_nil
  | @append store stream events _ ih =>
    have hlog := Log.events_append store.log stream events (store.clock store.asked)
    unfold Store.append at he
    rw [hlog] at he
    rcases List.mem_append.1 he with he | he
    · exact ih he
    · exact ⟨store.asked, (Log.origin_of_mem_placeBatch _ _ he).2⟩

/-- The log of every store is coherent. -/
theorem Reached.coherent {store : Store} (h : store.Reached) : store.log.Coherent := by
  induction h with
  | start clock => exact Log.Coherent.empty
  | append stream events _ ih => exact ih.append stream events _

section Reading

variable {W : Type}

/-- A read of a whole store that has passed some events. -/
def cursorAt (place : Place W Store) (passed : Nat) : (eventReader place).Cursor :=
  Log.Cursor.forwards passed .all

/-- A read of a whole store yields the next event at the position after those it has passed, or ends. -/
theorem pull_cursorAt {place : Place W Store} {w : W} (hw : (place.get w).log.Coherent) (passed : Nat) :
    (eventReader place).pull w (cursorAt place passed) =
      match (place.get w).log.events[passed]? with
      | some e => (w, cursorAt place (passed + 1), .event ⟨passed + 1, e.record⟩)
      | none => (w, cursorAt place passed, .finished) := by
  have hp := (place.get w).log.pull_all passed
  change (w, (place.get w).log.pull (.forwards passed .all)) = _
  rw [hp]
  cases he : (place.get w).log.events[passed]? with
  | none => rfl
  | some e =>
    obtain ⟨hi, rfl⟩ := List.getElem?_eq_some_iff.1 he
    have hn := hw.position_getElem hi
    dsimp only
    rw [← hn]
    rfl

end Reading

end Store

end Chronicle
