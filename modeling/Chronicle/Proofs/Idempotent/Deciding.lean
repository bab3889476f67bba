import Chronicle.Proofs.Idempotent.Repeating
import Chronicle.Proofs.Store.Following

/-!
# What a write decides when it is alone

While nobody else writes, an idempotent write is one round of pairing and at most one write below. The round
pairs the stored events after the expected version with the batch, as far as both go. So its outcome is known
beforehand from the stream alone: the first pair that the compatibility rejects refuses it, a batch that is
paired whole is accepted, and the rest of any other batch is written, which the store refuses only if the
stream ends before the expected version.
-/

namespace Chronicle

namespace Log

/-- A search finds the first of the events that belong to a read, and the others stay ahead. -/
theorem firstSelected_ahead {log : Log} {selection : Selection} {passed stop : Nat}
    {found : Option (Placed Nat)}
    (h : firstSelected selection passed (log.events.drop passed) = (stop, found)) :
    selected selection (log.events.drop passed) =
      match found with
      | some e => e :: selected selection (log.events.drop stop)
      | none => [] := by
  obtain ⟨more, -, rfl, hmore, hfirst⟩ := firstSelected_passes h
  cases found with
  | none => exact List.head?_eq_none_iff.1 hfirst.symm
  | some e =>
    have hsplit : selected selection (log.events.drop passed) =
        selected selection ((log.events.drop passed).take more) ++
          selected selection ((log.events.drop passed).drop more) := by
      rw [← selected_append, List.take_append_drop]
    rw [hmore, List.drop_drop] at hsplit
    exact hsplit

/-- The event that a stream holds under a number. -/
structure StoredAt (log : Log) (stream : StreamId) (number : Int) (e : Placed Nat) : Prop where
  /-- It is in the log. -/
  mem : e ∈ log.events
  /-- It is of the stream. -/
  stream_eq : e.record.stream = stream
  /-- It has the number. -/
  number_eq : e.record.number = number

/-- The events of a stream stand where their numbers say. -/
theorem Coherent.getElem?_streamEvents_iff {log : Log} (h : log.Coherent) {stream : StreamId} {index : Nat}
    {e : Placed Nat} : (log.streamEvents stream)[index]? = some e ↔ log.StoredAt stream index e := by
  constructor
  · intro he
    obtain ⟨hi, hat⟩ := List.getElem?_eq_some_iff.1 he
    obtain ⟨hmem, hstream⟩ := List.mem_filter.1 (List.mem_of_getElem? he)
    have hnumber := congrArg (·[index]?) (h.numbers stream)
    simp only [List.getElem?_map, he, Option.map_some, List.getElem?_range hi, Option.some.injEq] at hnumber
    exact ⟨hmem, by simpa using hstream, hnumber⟩
  · intro he
    exact h.getElem?_streamEvents he.mem he.stream_eq he.number_eq

/-- The events of a stream numbered above a number are those behind as many others. -/
theorem Coherent.selected_after {log : Log} (h : log.Coherent) (stream : StreamId) (number : Int) :
    selected (.streamAfter stream number) log.events =
      (log.streamEvents stream).drop (number + 1).toNat := by
  have hfilter : selected (.streamAfter stream number) log.events =
      (log.streamEvents stream).filter (number < ·.record.number) := by
    unfold selected streamEvents
    rw [List.filter_filter]
    refine List.filter_congr fun e _ => ?_
    simp only [Selection.admits, Bool.decide_and, Bool.and_comm]
  have hnumber : ∀ i (hi : i < (log.streamEvents stream).length),
      (log.streamEvents stream)[i].record.number = i :=
    fun i hi => (h.getElem?_streamEvents_iff.1 (List.getElem?_eq_getElem hi)).number_eq
  have hfirst : ((log.streamEvents stream).take (number + 1).toNat).filter (number < ·.record.number) =
      [] := by
    rw [List.filter_eq_nil_iff]
    intro e he
    obtain ⟨i, hi, rfl⟩ := List.mem_take_iff_getElem.1 he
    have hn := hnumber i (by omega)
    rw [decide_eq_true_eq]
    omega
  have hrest : ((log.streamEvents stream).drop (number + 1).toNat).filter (number < ·.record.number) =
      (log.streamEvents stream).drop (number + 1).toNat := by
    rw [List.filter_eq_self]
    intro e he
    obtain ⟨i, hi, rfl⟩ := List.mem_drop_iff_getElem.1 he
    have hn := hnumber ((number + 1).toNat + i) (by omega)
    rw [decide_eq_true_eq]
    omega
  rw [hfilter]
  calc (log.streamEvents stream).filter (number < ·.record.number)
      = ((log.streamEvents stream).take (number + 1).toNat ++
          (log.streamEvents stream).drop (number + 1).toNat).filter (number < ·.record.number) := by
        rw [List.take_append_drop]
    _ = (log.streamEvents stream).drop (number + 1).toNat := by
        rw [List.filter_append, hfirst, hrest, List.nil_append]

end Log

namespace Idempotent

section Rounds

variable {W : Type} (place : Place W Store) (compatible : Compatibility) (maxAttempts : Option Nat)
  (allowance : Nat)

/-- Runs a write that keeps a read of the log. -/
def runOnStore (stream : StreamId) (steps : Nat) (w : W) (p : Progress Log.Cursor) : W × WriteOutcome :=
  (onStore place compatible maxAttempts allowance).run stream steps w p

/-- Goes on with what a step leads to, for at most a number of steps. -/
def goOn (stream : StreamId) (steps : Nat) (w : W) : Next Log.Cursor → W × WriteOutcome
  | .ended outcome => (w, outcome)
  | .going p => runOnStore place compatible maxAttempts allowance stream steps w p

/-- The refusal of the first pair of a stored and a new event that a compatibility rejects. -/
def firstConflict? (pairs : List (Placed Nat × NewEvent)) : Option StoreError :=
  pairs.findSome? fun pair => (compatible.reason? pair.1.record pair.2).map fun reason =>
    .incompatibleWrite (PositionCodec.log.serialize pair.1.position) reason pair.1.record pair.2

/-- Where a round of pairing leads: to a refusal, to the end, or to the writing of the rest. -/
def afterPairing (p : Progress Log.Cursor) (pairs : List (Placed Nat × NewEvent)) : Next Log.Cursor :=
  match firstConflict? compatible pairs with
  | some error => .ended (.refused error)
  | none => Progress.paired { p with
      remaining := p.remaining.drop pairs.length
      expected := p.expected + pairs.length }

/-- The stored events that a round meets which begins at a version. -/
def metFrom (log : Log) (stream : StreamId) (expected : Int) : List (Placed Nat) :=
  (log.streamEvents stream).drop (expected + 1).toNat

variable {place compatible maxAttempts allowance} {w : W} {stream : StreamId}

/-- A run with one more step takes it and goes on. -/
theorem runOnStore_succ (steps : Nat) {p : Progress Log.Cursor} {later : W} {next : Next Log.Cursor}
    (h : stepOnStore place compatible maxAttempts allowance w stream p = (later, next)) :
    runOnStore place compatible maxAttempts allowance stream (1 + steps) w p =
      goOn place compatible maxAttempts allowance stream steps later next := by
  rw [Nat.add_comm]
  cases next with
  | ended outcome => exact run_of_ended h
  | going p => exact run_of_going h

/-- A round that pairs nothing leads to the writing of everything. -/
theorem afterPairing_nil (p : Progress Log.Cursor) : afterPairing compatible p [] = p.paired := by
  change Progress.paired { p with expected := p.expected + 0 } = _
  rw [Int.add_zero]

/-- A round whose first pair is accepted leads to where the others lead. -/
theorem afterPairing_cons {p : Progress Log.Cursor} {current : Placed Nat} {new : NewEvent}
    {rest : List NewEvent} (hrem : p.remaining = new :: rest)
    (haccept : compatible.reason? current.record new = none) (phase : Phase Log.Cursor)
    (pairs : List (Placed Nat × NewEvent)) :
    afterPairing compatible { p with remaining := rest, expected := p.expected + 1, phase := phase } pairs =
      afterPairing compatible p ((current, new) :: pairs) := by
  have hfirst : firstConflict? compatible ((current, new) :: pairs) = firstConflict? compatible pairs := by
    unfold firstConflict?
    rw [List.findSome?_cons, haccept]
    rfl
  have hexpected : p.expected + 1 + (pairs.length : Int) = p.expected + ((pairs.length + 1 : Nat) : Int) := by
    omega
  unfold afterPairing
  rw [hfirst, List.length_cons, hrem, List.drop_succ_cons]
  dsimp only
  rw [hexpected]
  cases firstConflict? compatible pairs <;> rfl

variable (place compatible maxAttempts allowance w stream) in
/-- A run leads within a number of steps to where a step may lead, and leaves the world. -/
def Leads (within : Nat) (p : Progress Log.Cursor) (next : Next Log.Cursor) : Prop :=
  ∃ spent ≤ within, ∀ steps, runOnStore place compatible maxAttempts allowance stream (spent + steps) w p =
    goOn place compatible maxAttempts allowance stream steps w next

/-- A run leads in one step where the step leads. -/
theorem Leads.step {within : Nat} {p : Progress Log.Cursor} {next : Next Log.Cursor} (hpos : 0 < within)
    (h : stepOnStore place compatible maxAttempts allowance w stream p = (w, next)) :
    Leads place compatible maxAttempts allowance w stream within p next :=
  ⟨1, hpos, fun steps => runOnStore_succ steps h⟩

/-- A run leads with one more step where it leads from there. -/
theorem Leads.after {within : Nat} {p q : Progress Log.Cursor} {next : Next Log.Cursor}
    (h : Leads place compatible maxAttempts allowance w stream within q next)
    (hstep : stepOnStore place compatible maxAttempts allowance w stream p = (w, .going q)) :
    Leads place compatible maxAttempts allowance w stream (within + 1) p next := by
  obtain ⟨spent, hspent, hrun⟩ := h
  refine ⟨spent + 1, Nat.succ_le_succ hspent, fun steps => ?_⟩
  rw [Nat.add_comm spent, Nat.add_assoc, runOnStore_succ _ hstep]
  exact hrun steps

/-- An open read pairs the events ahead of it with the rest of the batch, one at each step. -/
theorem leads_pairing {p : Progress Log.Cursor} {passed : Nat} {selection : Log.Selection}
    (hp : p.phase = .pairing (.forwards passed selection)) {pairs : List (Placed Nat × NewEvent)}
    (hpairs : (Log.selected selection ((place.get w).log.events.drop passed)).zip p.remaining = pairs) :
    Leads place compatible maxAttempts allowance w stream (pairs.length + 1) p
      (afterPairing compatible p pairs) := by
  -- by the pairs that are left, since the read may pass many events of other streams in one step
  induction pairs generalizing p passed with
  | nil =>
    have hstep : stepOnStore place compatible maxAttempts allowance w stream p = _ :=
      stepOnStore_pairing allowance hp
    have hpaired : stepOnStore place compatible maxAttempts allowance w stream p = (w, p.paired) := by
      rw [hstep]
      split
      · rfl
      · rename_i new rest hrem
        split
        · rfl
        · rename_i stop current hfound
          have hahead := Log.firstSelected_ahead hfound
          rw [hahead, hrem] at hpairs
          nomatch hpairs
    rw [afterPairing_nil]
    exact .step Nat.one_pos hpaired
  | cons pair later ih =>
    have hstep : stepOnStore place compatible maxAttempts allowance w stream p = _ :=
      stepOnStore_pairing allowance hp
    cases hrem : p.remaining with
    | nil =>
      rw [hrem, List.zip_nil_right] at hpairs
      nomatch hpairs
    | cons new rest =>
      rcases hfound : Log.firstSelected selection passed ((place.get w).log.events.drop passed) with
        ⟨stop, found⟩
      have hahead := Log.firstSelected_ahead hfound
      rw [hrem] at hstep
      dsimp only at hstep
      rw [hfound] at hstep
      rw [hahead, hrem] at hpairs
      cases found with
      | none => nomatch hpairs
      | some current =>
        obtain ⟨rfl, hlater⟩ := List.cons.inj hpairs
        dsimp only at hstep
        cases hreason : compatible.reason? current.record new with
        | some reason =>
          rw [hreason] at hstep
          have hrefused : afterPairing compatible p ((current, new) :: later) = .ended (.refused
              (.incompatibleWrite (PositionCodec.log.serialize current.position) reason current.record
                new)) := by
            unfold afterPairing firstConflict?
            rw [List.findSome?_cons, hreason]
            rfl
          rw [hrefused]
          exact .step (Nat.succ_pos _) hstep
        | none =>
          rw [hreason] at hstep
          rw [← afterPairing_cons hrem hreason (.pairing (.forwards stop selection))]
          have hrest : Leads place compatible maxAttempts allowance w stream (later.length + 1)
              { p with
                remaining := rest
                expected := p.expected + 1
                phase := .pairing (.forwards stop selection) } _ := ih rfl hlater
          exact hrest.after hstep

/-- From a version that a stream may have, a round meets the events up to the stream's own version. -/
theorem length_metFrom {log : Log} (hc : log.Coherent) (stream : StreamId) {expected : Int}
    (hexp : -1 ≤ expected) :
    (metFrom log stream expected).length = (log.version stream - expected).toNat := by
  have hversion := hc.version_eq stream
  have hlength := log.length_streamEvents stream
  unfold metFrom
  rw [List.length_drop]
  omega

/-- A round meets the events under the numbers after the version. -/
theorem getElem?_metFrom {log : Log} (hc : log.Coherent) {expected : Int} (hexp : -1 ≤ expected) {index : Nat}
    {e : Placed Nat} :
    (metFrom log stream expected)[index]? = some e ↔ log.StoredAt stream (expected + 1 + index) e := by
  have hindex : expected + 1 + index = (((expected + 1).toNat + index : Nat) : Int) := by omega
  unfold metFrom
  rw [List.getElem?_drop, hc.getElem?_streamEvents_iff, hindex]

/-- A round pairs the event under each number with the new event in its place. -/
theorem getElem?_zip_metFrom {log : Log} (hc : log.Coherent) {batch : List NewEvent} {expected : Int}
    (hexp : -1 ≤ expected) {index : Nat} {e : Placed Nat} {new : NewEvent} :
    ((metFrom log stream expected).zip batch)[index]? = some (e, new) ↔
      log.StoredAt stream (expected + 1 + index) e ∧ batch[index]? = some new := by
  rw [List.getElem?_zip_eq_some, getElem?_metFrom hc hexp]

/-- A round pairs the stored events after the version with the batch, as far as both go. -/
theorem leads_round (hc : (place.get w).log.Coherent) {p : Progress Log.Cursor} (hp : p.phase = .opening) :
    let pairs := (metFrom (place.get w).log stream p.expected).zip p.remaining
    Leads place compatible maxAttempts allowance w stream (pairs.length + 2) p
      (afterPairing compatible p pairs) := by
  intro pairs
  have hstep : stepOnStore place compatible maxAttempts allowance w stream p = _ :=
    stepOnStore_opening allowance hp
  by_cases hs : (place.get w).log.hasStream stream = true
  · rw [if_pos hs] at hstep
    have hselected : Log.selected (.streamAfter stream p.expected) ((place.get w).log.events.drop 0) = _ :=
      hc.selected_after stream p.expected
    have hrest : Leads place compatible maxAttempts allowance w stream (pairs.length + 1)
        { p with phase := .pairing (.forwards 0 (.streamAfter stream p.expected)) } _ :=
      leads_pairing rfl (congrArg (·.zip p.remaining) hselected)
    exact hrest.after hstep
  · have hnone : metFrom (place.get w).log stream p.expected = [] := by
      have hlength := (place.get w).log.length_streamEvents stream
      have hcount := (hc.hasStream_iff stream).not.1 hs
      unfold metFrom
      exact List.drop_eq_nil_of_le (by omega)
    have hnil : pairs = [] := congrArg (·.zip p.remaining) hnone
    rw [if_neg hs] at hstep
    rw [hnil, afterPairing_nil]
    exact .step Nat.two_pos hstep

/-- Writing at a version that the stream has not passed is a write of the store. -/
theorem run_attempt (hplace : place.Lawful) (steps : Nat) {p : Progress Log.Cursor} (hp : p.phase = .writing)
    (hversion : (place.get w).log.version stream ≤ p.expected) :
    runOnStore place compatible maxAttempts allowance stream (1 + steps) w p =
      (Store.writer place).write w stream p.remaining p.expected := by
  unfold Store.writer
  by_cases hv : (place.get w).log.version stream = p.expected
  · have hstep : stepOnStore place compatible maxAttempts allowance w stream p = _ :=
      stepOnStore_writing_accepted allowance hp hv
    rw [runOnStore_succ steps hstep]
    dsimp only
    rw [Store.write_accepted hv]
    rfl
  · have hstep : stepOnStore place compatible maxAttempts allowance w stream p = _ :=
      stepOnStore_writing_refused allowance hplace hp hv
    rw [if_neg (Int.not_lt.2 hversion)] at hstep
    rw [runOnStore_succ steps hstep]
    dsimp only
    rw [Store.write_refused hv, hplace.set_get]
    rfl

variable (place compatible) in
/-- What comes of a write that meets some stored events before the end of the stream. -/
def outcomeOf (w : W) (stream : StreamId) (batch : List NewEvent) (expected : Int)
    (met : List (Placed Nat)) : W × WriteOutcome :=
  match firstConflict? compatible (met.zip batch) with
  | some error => (w, .refused error)
  | none =>
    if batch.length ≤ met.length then (w, .accepted)
    else (Store.writer place).write w stream (batch.drop met.length) (expected + met.length)

section

variable {batch : List NewEvent} {expected : Int} {met : List (Placed Nat)}

/-- A rejected pair refuses the write. -/
theorem outcomeOf_of_conflict {error : StoreError}
    (hconflict : firstConflict? compatible (met.zip batch) = some error) :
    outcomeOf place compatible w stream batch expected met = (w, .refused error) := by
  unfold outcomeOf
  rw [hconflict]

/-- If the events that were met bring the write to the version of the stream, what is left of the batch is
appended. -/
theorem outcomeOf_of_reached (hnone : firstConflict? compatible (met.zip batch) = none)
    (hreached : (place.get w).log.version stream = expected + met.length) :
    outcomeOf place compatible w stream batch expected met = if batch.length ≤ met.length then (w, .accepted)
      else (place.set w ((place.get w).append stream (batch.drop met.length)), .accepted) := by
  unfold outcomeOf Store.writer
  rw [hnone]
  dsimp only
  rw [Store.write_accepted hreached]

end

/-- A round that meets some stored events refuses, ends, or leaves the rest to be written. -/
theorem goOn_afterPairing (steps : Nat) (p : Progress Log.Cursor) (met : List (Placed Nat)) :
    goOn place compatible maxAttempts allowance stream steps w
        (afterPairing compatible p (met.zip p.remaining)) =
      match firstConflict? compatible (met.zip p.remaining) with
      | some error => (w, .refused error)
      | none =>
        if p.remaining.length ≤ met.length then (w, .accepted)
        else runOnStore place compatible maxAttempts allowance stream steps w
          { p with
            remaining := p.remaining.drop met.length
            expected := p.expected + met.length
            phase := .writing } := by
  unfold afterPairing
  cases firstConflict? compatible (met.zip p.remaining) with
  | some error => rfl
  | none =>
    dsimp only
    unfold Progress.paired
    rw [List.length_zip]
    by_cases hle : p.remaining.length ≤ met.length
    · rw [if_pos hle, Nat.min_eq_right hle, List.drop_length]
      rfl
    · have hmin := Nat.min_eq_left (Nat.le_of_not_le hle)
      have hsome : (p.remaining.drop met.length).isEmpty = false := by
        rw [List.isEmpty_eq_false_iff, ne_eq, List.drop_eq_nil_iff]
        exact hle
      rw [if_neg hle, hmin]
      dsimp only
      rw [hsome]
      rfl

/-- From a version that a stream may have, a write alone is one round of pairing, and a write of the store if
something is left. -/
theorem run_eq_outcomeOf (hplace : place.Lawful) (hc : (place.get w).log.Coherent) {steps : Nat}
    {p : Progress Log.Cursor} (hp : p.phase = .opening) (hexp : -1 ≤ p.expected)
    (hsteps : p.remaining.length + 3 ≤ steps) :
    runOnStore place compatible maxAttempts allowance stream steps w p =
      outcomeOf place compatible w stream p.remaining p.expected
        (metFrom (place.get w).log stream p.expected) := by
  have hround : Leads place compatible maxAttempts allowance w stream _ p _ := leads_round hc hp
  obtain ⟨spent, hspent, hrun⟩ := hround
  rw [List.length_zip] at hspent
  obtain ⟨more, rfl⟩ : ∃ more, steps = spent + (1 + more) := ⟨steps - spent - 1, by omega⟩
  rw [hrun, goOn_afterPairing]
  unfold outcomeOf
  cases firstConflict? compatible ((metFrom (place.get w).log stream p.expected).zip p.remaining) with
  | some error => rfl
  | none =>
    dsimp only
    by_cases hle : p.remaining.length ≤ (metFrom (place.get w).log stream p.expected).length
    · rw [if_pos hle, if_pos hle]
    · rw [if_neg hle, if_neg hle]
      have hmet := length_metFrom hc stream hexp
      refine run_attempt hplace more ?_ ?_
      · rfl
      · dsimp only
        omega

end Rounds

section Outcomes

variable {W : Type} {place : Place W Store} {compatible : Compatibility} {maxAttempts : Option Nat}
  {allowance : Nat} {w : W} {stream : StreamId}

/-- Pairs that are all accepted refuse nothing. -/
theorem firstConflict?_eq_none_iff {pairs : List (Placed Nat × NewEvent)} :
    firstConflict? compatible pairs = none ↔
      ∀ pair ∈ pairs, compatible.reason? pair.1.record pair.2 = none := by
  unfold firstConflict?
  rw [List.findSome?_eq_none_iff]
  simp only [Option.map_eq_none_iff]

/-- The first pair that is rejected refuses. -/
theorem firstConflict?_of_first {pairs : List (Placed Nat × NewEvent)} {index : Nat} {e : Placed Nat}
    {new : NewEvent} {reason : String} (hat : pairs[index]? = some (e, new))
    (hreason : compatible.reason? e.record new = some reason)
    (hfirst : ∀ earlier < index, ∀ pair, pairs[earlier]? = some pair →
      compatible.reason? pair.1.record pair.2 = none) :
    firstConflict? compatible pairs =
      some (.incompatibleWrite (PositionCodec.log.serialize e.position) reason e.record new) := by
  obtain ⟨hi, hget⟩ := List.getElem?_eq_some_iff.1 hat
  have hsplit := List.take_append_drop index pairs
  rw [List.drop_eq_getElem_cons hi, hget] at hsplit
  have hearlier : ∀ pair ∈ pairs.take index, compatible.reason? pair.1.record pair.2 = none := by
    intro pair hpair
    obtain ⟨earlier, hlt, rfl⟩ := List.mem_take_iff_getElem.1 hpair
    exact hfirst earlier (by omega) _ (List.getElem?_eq_getElem (by omega))
  unfold firstConflict?
  rw [← hsplit, List.findSome?_append, List.findSome?_eq_none_iff.2, Option.none_or, List.findSome?_cons,
    hreason]
  · rfl
  · intro pair hpair
    rw [hearlier pair hpair]
    rfl

variable (compatible maxAttempts allowance) in
/-- A write alone has one outcome, told by the stored events under the numbers after the expected version.
The first of them that is rejected refuses it. Otherwise a batch that they cover is accepted, the rest of any
other is appended if the stream reaches the expected version, and refused if not. -/
theorem write_decides (hplace : place.Lawful) (hstore : (place.get w).Reached) (stream : StreamId)
    (batch : List NewEvent) {expected : Int} (hexp : -1 ≤ expected) (hsteps : batch.length + 3 ≤ allowance) :
    let store := place.get w
    let current := store.log.version stream
    let paired := min batch.length (current - expected).toNat
    let result := (onStore place compatible maxAttempts allowance).write w stream batch expected
    (∀ i < paired, ∃ e new, store.log.StoredAt stream (expected + 1 + i) e ∧ batch[i]? = some new) ∧
    (∀ i < paired, ∀ e new reason, store.log.StoredAt stream (expected + 1 + i) e → batch[i]? = some new →
      compatible.reason? e.record new = some reason →
      (∀ j < i, ∀ e new, store.log.StoredAt stream (expected + 1 + j) e → batch[j]? = some new →
        compatible.reason? e.record new = none) →
      result = (w, .refused
        (.incompatibleWrite (PositionCodec.log.serialize e.position) reason e.record new))) ∧
    ((∀ i < paired, ∀ e new, store.log.StoredAt stream (expected + 1 + i) e → batch[i]? = some new →
        compatible.reason? e.record new = none) →
      (paired = batch.length → result = (w, .accepted)) ∧
      (paired < batch.length → expected ≤ current →
        result = (place.set w (store.append stream (batch.drop paired)), .accepted) ∧
        ∃ new, (store.append stream (batch.drop paired)).log.streamEvents stream =
            store.log.streamEvents stream ++ new ∧ new.map (·.record.content) = batch.drop paired) ∧
      (paired < batch.length → current < expected →
        result = (w, .refused (.wrongExpectedVersion current expected)))) ∧
    (batch ≠ [] → expected = current → result = (Store.writer place).write w stream batch expected) := by
  intro store current paired result
  have hc : store.log.Coherent := hstore.coherent
  have hresult : result = outcomeOf place compatible w stream batch expected
      (metFrom store.log stream expected) := run_eq_outcomeOf hplace hc rfl hexp hsteps
  have hmet : (metFrom store.log stream expected).length = (current - expected).toNat :=
    length_metFrom hc stream hexp
  refine ⟨?_, ?_, ?_, ?_⟩
  · intro i hi
    have hlt : i < (metFrom store.log stream expected).length := by omega
    exact ⟨_, _, (getElem?_metFrom hc hexp).1 (List.getElem?_eq_getElem hlt),
      List.getElem?_eq_getElem (by omega)⟩
  · intro i hi e new reason he hnew hreason hearlier
    have hat := (getElem?_zip_metFrom hc hexp).2 ⟨he, hnew⟩
    have hconflict := firstConflict?_of_first hat hreason fun j hj pair hat =>
      have hboth := (getElem?_zip_metFrom hc hexp).1 hat
      hearlier j hj pair.1 pair.2 hboth.1 hboth.2
    rw [hresult, outcomeOf_of_conflict hconflict]
  · intro haccepted
    have hnone : firstConflict? compatible ((metFrom store.log stream expected).zip batch) = none := by
      rw [firstConflict?_eq_none_iff]
      intro pair hmem
      obtain ⟨i, hi, rfl⟩ := List.mem_iff_getElem.1 hmem
      have hboth := (getElem?_zip_metFrom hc hexp).1 (List.getElem?_eq_getElem hi)
      rw [List.length_zip] at hi
      exact haccepted i (by omega) _ _ hboth.1 hboth.2
    refine ⟨?_, ?_, ?_⟩
    · intro hall
      unfold outcomeOf at hresult
      rw [hresult, hnone]
      exact if_pos (by omega)
    · intro hlt hle
      have hpaired : paired = (metFrom store.log stream expected).length := by omega
      have hversion : store.log.version stream = expected + (metFrom store.log stream expected).length := by
        omega
      refine ⟨?_, _, Log.streamEvents_append_self store.log stream (batch.drop paired) _,
        Log.map_content_placeBatch _ stream _ _ _⟩
      rw [hresult, outcomeOf_of_reached hnone hversion, if_neg (by omega), hpaired]
    · intro hlt hahead
      have hzero : (metFrom store.log stream expected).length = 0 := by omega
      have hversion : store.log.version stream ≠ expected := Int.ne_of_lt hahead
      unfold outcomeOf Store.writer at hresult
      rw [hnone] at hresult
      dsimp only at hresult
      rw [if_neg (by omega), hzero, Int.natCast_zero, Int.add_zero, Store.write_refused hversion,
        hplace.set_get] at hresult
      exact hresult
  · intro hne hcurrent
    have hnil : metFrom store.log stream expected = [] := List.eq_nil_of_length_eq_zero (by omega)
    have hsome : 0 < batch.length := List.length_pos_of_ne_nil hne
    rw [hresult, hnil]
    unfold outcomeOf
    rw [List.length_nil, if_neg (Nat.not_le_of_lt hsome), Int.natCast_zero, Int.add_zero]
    rfl

/-- A retried batch of two meets the first of them in a stream of two events, among those of another stream.
The second is appended. -/
theorem write_decides_overlapping :
    let orders : StreamId := ⟨"orders", "1", by decide⟩
    let bills : StreamId := ⟨"bills", "1", by decide⟩
    let opened : NewEvent := ⟨"Opened", [], []⟩
    let placed : NewEvent := ⟨"Placed", [1], []⟩
    let paid : NewEvent := ⟨"Paid", [2], []⟩
    let store := (((Store.withClock fun _ => .epoch).append orders [opened]).append bills [paid]).append
      orders [placed]
    let result := (onStore (Place.whole Store) .basic none 5).write store orders [placed, paid] 0
    (Place.whole Store).Lawful ∧ store.Reached ∧ (-1 : Int) ≤ 0 ∧ [placed, paid].length + 3 ≤ 5 ∧
      store.log.version orders = 1 ∧ result = (store.append orders [paid], .accepted) := by
  intro orders bills opened placed paid store result
  have hstore : store.Reached :=
    (((Store.Reached.start fun _ => .epoch).append orders _).append bills _).append orders _
  have hsteps : [placed, paid].length + 3 ≤ 5 := by decide
  have hversion : store.log.version orders = 1 := by decide +kernel
  have hdecides := write_decides .basic none 5 (Place.whole_lawful Store) hstore orders [placed, paid]
    (by decide : (-1 : Int) ≤ 0) hsteps
  have hpaired : min [placed, paid].length (store.log.version orders - 0).toNat = 1 := by
    rw [hversion]
    decide
  have haccepted : ∀ i < min [placed, paid].length (store.log.version orders - 0).toNat, ∀ e new,
      store.log.StoredAt orders (0 + 1 + i) e → [placed, paid][i]? = some new →
        Compatibility.basic.reason? e.record new = none := by
    intro i hi e new he hnew
    rw [hpaired] at hi
    obtain rfl : i = 0 := by omega
    cases hnew
    have hat : (store.log.streamEvents orders)[1]? = some e := hstore.coherent.getElem?_streamEvents_iff.2 he
    have hevent : (store.log.streamEvents orders)[1]? = some ⟨3, placed.stored .epoch orders 1⟩ := by
      decide +kernel
    obtain rfl := Option.some.inj (hevent.symm.trans hat)
    decide +kernel
  have hlt : min [placed, paid].length (store.log.version orders - 0).toNat < [placed, paid].length := by
    rw [hpaired]
    decide
  have hle : 0 ≤ store.log.version orders := by
    rw [hversion]
    decide
  have happended : result = (store.append orders ([placed, paid].drop
      (min [placed, paid].length (store.log.version orders - 0).toNat)), .accepted) :=
    ((hdecides.2.2.1 haccepted).2.1 hlt hle).1
  rw [hpaired] at happended
  exact ⟨Place.whole_lawful Store, hstore, by decide, hsteps, hversion, happended⟩

end Outcomes

end Idempotent

end Chronicle
