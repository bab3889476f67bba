import Chronicle.Proofs.Idempotent.Deciding

/-!
# Versions that no stream ever has

No stream has a version below -1, and the store refuses every write that expects one. An idempotent write is
not refused: it takes the conflict for a race. A round that begins at such a version meets the stream from its
first event on and moves the version on by as many, so the next round may meet the same events again, until the
version is one that a stream may have. On a stream without events the version never moves on and the write
never ends. On any other stream it ends, but it is refused only for a pair that is rejected. If all are
accepted, the write is accepted too, and what is left of the batch is appended.
-/

namespace Chronicle

namespace Idempotent

section Meeting

/-- How often a whole stream is met before a version is reached that a stream may have. -/
def repeats (count : Nat) (expected : Int) : Nat := ((-1 - expected).toNat + count - 1) / count

/-- The stored events that a write meets: those of the whole stream, as often as it takes to reach a version
that a stream may have, and then those after that version. -/
def metBelow (stored : List (Placed Nat)) (expected : Int) : List (Placed Nat) :=
  (List.replicate (repeats stored.length expected) stored).flatten ++
    stored.drop (expected + 1 + repeats stored.length expected * stored.length).toNat

variable {stored : List (Placed Nat)} {expected : Int}

/-- After a version that a stream may have, each stored event is met once. -/
theorem metBelow_of_le (hexp : -1 ≤ expected) : metBelow stored expected = stored.drop (expected + 1).toNat := by
  have hzero : repeats stored.length expected = 0 := by
    have hstart : (-1 - expected).toNat = 0 := by omega
    unfold repeats
    rw [hstart, Nat.zero_add]
    rcases Nat.eq_zero_or_pos stored.length with hnone | hsome
    · rw [hnone, Nat.div_zero]
    · exact Nat.div_eq_of_lt (Nat.sub_lt hsome Nat.one_pos)
  unfold metBelow
  rw [hzero, Int.natCast_zero, Int.zero_mul, Int.add_zero]
  rfl

/-- After any other, the whole stream is met first, and the version moves on by its length. -/
theorem metBelow_of_lt (hsome : 0 < stored.length) (hbelow : expected < -1) :
    metBelow stored expected = stored ++ metBelow stored (expected + stored.length) := by
  have hrepeats : repeats stored.length expected = repeats stored.length (expected + stored.length) + 1 := by
    unfold repeats
    by_cases hle : (-1 - expected).toNat ≤ stored.length
    · have hlast : (-1 - (expected + stored.length)).toNat = 0 := by omega
      have hfirst : (-1 - expected).toNat + stored.length - 1 = (-1 - expected).toNat - 1 + stored.length := by
        omega
      rw [hlast, hfirst, Nat.add_div_right _ hsome, Nat.zero_add, Nat.div_eq_of_lt (by omega),
        Nat.div_eq_of_lt (by omega)]
    · have hfirst : (-1 - expected).toNat + stored.length - 1 =
          (-1 - (expected + stored.length)).toNat + stored.length - 1 + stored.length := by omega
      rw [hfirst, Nat.add_div_right _ hsome]
  have hstart : expected + 1 + ((repeats stored.length (expected + stored.length) + 1 : Nat) : Int) *
        stored.length =
      expected + stored.length + 1 +
        (repeats stored.length (expected + stored.length) : Int) * stored.length := by
    rw [Int.natCast_add, Int.add_mul]
    omega
  unfold metBelow
  rw [hrepeats, hstart, List.replicate_succ, List.flatten_cons, List.append_assoc]

/-- As many stored events are met as it takes to reach the stream's own version. -/
theorem length_metBelow (hsome : 0 < stored.length) :
    (metBelow stored expected).length = (stored.length - 1 - expected).toNat := by
  induction hdistance : (-1 - expected).toNat using Nat.strongRecOn generalizing expected with
  | ind distance ih =>
    by_cases hexp : -1 ≤ expected
    · rw [metBelow_of_le hexp, List.length_drop]
      omega
    · have hbelow : expected < -1 := Int.not_le.1 hexp
      rw [metBelow_of_lt hsome hbelow, List.length_append,
        ih (-1 - (expected + stored.length)).toNat (by omega) rfl]
      omega

end Meeting

section Retrying

variable {W : Type} {place : Place W Store} {compatible : Compatibility} {allowance : Nat} {w : W}
  {stream : StreamId}

/-- What is met in one round is paired before what is met later. -/
theorem outcomeOf_append {batch : List NewEvent} {expected : Int} {met : List (Placed Nat)}
    (later : List (Placed Nat)) :
    outcomeOf place compatible w stream batch expected (met ++ later) =
      match firstConflict? compatible (met.zip batch) with
      | some error => (w, .refused error)
      | none =>
        if batch.length ≤ met.length then (w, .accepted)
        else outcomeOf place compatible w stream (batch.drop met.length) (expected + met.length) later := by
  have hconflict : firstConflict? compatible ((met ++ later).zip batch) =
      (firstConflict? compatible (met.zip batch)).or
        (firstConflict? compatible (later.zip (batch.drop met.length))) := by
    unfold firstConflict?
    rw [zip_append_drop, List.findSome?_append]
  unfold outcomeOf
  rw [hconflict]
  cases firstConflict? compatible (met.zip batch) with
  | some error => rfl
  | none =>
    rw [Option.none_or]
    dsimp only
    by_cases hle : batch.length ≤ met.length
    · have hnone : firstConflict? compatible (later.zip (batch.drop met.length)) = none := by
        rw [List.drop_eq_nil_of_le hle, List.zip_nil_right]
        rfl
      rw [hnone, if_pos hle]
      dsimp only
      rw [List.length_append, if_pos (Nat.le_add_right_of_le hle)]
    · rw [if_neg hle]
      cases firstConflict? compatible (later.zip (batch.drop met.length)) with
      | some error => rfl
      | none =>
        have hiff : batch.length ≤ (met ++ later).length ↔ (batch.drop met.length).length ≤ later.length := by
          rw [List.length_append, List.length_drop]
          omega
        dsimp only
        rw [if_congr hiff rfl rfl, List.drop_drop, List.length_append, Int.natCast_add, Int.add_assoc]

/-- A conflict with a stream that is ahead is taken for a race, and another round begins. -/
theorem run_conflict (hplace : place.Lawful) (steps : Nat) {p : Progress Log.Cursor} (hp : p.phase = .writing)
    (hversion : p.expected < (place.get w).log.version stream) :
    runOnStore place compatible none allowance stream (1 + steps) w p =
      runOnStore place compatible none allowance stream steps w
        { p with attempts := p.attempts + 1, phase := .opening } := by
  have hstep : stepOnStore place compatible none allowance w stream p = _ :=
    stepOnStore_writing_refused allowance hplace hp (Int.ne_of_lt hversion).symm
  rw [if_pos hversion] at hstep
  exact runOnStore_succ steps hstep

/-- On a stream without events no step of a write moves its version on, and each conflict begins the same
again. -/
theorem run_unfinished (hplace : place.Lawful) (hc : (place.get w).log.Coherent)
    (hnone : (place.get w).log.hasStream stream = false) (steps : Nat) {p : Progress Log.Cursor}
    (hp : p.phase = .opening ∨ p.phase = .writing) (hrem : p.remaining ≠ []) (hbelow : p.expected < -1) :
    runOnStore place compatible none allowance stream steps w p = (w, .unfinished) := by
  induction steps generalizing p with
  | zero => rfl
  | succ steps ih =>
    rw [Nat.add_comm]
    rcases hp with hp | hp
    · have hstep : stepOnStore place compatible none allowance w stream p = _ :=
        stepOnStore_opening allowance hp
      have hpaired : p.paired = .going { p with phase := .writing } := by
        unfold Progress.paired
        rw [List.isEmpty_eq_false_iff.2 hrem]
        rfl
      rw [hnone, if_neg Bool.false_ne_true, hpaired] at hstep
      rw [runOnStore_succ steps hstep]
      exact ih (.inr rfl) hrem hbelow
    · have hversion := hc.version_eq stream
      rw [run_conflict hplace steps hp (by omega)]
      exact ih (.inl rfl) hrem hbelow

/-- On a stream with events every round moves on, and the last one begins at a version that the stream may
have. -/
theorem run_below (hplace : place.Lawful) (hc : (place.get w).log.Coherent)
    (hsome : (place.get w).log.hasStream stream = true) {steps : Nat} {p : Progress Log.Cursor}
    (hp : p.phase = .opening) (hsteps : 4 * p.remaining.length + 3 ≤ steps) :
    runOnStore place compatible none allowance stream steps w p =
      outcomeOf place compatible w stream p.remaining p.expected
        (metBelow ((place.get w).log.streamEvents stream) p.expected) := by
  have hlength := (place.get w).log.length_streamEvents stream
  have hcount := (hc.hasStream_iff stream).1 hsome
  have hversion := hc.version_eq stream
  have hpos : 0 < ((place.get w).log.streamEvents stream).length := by omega
  induction hn : p.remaining.length using Nat.strongRecOn generalizing p steps with
  | ind n ih =>
    by_cases hexp : -1 ≤ p.expected
    · rw [run_eq_outcomeOf hplace hc hp hexp (by omega), metBelow_of_le hexp]
      rfl
    · have hbelow : p.expected < -1 := Int.not_le.1 hexp
      -- a round that begins below meets the whole stream
      have hmet : metFrom (place.get w).log stream p.expected = (place.get w).log.streamEvents stream := by
        have hstart : (p.expected + 1).toNat = 0 := by omega
        unfold metFrom
        rw [hstart, List.drop_zero]
      have hround : Leads place compatible none allowance w stream _ p _ := leads_round hc hp
      obtain ⟨spent, hspent, hrun⟩ := hround
      rw [hmet] at hspent hrun
      rw [List.length_zip] at hspent
      obtain ⟨more, rfl⟩ : ∃ more, steps = spent + (1 + more) := ⟨steps - spent - 1, by omega⟩
      rw [hrun, goOn_afterPairing, metBelow_of_lt hpos hbelow, outcomeOf_append]
      cases firstConflict? compatible (((place.get w).log.streamEvents stream).zip p.remaining) with
      | some error => rfl
      | none =>
        dsimp only
        by_cases hle : p.remaining.length ≤ ((place.get w).log.streamEvents stream).length
        · rw [if_pos hle, if_pos hle]
        · rw [if_neg hle, if_neg hle, run_conflict hplace more rfl (by dsimp only; omega)]
          have hshorter : (p.remaining.drop ((place.get w).log.streamEvents stream).length).length =
              n - ((place.get w).log.streamEvents stream).length := by
            rw [List.length_drop, hn]
          exact ih _ (by omega) rfl (by dsimp only; omega) hshorter

variable (compatible) in
/-- The store refuses every write that expects a version below -1. An idempotent write that expects one never
ends if the stream has no events. If it has, the write is over within a bounded number of steps: the first
pair that is rejected refuses it, and otherwise it is accepted and appends what is left of the batch. So it
ends, is refused and leaves the stream as it is exactly if the stream has events and a pair is rejected. -/
theorem write_below_versions (hplace : place.Lawful) (hstore : (place.get w).Reached) (stream : StreamId)
    {batch : List NewEvent} (hne : batch ≠ []) {expected : Int} (hbelow : expected < -1) :
    let store := place.get w
    let current := store.log.version stream
    let met := metBelow (store.log.streamEvents stream) expected
    let result := fun allowance => (onStore place compatible none allowance).write w stream batch expected
    (Store.writer place).write w stream batch expected =
        (w, .refused (.wrongExpectedVersion current expected)) ∧
    (store.log.hasStream stream = false → ∀ allowance, result allowance = (w, .unfinished)) ∧
    (store.log.hasStream stream = true → met.length = (current - expected).toNat ∧
      ∀ allowance, 4 * batch.length + 3 ≤ allowance →
        (∀ error, firstConflict? compatible (met.zip batch) = some error →
          result allowance = (w, .refused error)) ∧
        (firstConflict? compatible (met.zip batch) = none → result allowance =
          if batch.length ≤ met.length then (w, .accepted)
          else (place.set w (store.append stream (batch.drop met.length)), .accepted))) ∧
    ((∃ error enough, ∀ allowance, enough ≤ allowance → result allowance = (w, .refused error)) ↔
      store.log.hasStream stream = true ∧
        ∃ pair ∈ met.zip batch, compatible.reason? pair.1.record pair.2 ≠ none) := by
  intro store current met result
  have hc : store.log.Coherent := hstore.coherent
  have hlength := store.log.length_streamEvents stream
  have hversion : current = (store.log.count stream : Int) - 1 := hc.version_eq stream
  have hdifferent : store.log.version stream ≠ expected := by
    have hfirst : -1 ≤ current := by omega
    exact fun he => absurd (he ▸ hfirst) (Int.not_le.2 hbelow)
  have hmissing : store.log.hasStream stream = false → ∀ allowance, result allowance = (w, .unfinished) :=
    fun hnone allowance => run_unfinished hplace hc hnone allowance (.inl rfl) hne hbelow
  have hthere : store.log.hasStream stream = true → met.length = (current - expected).toNat ∧
      ∀ allowance, 4 * batch.length + 3 ≤ allowance →
        result allowance = outcomeOf place compatible w stream batch expected met := by
    intro hsome
    have hcount := (hc.hasStream_iff stream).1 hsome
    have hmet : met.length = _ := length_metBelow (by omega)
    exact ⟨by omega, fun allowance hsteps => run_below hplace hc hsome rfl hsteps⟩
  have hover : store.log.hasStream stream = true → firstConflict? compatible (met.zip batch) = none →
      outcomeOf place compatible w stream batch expected met = if batch.length ≤ met.length then (w, .accepted)
        else (place.set w (store.append stream (batch.drop met.length)), .accepted) := by
    intro hsome hnone
    have hcount := (hc.hasStream_iff stream).1 hsome
    have hreached : store.log.version stream = expected + met.length := by
      have hmet := (hthere hsome).1
      omega
    exact outcomeOf_of_reached hnone hreached
  refine ⟨?_, hmissing, ?_, ?_⟩
  · unfold Store.writer
    dsimp only
    rw [Store.write_refused hdifferent, hplace.set_get]
  · intro hsome
    obtain ⟨hmet, hall⟩ := hthere hsome
    refine ⟨hmet, fun allowance hsteps => ⟨?_, ?_⟩⟩
    · intro error hconflict
      rw [hall allowance hsteps, outcomeOf_of_conflict hconflict]
    · intro hnone
      rw [hall allowance hsteps]
      exact hover hsome hnone
  · have hrejected : (∃ pair ∈ met.zip batch, compatible.reason? pair.1.record pair.2 ≠ none) ↔
        firstConflict? compatible (met.zip batch) ≠ none := by
      rw [ne_eq, firstConflict?_eq_none_iff]
      simp only [not_forall, ne_eq, exists_prop]
    rw [hrejected]
    constructor
    · rintro ⟨error, enough, hrefused⟩
      have hsome : store.log.hasStream stream = true := by
        rw [← Bool.not_eq_false]
        intro hnone
        have hend := (hmissing hnone enough).symm.trans (hrefused enough (Nat.le_refl _))
        nomatch hend
      refine ⟨hsome, fun hnone => ?_⟩
      have hend := (hthere hsome).2 (max enough (4 * batch.length + 3)) (Nat.le_max_right _ _)
      rw [hrefused _ (Nat.le_max_left _ _), hover hsome hnone] at hend
      by_cases hle : batch.length ≤ met.length
      · rw [if_pos hle] at hend
        nomatch congrArg Prod.snd hend
      · rw [if_neg hle] at hend
        nomatch congrArg Prod.snd hend
    · rintro ⟨hsome, hconflict⟩
      obtain ⟨error, herror⟩ := Option.ne_none_iff_exists'.1 hconflict
      refine ⟨error, 4 * batch.length + 3, fun allowance hsteps => ?_⟩
      rw [(hthere hsome).2 allowance hsteps, outcomeOf_of_conflict herror]

/-- A batch of two meets a stream of one event twice before it reaches the stream's version. The event is
accepted for the first, and rejected for the second. -/
theorem write_below_versions_refused :
    let orders : StreamId := ⟨"orders", "1", by decide⟩
    let placed : NewEvent := ⟨"Placed", [1], []⟩
    let paid : NewEvent := ⟨"Paid", [2], []⟩
    let store := (Store.withClock fun _ => .epoch).append orders [placed]
    let met := metBelow (store.log.streamEvents orders) (-2)
    (Place.whole Store).Lawful ∧ store.Reached ∧ [placed, paid] ≠ [] ∧ (-2 : Int) < -1 ∧
      met.map (·.position) = [1, 1] ∧ ∃ error enough, ∀ allowance, enough ≤ allowance →
        (onStore (Place.whole Store) .basic none allowance).write store orders [placed, paid] (-2) =
          (store, .refused error) := by
  intro orders placed paid store met
  have hstore : store.Reached := (Store.Reached.start fun _ => .epoch).append orders [placed]
  have hmet : met = [⟨1, placed.stored .epoch orders 0⟩, ⟨1, placed.stored .epoch orders 0⟩] := by
    decide +kernel
  have hsome : store.log.hasStream orders = true := by decide +kernel
  have hrejected : ∃ pair ∈ met.zip [placed, paid],
      Compatibility.basic.reason? pair.1.record pair.2 ≠ none := by
    rw [hmet]
    exact ⟨_, List.mem_cons_of_mem _ List.mem_cons_self, by decide +kernel⟩
  have hbelow := write_below_versions .basic (Place.whole_lawful Store) hstore orders
    (List.cons_ne_nil placed [paid]) (by decide : (-2 : Int) < -1)
  exact ⟨Place.whole_lawful Store, hstore, List.cons_ne_nil _ _, by decide, by rw [hmet]; rfl,
    hbelow.2.2.2.2 ⟨hsome, hrejected⟩⟩

/-- A batch of three meets a stream of one event twice, both times as one of its first two. Its last event is
appended, though the store refuses the batch at that version. -/
theorem write_below_versions_appends_rest :
    let orders : StreamId := ⟨"orders", "1", by decide⟩
    let placed : NewEvent := ⟨"Placed", [1], []⟩
    let paid : NewEvent := ⟨"Paid", [2], []⟩
    let store := (Store.withClock fun _ => .epoch).append orders [placed]
    let batch := [placed, placed, paid]
    let result := (onStore (Place.whole Store) .basic none 15).write store orders batch (-2)
    ((Store.writer (Place.whole Store)).write store orders batch (-2)).2 =
        .refused (.wrongExpectedVersion 0 (-2)) ∧
      result.2 = .accepted ∧
      (result.1.log.streamEvents orders).map (·.record.content) = [placed, paid] := by
  decide +kernel

end Retrying

end Idempotent

end Chronicle
