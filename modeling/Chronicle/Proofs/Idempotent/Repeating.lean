import Chronicle.Proofs.Idempotent.Conjunctions
import Chronicle.Proofs.Idempotent.Rivals

/-!
# Repeating a call

A producer that does not learn what came of its call makes the same call again. Once a call was accepted,
its batches stand in their streams under the numbers after the expected versions. No later append moves an
event or gives its number to another, so a repeated write finds the events that the first one paired or
wrote, pairs each of them again and has nothing left to write.
-/

namespace Chronicle

/-- A compatibility that accepts every stored event against the event it was made from. -/
def Compatibility.AcceptsOwn (compatible : Compatibility) : Prop :=
  ∀ record : EventRecord, compatible.reason? record record.content = none

/-- What a writer uses unless told otherwise accepts every stored event against its own. -/
theorem Compatibility.basic_acceptsOwn : basic.AcceptsOwn :=
  fun _ => basic_accepts_iff.2 ⟨rfl, rfl⟩

/-- The version that a request is written after. A request that names none is for an empty stream. -/
def StreamRequest.version (request : StreamRequest) : Int := request.expected.getD noVersion

/-- A call of a writer. -/
inductive Call where
  /-- Write to a stream after an expected version. -/
  | write (stream : StreamId) (events : List NewEvent) (expected : Int)
  /-- Append to a stream. -/
  | append (stream : StreamId) (events : List NewEvent)
  /-- Execute requests in order. -/
  | execute (requests : List StreamRequest)

/-- The requests of a call. -/
def Call.requests : Call → List StreamRequest
  | write stream events expected => [⟨stream, events, some expected⟩]
  | append stream events => [⟨stream, events, none⟩]
  | execute requests => requests

/-- Makes a call. -/
def Call.on {W : Type} (writer : EventWriter W) (w : W) : Call → W × WriteOutcome
  | write stream events expected => writer.write w stream events expected
  | append stream events => writer.append w stream events
  | execute requests => writer.execute w requests

namespace Idempotent

section Running

variable {W P : Type} {config : Idempotent W P} {w later : W} {stream : StreamId}
  {p : Progress config.reader.Cursor} {steps : Nat}

/-- A step that leads on leaves the rest of the steps to what it leads to. -/
theorem run_of_going {next : Progress config.reader.Cursor}
    (h : config.step w stream p = (later, .going next)) :
    config.run stream (steps + 1) w p = config.run stream steps later next := by
  rw [run, h]

/-- A step that ends a write ends its run. -/
theorem run_of_ended {outcome : WriteOutcome} (h : config.step w stream p = (later, .ended outcome)) :
    config.run stream (steps + 1) w p = (later, outcome) := by
  rw [run, h]

end Running

section Repeating

variable {W : Type} {place : Place W Store} {compatible : Compatibility} {maxAttempts : Option Nat}
  {allowance : Nat}

section Absorbing

variable {log : Log} {stream : StreamId} {expected : Int} {batch : List NewEvent}

/-- A batch that was delivered counts as absorbed, also what the write itself added of it. -/
theorem Delivered.absorbed {added : List (Placed Nat)} (hown : compatible.AcceptsOwn)
    (h : Delivered compatible log added stream expected batch) :
    Absorbed compatible log stream expected batch batch.length := by
  obtain ⟨m, -, -, hall⟩ := h
  intro i new _ hn
  obtain ⟨e, he, hs, hnum, hside⟩ := hall i new hn
  refine ⟨e, he, hs, hnum, ?_⟩
  by_cases hi : i < m
  · rw [if_pos hi] at hside
    exact hside.2
  · rw [if_neg hi] at hside
    rw [← hside.2]
    exact hown e.record

/-- An absorbed batch has its first event right after the version, and the others after that. -/
theorem Absorbed.cons {new : NewEvent} {rest : List NewEvent}
    (h : Absorbed compatible log stream expected (new :: rest) (rest.length + 1)) :
    (∃ e ∈ log.events, e.record.stream = stream ∧ e.record.number = expected + 1 ∧
      compatible.reason? e.record new = none) ∧
      Absorbed compatible log stream (expected + 1) rest rest.length := by
  constructor
  · obtain ⟨e, he, hs, hn, ha⟩ := h 0 new (Nat.succ_pos _) rfl
    exact ⟨e, he, hs, by omega, ha⟩
  · intro i later hi hl
    obtain ⟨e, he, hs, hn, ha⟩ := h (i + 1) later (by omega) hl
    exact ⟨e, he, hs, by omega, ha⟩

end Absorbing

section Alone

variable {w : W} {stream : StreamId}

/-- A write whose rest stands in the stream pairs all of it and leaves the world. -/
theorem run_pairing_absorbed (hc : (place.get w).log.Coherent) {steps passed : Nat} {after : Int}
    {p : Progress Log.Cursor} (hp : p.phase = .pairing (.forwards passed (.streamAfter stream after)))
    (hread : ReadUpTo (place.get w).log stream p.expected passed after)
    (h : Absorbed compatible (place.get w).log stream p.expected p.remaining p.remaining.length)
    (hsteps : p.remaining.length < steps) :
    (onStore place compatible maxAttempts allowance).run stream steps w p = (w, .accepted) := by
  induction steps generalizing p passed with
  | zero => omega
  | succ steps ih =>
    have hstep : stepOnStore place compatible maxAttempts allowance w stream p = _ :=
      stepOnStore_pairing allowance hp
    cases hrem : p.remaining with
    | nil =>
      rw [hrem] at hstep
      unfold Progress.paired at hstep
      rw [hrem, List.isEmpty_nil, if_pos rfl] at hstep
      exact run_of_ended hstep
    | cons new rest =>
      rw [hrem] at hstep h
      obtain ⟨⟨e, he, hs, hn, ha⟩, htail⟩ := h.cons
      dsimp only at hstep
      cases hf : Log.firstSelected (.streamAfter stream after) passed
          ((place.get w).log.events.drop passed) with
      | mk stop found =>
        rw [hf] at hstep
        cases found with
        | none =>
          -- the read cannot end before the event that stands there
          have hv := hread.version_le hc hf
          have hversion := hc.version_eq stream
          have hlt := (hc.number_lt he).2
          rw [hs] at hlt
          omega
        | some current =>
          obtain ⟨hmem, hstream, hnumber, hread'⟩ := hread.next hc hf
          have hsame : current = e :=
            hc.eq_of_number_eq hmem he (hstream.trans hs.symm) (hnumber.trans hn.symm)
          dsimp only at hstep
          rw [hsame, ha] at hstep
          have hlen : rest.length < steps := by
            rw [hrem, List.length_cons] at hsteps
            omega
          exact (run_of_going hstep).trans (ih rfl hread' htail hlen)

/-- A write of a batch that stands in the stream is accepted and leaves the world. -/
theorem write_absorbed (hc : (place.get w).log.Coherent) {events : List NewEvent} {expected : Int}
    (hexp : -1 ≤ expected) (hsteps : events.length + 2 ≤ allowance)
    (h : Absorbed compatible (place.get w).log stream expected events events.length) :
    (onStore place compatible maxAttempts allowance).write w stream events expected = (w, .accepted) := by
  obtain ⟨steps, rfl⟩ : ∃ steps, allowance = steps + 1 := ⟨allowance - 1, by omega⟩
  have hstep : stepOnStore place compatible maxAttempts (steps + 1) w stream (.start events expected) = _ :=
    stepOnStore_opening (steps + 1) rfl
  by_cases hs : (place.get w).log.hasStream stream = true
  · rw [if_pos hs] at hstep
    have hlen : events.length < steps := by omega
    exact (run_of_going hstep).trans (run_pairing_absorbed hc rfl (.start hexp) h hlen)
  · rw [if_neg hs] at hstep
    cases events with
    | nil => exact run_of_ended hstep
    | cons new rest =>
      obtain ⟨⟨e, he, hes, -, -⟩, -⟩ := h.cons
      have hlt := hc.number_lt he
      rw [hes] at hlt
      exact absurd ((hc.hasStream_iff stream).2 (by omega)) hs

/-- A request is a write after its version. -/
theorem apply_eq_write (config : Idempotent W Nat) (w : W) (request : StreamRequest) :
    config.eventWriter.apply w request =
      config.write w request.stream request.events request.version := by
  unfold StreamWrites.apply StreamRequest.version
  cases request.expected with
  | none => rfl
  | some expected => rfl

/-- Requests whose batches stand in their streams are accepted and leave the world. -/
theorem applyAll_absorbed (hc : (place.get w).log.Coherent) {requests : List StreamRequest}
    (hcall : ∀ request ∈ requests, -1 ≤ request.version ∧ request.events.length + 2 ≤ allowance)
    (h : ∀ request ∈ requests, Absorbed compatible (place.get w).log request.stream request.version
      request.events request.events.length) :
    (onStore place compatible maxAttempts allowance).eventWriter.applyAll w [] requests =
      (w, .accepted) := by
  induction requests with
  | nil => rfl
  | cons request rest ih =>
    obtain ⟨hexp, hsteps⟩ := hcall request List.mem_cons_self
    have hwrite : (onStore place compatible maxAttempts allowance).write w request.stream
        request.events request.version = (w, .accepted) :=
      write_absorbed hc hexp hsteps (h request List.mem_cons_self)
    unfold StreamWrites.applyAll
    rw [apply_eq_write, hwrite]
    exact ih (fun r hr => hcall r (List.mem_cons_of_mem _ hr)) (fun r hr => h r (List.mem_cons_of_mem _ hr))

end Alone

section Accepting

variable {stream : StreamId}

variable (place compatible maxAttempts allowance) in
/-- Requests are accepted one after another, each by a write among other writers. -/
inductive AcceptedAmong : W → List StreamRequest → W → Prop where
  /-- Nothing was requested. -/
  | nil (w : W) : AcceptedAmong w [] w
  /-- The write of a request ends well after some turns, and the others follow. -/
  | cons {w later : W} {request : StreamRequest} {rest : List StreamRequest} (turns : List Turn)
    (ended : ((Contest.start w request.events request.version).turns place compatible maxAttempts
      allowance request.stream turns).next = .ended .accepted)
    (others : AcceptedAmong ((Contest.start w request.events request.version).turns place compatible
      maxAttempts allowance request.stream turns).world rest later) :
    AcceptedAmong w (request :: rest) later

/-- A write that runs alone is a contest in which it takes every turn. -/
theorem turns_of_run {steps : Nat} {c : Contest W} {p : Progress Log.Cursor} {later : W}
    (hn : c.next = .going p)
    (h : (onStore place compatible maxAttempts allowance).run stream steps c.world p =
      (later, .accepted)) :
    ∃ turns, (c.turns place compatible maxAttempts allowance stream turns).world = later ∧
      (c.turns place compatible maxAttempts allowance stream turns).next = .ended .accepted := by
  induction steps generalizing c p with
  | zero => simp [run] at h
  | succ steps ih =>
    have hown : (c.turn place compatible maxAttempts allowance stream .own).world =
          (stepOnStore place compatible maxAttempts allowance c.world stream p).1 ∧
        (c.turn place compatible maxAttempts allowance stream .own).next =
          (stepOnStore place compatible maxAttempts allowance c.world stream p).2 := by
      unfold Contest.turn
      simp only [hn, and_self]
    cases hs : stepOnStore place compatible maxAttempts allowance c.world stream p with
    | mk world next =>
      rw [hs] at hown
      cases next with
      | ended outcome =>
        rw [run_of_ended hs, Prod.mk.injEq] at h
        exact ⟨[.own], hown.1.trans h.1, hown.2.trans (congrArg Next.ended h.2)⟩
      | going next =>
        have hrest := (run_of_going hs).symm.trans h
        dsimp only at hown
        rw [← hown.1] at hrest
        obtain ⟨turns, hworld, hnext⟩ := ih hown.2 hrest
        exact ⟨.own :: turns, hworld, hnext⟩

/-- A write that runs alone and is accepted is accepted among others, who do nothing. -/
theorem AcceptedAmong.of_write {w later last : W} {request : StreamRequest} {rest : List StreamRequest}
    (h : (onStore place compatible maxAttempts allowance).write w request.stream request.events
      request.version = (later, .accepted))
    (hrest : AcceptedAmong place compatible maxAttempts allowance later rest last) :
    AcceptedAmong place compatible maxAttempts allowance w (request :: rest) last := by
  have hstart : (Contest.start w request.events request.version).next =
      .going (.start request.events request.version) := rfl
  obtain ⟨turns, hworld, hnext⟩ := turns_of_run hstart h
  exact .cons turns hnext (hworld ▸ hrest)

/-- Requests executed alone and accepted are accepted one after another. -/
theorem AcceptedAmong.of_applyAll {w later : W} {conflicts : List StreamConflict}
    {requests : List StreamRequest}
    (h : (onStore place compatible maxAttempts allowance).eventWriter.applyAll w conflicts requests =
      (later, .accepted)) :
    conflicts = [] ∧ AcceptedAmong place compatible maxAttempts allowance w requests later := by
  induction requests generalizing w conflicts with
  | nil =>
    unfold StreamWrites.applyAll at h
    cases conflicts with
    | nil =>
      rw [Prod.mk.injEq] at h
      exact ⟨rfl, h.1 ▸ .nil w⟩
    | cons conflict others => simp [WriteOutcome.ofConflicts] at h
  | cons request rest ih =>
    unfold StreamWrites.applyAll at h
    rw [apply_eq_write] at h
    split at h
    · rename_i world hw
      obtain ⟨hconflicts, hrest⟩ := ih h
      exact ⟨hconflicts, .of_write hw hrest⟩
    · -- a conflict that was noted is still noted at the end
      have hnone := (ih h).1
      simp at hnone
    · rename_i hnot _ _
      rw [Prod.mk.injEq] at h
      exact absurd h.2 hnot

variable (allowance) in
/-- The store of a write among others only moves on by appends. -/
theorem Contest.Sound.leadsTo {c : Contest W} (hplace : place.Lawful) {expected : Int}
    {batch : List NewEvent} (hexp : -1 ≤ expected)
    (h : c.Sound place compatible maxAttempts stream expected batch) (turns : List Turn) :
    (place.get c.world).LeadsTo
      (place.get (c.turns place compatible maxAttempts allowance stream turns).world) := by
  induction turns generalizing c with
  | nil => exact .same
  | cons turn rest ih =>
    have hturn : (place.get c.world).LeadsTo
        (place.get (c.turn place compatible maxAttempts allowance stream turn).world) := by
      cases turn with
      | rival other events =>
        unfold Contest.turn
        dsimp only
        rw [hplace.get_set]
        exact Store.LeadsTo.same.append other events
      | own =>
        have hn := h.2
        unfold Contest.turn
        cases hnext : c.next with
        | ended outcome => exact .same
        | going p =>
          rw [hnext] at hn
          have hworld : (stepOnStore place compatible maxAttempts allowance c.world stream p).1 = _ ∨ _ :=
            stepOnStore_world allowance hplace hn.phase
          dsimp only
          rcases hworld with hs | ⟨events, hs⟩
          · rw [hs]
            exact .same
          · rw [hs, hplace.get_set]
            exact Store.LeadsTo.same.append stream events
    have hrest : Contest.Sound place compatible maxAttempts stream expected batch
        (c.turn place compatible maxAttempts allowance stream turn) :=
      h.turns allowance hplace hexp [turn]
    exact hturn.trans (ih hrest)

/-- The batches of accepted requests stand in their streams. -/
theorem AcceptedAmong.absorbed (hplace : place.Lawful) (hown : compatible.AcceptsOwn) {w later : W}
    {requests : List StreamRequest} (hstore : (place.get w).Reached)
    (hcall : ∀ request ∈ requests, -1 ≤ request.version)
    (h : AcceptedAmong place compatible maxAttempts allowance w requests later) :
    (place.get w).LeadsTo (place.get later) ∧
      ∀ request ∈ requests, Absorbed compatible (place.get later).log request.stream request.version
        request.events request.events.length := by
  induction h with
  | nil w => exact ⟨.same, fun _ hr => absurd hr List.not_mem_nil⟩
  | @cons w later request rest turns ended _ ih =>
    have hexp := hcall request List.mem_cons_self
    have hstart : (Contest.start w request.events request.version).Sound place compatible maxAttempts
        request.stream request.version request.events := .start hstore.coherent
    have hleads := hstart.leadsTo allowance hplace hexp turns
    have hover := (hstart.turns allowance hplace hexp turns).2
    rw [ended] at hover
    have hdelivered := hover.settled
    obtain ⟨hrest, hothers⟩ := ih (hleads.reached hstore) fun r hr => hcall r (List.mem_cons_of_mem _ hr)
    refine ⟨hleads.trans hrest, ?_⟩
    intro r hr
    rcases List.mem_cons.1 hr with rfl | hr
    · exact (Delivered.absorbed hown hdelivered).mono hrest.events_prefix
    · exact hothers r hr

end Accepting

section Calls

/-- A call that is accepted has no stream twice, and its requests are accepted one after another. -/
theorem AcceptedAmong.of_on {w later : W} {call : Call}
    (h : call.on (onStore place compatible maxAttempts allowance).eventWriter w = (later, .accepted)) :
    repeatedStream? [] call.requests = none ∧
      AcceptedAmong place compatible maxAttempts allowance w call.requests later := by
  cases call with
  | write stream events expected => exact ⟨rfl, .of_write h (.nil later)⟩
  | append stream events => exact ⟨rfl, .of_write h (.nil later)⟩
  | execute requests =>
    simp only [Call.on, Call.requests, eventWriter, StreamWrites.executeInOrder] at h ⊢
    cases hr : repeatedStream? [] requests with
    | some stream => simp [hr] at h
    | none =>
      rw [hr] at h
      exact ⟨rfl, (of_applyAll h).2⟩

/-- A call whose batches stand in their streams is accepted and leaves the world. -/
theorem on_absorbed {w : W} (hc : (place.get w).log.Coherent) {call : Call}
    (hcall : ∀ request ∈ call.requests, -1 ≤ request.version ∧ request.events.length + 2 ≤ allowance)
    (hdistinct : repeatedStream? [] call.requests = none)
    (h : ∀ request ∈ call.requests, Absorbed compatible (place.get w).log request.stream
      request.version request.events request.events.length) :
    call.on (onStore place compatible maxAttempts allowance).eventWriter w = (w, .accepted) := by
  cases call with
  | write stream events expected =>
    obtain ⟨hexp, hsteps⟩ := hcall _ List.mem_cons_self
    exact write_absorbed hc hexp hsteps (h _ List.mem_cons_self)
  | append stream events =>
    obtain ⟨hexp, hsteps⟩ := hcall _ List.mem_cons_self
    exact write_absorbed hc hexp hsteps (h _ List.mem_cons_self)
  | execute requests =>
    show StreamWrites.executeInOrder _ w requests = _
    unfold StreamWrites.executeInOrder
    rw [show repeatedStream? [] requests = none from hdistinct]
    exact applyAll_absorbed hc hcall h

end Calls

/-- A call that was accepted, alone or with other writers at work between its steps, can be made again at
any later time: it is accepted and changes nothing. To find that a request is done takes at most two steps
more than it has events, which must be allowed. -/
theorem accepted_calls_repeat (hplace : place.Lawful) (hown : compatible.AcceptsOwn) {w later last : W}
    (hstore : (place.get w).Reached) (call : Call)
    (hcall : ∀ request ∈ call.requests, -1 ≤ request.version ∧ request.events.length + 2 ≤ allowance)
    (haccepted :
      call.on (onStore place compatible maxAttempts allowance).eventWriter w = (later, .accepted) ∨
        repeatedStream? [] call.requests = none ∧
          AcceptedAmong place compatible maxAttempts allowance w call.requests later)
    (hlast : (place.get later).LeadsTo (place.get last)) :
    call.on (onStore place compatible maxAttempts allowance).eventWriter last = (last, .accepted) := by
  obtain ⟨hdistinct, hamong⟩ : repeatedStream? [] call.requests = none ∧
      AcceptedAmong place compatible maxAttempts allowance w call.requests later := by
    rcases haccepted with halone | hamong
    · exact AcceptedAmong.of_on halone
    · exact hamong
  obtain ⟨hleads, habsorbed⟩ := hamong.absorbed hplace hown hstore fun r hr => (hcall r hr).1
  have hcoherent := (hlast.reached (hleads.reached hstore)).coherent
  exact on_absorbed hcoherent hcall hdistinct fun r hr => (habsorbed r hr).mono hlast.events_prefix

/-- One request finds its first event already there and writes the second, another finds an empty stream.
Both streams grow before the call is made again. -/
theorem accepted_calls_repeat_growing :
    let orders : StreamId := ⟨"orders", "1", by decide⟩
    let bills : StreamId := ⟨"bills", "1", by decide⟩
    let placed : NewEvent := ⟨"Placed", [1], []⟩
    let paid : NewEvent := ⟨"Paid", [2], []⟩
    let store := (Store.withClock fun _ => .epoch).append orders [placed]
    let call := Call.execute [⟨orders, [placed, paid], some (-1)⟩, ⟨bills, [paid], none⟩]
    let writer := (onStore (Place.whole Store) .basic none 4).eventWriter
    let later := (call.on writer store).1
    let last := ((later.append bills [placed]).write orders [paid] 1).1
    (Place.whole Store).Lawful ∧ Compatibility.basic.AcceptsOwn ∧ store.Reached ∧
      (∀ request ∈ call.requests, -1 ≤ request.version ∧ request.events.length + 2 ≤ 4) ∧
        call.on writer store = (later, .accepted) ∧ later.LeadsTo last ∧ last.size = 5 ∧
          call.on writer last = (last, .accepted) := by
  intro orders bills placed paid store call writer later last
  have hstore : store.Reached := (Store.Reached.start fun _ => .epoch).append orders [placed]
  have hcall : ∀ request ∈ call.requests, -1 ≤ request.version ∧ request.events.length + 2 ≤ 4 := by
    decide
  have hfirst : call.on writer store = (later, .accepted) := Prod.ext rfl (by decide +kernel)
  have hlast : later.LeadsTo last := (Store.LeadsTo.same.append bills [placed]).write orders [paid] 1
  have hagain := accepted_calls_repeat (Place.whole_lawful Store) Compatibility.basic_acceptsOwn hstore
    call hcall (.inl hfirst) hlast
  exact ⟨Place.whole_lawful Store, Compatibility.basic_acceptsOwn, hstore, hcall, hfirst, hlast,
    by decide +kernel, hagain⟩

end Repeating

end Idempotent

end Chronicle
