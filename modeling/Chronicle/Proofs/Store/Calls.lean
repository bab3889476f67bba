import Chronicle.Proofs.Idempotent.Repeating

/-!
# Calls of many clients on one store

A write or an append takes effect in one step, under the store's lock. An `execute` takes one such step
for each of its requests, and other clients may come between them. Here any number of clients make calls
on one store in any interleaving, and a journal keeps every request with the store that it found. What a
request does to the store is said once, for an entry of the journal; the journal is a chain, so a whole
history follows by induction along it.
-/

namespace Chronicle.Store

section Entries

/-- A request that was tried. -/
structure Entry where
  /-- The number of the client whose request it is. -/
  client : Nat
  /-- The request. -/
  request : StreamRequest
  /-- The store that the request found. -/
  found : Store

namespace Entry

/-- The store that the request left. -/
def left (entry : Entry) : Store :=
  ((writer (Place.whole Store)).apply entry.found entry.request).1

/-- What came of the request. -/
def outcome (entry : Entry) : WriteOutcome :=
  ((writer (Place.whole Store)).apply entry.found entry.request).2

/-- The conflict of versions that the request met, if it met one. -/
def conflict? (entry : Entry) : Option StreamConflict :=
  match entry.outcome with
  | .refused (.wrongExpectedVersion current expected) =>
    some ⟨entry.request.stream, current, expected⟩
  | _ => none

/-- The version of the request's stream in the store that it found. -/
def current (entry : Entry) : Int := entry.found.log.version entry.request.stream

/-- A request that asks for no version is an append. -/
theorem result_of_none {entry : Entry} (h : entry.request.expected = none) :
    entry.left = entry.found.append entry.request.stream entry.request.events ∧
      entry.outcome = .accepted := by
  unfold left outcome StreamWrites.apply
  rw [h]
  exact ⟨rfl, rfl⟩

/-- A request that asks for a version is a write. -/
theorem result_of_some {entry : Entry} {expected : Int} (h : entry.request.expected = some expected) :
    (entry.left, entry.outcome) =
      entry.found.write entry.request.stream entry.request.events expected := by
  unfold left outcome StreamWrites.apply
  rw [h]
  rfl

/-- A request is an append that is accepted, or it names another version than the stream has and is
refused with both. -/
theorem result_cases (entry : Entry) :
    (entry.left = entry.found.append entry.request.stream entry.request.events ∧
        entry.outcome = .accepted ∧
          ∀ expected, entry.request.expected = some expected → entry.current = expected) ∨
      ∃ expected, entry.request.expected = some expected ∧ entry.current ≠ expected ∧
        entry.left = entry.found ∧
          entry.outcome = .refused (.wrongExpectedVersion entry.current expected) := by
  cases he : entry.request.expected with
  | none =>
    obtain ⟨hleft, hout⟩ := result_of_none he
    exact .inl ⟨hleft, hout, fun _ hsome => nomatch hsome⟩
  | some expected =>
    have hresult := result_of_some he
    by_cases hv : entry.current = expected
    · rw [write_accepted hv, Prod.mk.injEq] at hresult
      refine .inl ⟨hresult.1, hresult.2, ?_⟩
      intro other hother
      exact hv.trans (Option.some.inj hother)
    · rw [write_refused hv, Prod.mk.injEq] at hresult
      exact .inr ⟨expected, rfl, hv, hresult.1, hresult.2⟩

/-- A request that was accepted extends the log by exactly its batch, under one timestamp, and one that
was refused leaves the store and reports both versions. -/
structure Faithful (entry : Entry) : Prop where
  /-- A request is accepted exactly if the stream has the version that it asks for, if it asks for one. -/
  accepted_iff : entry.outcome = .accepted ↔
    ∀ expected, entry.request.expected = some expected → entry.current = expected
  /-- The batch of an accepted request comes behind all events, in order and under one timestamp. -/
  extends_log : entry.outcome = .accepted → ∃ batch timestamp,
    entry.left.log.events = entry.found.log.events ++ batch ∧
      batch.map (·.record.content) = entry.request.events ∧
        ∀ e ∈ batch, e.record.stream = entry.request.stream ∧ e.record.timestamp = timestamp
  /-- A refused request leaves everything as it was and reports both versions. -/
  refused : entry.outcome ≠ .accepted → entry.left = entry.found ∧
    ∃ expected, entry.request.expected = some expected ∧ entry.current ≠ expected ∧
      entry.outcome = .refused (.wrongExpectedVersion entry.current expected)

/-- Every request is faithful. -/
theorem faithful (entry : Entry) : entry.Faithful := by
  rcases entry.result_cases with ⟨hleft, hout, hall⟩ | ⟨expected, he, hne, hleft, hout⟩
  · refine ⟨⟨fun _ => hall, fun _ => hout⟩, fun _ => ?_, fun hnot => absurd hout hnot⟩
    have hlog := Log.events_append entry.found.log entry.request.stream entry.request.events
      (entry.found.clock entry.found.asked)
    refine ⟨_, entry.found.clock entry.found.asked, (congrArg (·.log.events) hleft).trans hlog, ?_, ?_⟩
    · exact Log.map_content_placeBatch _ _ _ _ _
    · intro e hm
      exact Log.origin_of_mem_placeBatch _ _ hm
  · have hnot : entry.outcome ≠ .accepted := by
      rw [hout]
      exact WriteOutcome.noConfusion
    exact ⟨⟨fun h => absurd h hnot, fun h => absurd (h expected he) hne⟩, fun h => absurd h hnot,
      fun _ => ⟨hleft, expected, he, hne, hout⟩⟩

/-- A request leads from the store that it found to the one that it left. -/
theorem leadsTo (entry : Entry) : entry.found.LeadsTo entry.left := by
  rcases entry.result_cases with ⟨hleft, -, -⟩ | ⟨_, -, -, hleft, -⟩
  · rw [hleft]
    exact LeadsTo.same.append _ _
  · rw [hleft]
    exact .same

/-- A request that met no conflict was accepted. -/
theorem outcome_of_no_conflict {entry : Entry} (h : entry.conflict? = none) :
    entry.outcome = .accepted := by
  rcases entry.result_cases with ⟨-, hout, -⟩ | ⟨_, -, -, -, hout⟩
  · exact hout
  · unfold conflict? at h
    rw [hout] at h
    nomatch h

/-- Requests that met no conflict were all accepted. -/
theorem outcome_of_no_conflicts {entries : List Entry} (h : entries.filterMap conflict? = []) :
    ∀ entry ∈ entries, entry.outcome = .accepted := by
  intro entry hm
  exact outcome_of_no_conflict (List.filterMap_eq_nil_iff.1 h entry hm)

/-- The request was accepted, and added events to a stream for which it asked for a version. -/
structure Wins (entry : Entry) (stream : StreamId) (expected : Int) : Prop where
  /-- It was accepted. -/
  accepted : entry.outcome = .accepted
  /-- It wrote to the stream. -/
  stream : entry.request.stream = stream
  /-- It asked for the version. -/
  expected : entry.request.expected = some expected
  /-- It wrote something. -/
  events : entry.request.events ≠ []

end Entry

/-- Along a chain, each request finds the store that the one before it left. -/
def Chained (store : Store) : List Entry → Store → Prop
  | [], last => store = last
  | entry :: rest, last => entry.found = store ∧ Chained entry.left rest last

/-- A chain goes on with one more request. -/
theorem Chained.concat {store last : Store} {journal : List Entry} (h : Chained store journal last)
    {entry : Entry} (hf : entry.found = last) : Chained store (journal ++ [entry]) entry.left := by
  induction journal generalizing store with
  | nil => exact ⟨hf.trans (Eq.symm h), rfl⟩
  | cons first rest ih => exact ⟨h.1, ih h.2⟩

/-- A chain leads from its first store to every store that a request of it found, and to its last. -/
theorem Chained.leadsTo {store last : Store} {journal : List Entry} (h : Chained store journal last) :
    (∀ entry ∈ journal, store.LeadsTo entry.found) ∧ store.LeadsTo last := by
  induction journal generalizing store with
  | nil =>
    refine ⟨fun _ hm => absurd hm List.not_mem_nil, ?_⟩
    rw [show store = last from h]
    exact .same
  | cons first rest ih =>
    obtain ⟨hf, hrest⟩ := h
    obtain ⟨hall, hlast⟩ := ih hrest
    have hfirst : store.LeadsTo first.left := hf ▸ first.leadsTo
    refine ⟨?_, hfirst.trans hlast⟩
    intro entry hm
    rcases List.mem_cons.1 hm with rfl | hm
    · rw [hf]
      exact .same
    · exact hfirst.trans (hall entry hm)

/-- A version never falls. -/
theorem LeadsTo.version_le {store later : Store} (h : store.LeadsTo later) (hr : store.Reached)
    (stream : StreamId) : store.log.version stream ≤ later.log.version stream := by
  have hcount : store.log.count stream ≤ later.log.count stream :=
    h.events_prefix.sublist.countP_le
  rw [hr.coherent.version_eq, (h.reached hr).coherent.version_eq]
  omega

/-- A request that wins raises the version that it asked for. -/
theorem Entry.Wins.version_lt {entry : Entry} {stream : StreamId} {expected : Int}
    (h : entry.Wins stream expected) (hr : entry.found.Reached) :
    expected < entry.left.log.version stream := by
  obtain rfl := h.stream
  have hcurrent := entry.faithful.accepted_iff.1 h.accepted expected h.expected
  rcases entry.result_cases with ⟨hleft, -, -⟩ | ⟨_, -, -, -, hout⟩
  · have hcount := Log.count_append_self entry.found.log entry.request.stream entry.request.events
      (entry.found.clock entry.found.asked)
    have hlen := List.length_pos_iff.2 h.events
    rw [← hcurrent, Entry.current, (entry.leadsTo.reached hr).coherent.version_eq,
      hr.coherent.version_eq, hleft]
    unfold append
    rw [hcount]
    omega
  · exact WriteOutcome.noConfusion (hout.symm.trans h.accepted)

/-- Along a chain, at most one request wins a stream at a version. -/
theorem Chained.wins_once {store last : Store} {journal : List Entry} (h : Chained store journal last)
    (hr : store.Reached) {stream : StreamId} {expected : Int} {entry other : Entry}
    (hentry : entry ∈ journal) (hother : other ∈ journal) (hw : entry.Wins stream expected)
    (ho : other.Wins stream expected) : entry = other := by
  -- behind a request that wins, the stream has outgrown the version
  have hbehind : ∀ {first second : Entry} {rest : List Entry}, first.found.Reached →
      Chained first.left rest last → second ∈ rest → first.Wins stream expected →
        ¬ second.Wins stream expected := by
    intro first second rest hfound hrest hm hfirst hsecond
    have hleft := first.leadsTo.reached hfound
    have hlt := hfirst.version_lt hfound
    have hle := (hrest.leadsTo.1 second hm).version_le hleft stream
    have hcurrent := second.faithful.accepted_iff.1 hsecond.accepted expected hsecond.expected
    rw [Entry.current, hsecond.stream] at hcurrent
    omega
  induction journal generalizing store with
  | nil => exact absurd hentry List.not_mem_nil
  | cons first rest ih =>
    obtain ⟨hf, hrest⟩ := h
    have hfound : first.found.Reached := hf ▸ hr
    rcases List.mem_cons.1 hentry with hfirst | hentry <;>
      rcases List.mem_cons.1 hother with hsecond | hother
    · rw [hfirst, hsecond]
    · exact absurd ho (hbehind hfound hrest hother (hfirst ▸ hw))
    · exact absurd hw (hbehind hfound hrest hentry (hsecond ▸ ho))
    · exact ih hrest (first.leadsTo.reached hfound) hentry hother

end Entries

section Clients

/-- How far a call is. -/
inductive Progress where
  /-- A request is to be tried next, others after it, and conflicts were noted before. -/
  | waiting (request : StreamRequest) (rest : List StreamRequest) (conflicts : List StreamConflict)
  /-- The call returned. -/
  | ended (outcome : WriteOutcome)

/-- A call with some conflicts noted and some requests left. -/
def Progress.onward (conflicts : List StreamConflict) : List StreamRequest → Progress
  | [] => .ended (.ofConflicts conflicts)
  | request :: rest => .waiting request rest conflicts

/-- The refusal of a call that names a stream twice. -/
def repeatedRefusal (stream : StreamId) : WriteOutcome :=
  .refused (.illegalState ("duplicate stream id in write request: " ++ stream.text))

/-- A call that was just made. -/
def Progress.begin (call : Call) : Progress :=
  match repeatedStream? [] call.requests with
  | some stream => .ended (repeatedRefusal stream)
  | none => .onward [] call.requests

/-- A call after a request of it was tried. Only an `execute` notes a conflict and goes on. -/
def Progress.after (call : Call) (request : StreamRequest) (rest : List StreamRequest)
    (conflicts : List StreamConflict) (outcome : WriteOutcome) : Progress :=
  match call, outcome with
  | .execute _, .accepted => .onward conflicts rest
  | .execute _, .refused (.wrongExpectedVersion current expected) =>
    .onward (conflicts ++ [⟨request.stream, current, expected⟩]) rest
  | _, outcome => .ended outcome

/-- A client and its call. -/
structure Client where
  /-- What it called. -/
  call : Call
  /-- How far the call is. -/
  progress : Progress

/-- The call was accepted, and added events to a stream for which it asked for a version. -/
def Client.Wins (client : Client) (stream : StreamId) (expected : Int) : Prop :=
  client.progress = .ended .accepted ∧ ∃ request ∈ client.call.requests,
    request.stream = stream ∧ request.expected = some expected ∧ request.events ≠ []

/-- A store, the clients that called it, and every request that was tried. -/
structure Traffic where
  /-- The store as it is. -/
  store : Store
  /-- The clients, in the order in which they called. -/
  clients : List Client := []
  /-- The requests that were tried, in order. -/
  journal : List Entry := []

/-- What happens next. -/
inductive Act where
  /-- A new client makes a call. -/
  | call (call : Call)
  /-- The next request of a client is tried. -/
  | step (client : Nat)

namespace Traffic

/-- One act. A client whose call returned does nothing more. -/
def act (traffic : Traffic) : Act → Traffic
  | .call call => { traffic with clients := traffic.clients ++ [⟨call, .begin call⟩] }
  | .step index =>
    match traffic.clients[index]? with
    | some ⟨call, .waiting request rest conflicts⟩ =>
      let entry : Entry := ⟨index, request, traffic.store⟩
      { store := entry.left
        clients := traffic.clients.set index
          ⟨call, .after call request rest conflicts entry.outcome⟩
        journal := traffic.journal ++ [entry] }
    | _ => traffic

/-- Acts in order. -/
def run (traffic : Traffic) (acts : List Act) : Traffic := acts.foldl act traffic

/-- The requests of a client that were tried. -/
def entriesOf (traffic : Traffic) (index : Nat) : List Entry :=
  traffic.journal.filter (·.client = index)

end Traffic

/-- What a call returns for the requests that it tried. -/
def reportOf : Call → List Entry → WriteOutcome
  | .execute _, entries => .ofConflicts (entries.filterMap Entry.conflict?)
  | _, entries => (entries.head?.map Entry.outcome).getD .accepted

/-- A client agrees with the journal: what was tried are the first of its requests in order, and when its
call returned, all of them, or none if a stream occurs twice. -/
def Client.Agrees (client : Client) (entries : List Entry) : Prop :=
  match repeatedStream? [] client.call.requests, client.progress with
  | some stream, .ended outcome => entries = [] ∧ outcome = repeatedRefusal stream
  | some _, .waiting .. => False
  | none, .ended outcome =>
    entries.map (·.request) = client.call.requests ∧ outcome = reportOf client.call entries
  | none, .waiting request rest conflicts =>
    entries.map (·.request) ++ request :: rest = client.call.requests ∧
      conflicts = entries.filterMap Entry.conflict?

/-- A call that goes on agrees with the journal, if it is an `execute` or nothing was tried yet. -/
theorem Client.Agrees.onward {call : Call} {entries : List Entry} {rest : List StreamRequest}
    (hn : repeatedStream? [] call.requests = none)
    (hr : entries.map (·.request) ++ rest = call.requests)
    (hcall : rest = [] → reportOf call entries = .ofConflicts (entries.filterMap Entry.conflict?)) :
    Client.Agrees ⟨call, .onward (entries.filterMap Entry.conflict?) rest⟩ entries := by
  unfold Client.Agrees Progress.onward
  dsimp only
  rw [hn]
  cases rest with
  | nil =>
    rw [List.append_nil] at hr
    exact ⟨hr, (hcall rfl).symm⟩
  | cons request rest => exact ⟨hr, rfl⟩

/-- A call that was just made agrees with an empty journal. -/
theorem Client.Agrees.begin (call : Call) : Client.Agrees ⟨call, .begin call⟩ [] := by
  cases hs : repeatedStream? [] call.requests with
  | some stream =>
    unfold Client.Agrees Progress.begin
    dsimp only
    rw [hs]
    exact ⟨rfl, rfl⟩
  | none =>
    unfold Progress.begin
    rw [hs]
    have hr : ([] : List Entry).map (·.request) ++ call.requests = call.requests := rfl
    refine Client.Agrees.onward hs hr ?_
    intro _
    cases call <;> rfl

/-- A call agrees with the journal after its next request. -/
theorem Client.Agrees.after {call : Call} {request : StreamRequest} {rest : List StreamRequest}
    {conflicts : List StreamConflict} {entries : List Entry} {entry : Entry}
    (h : Client.Agrees ⟨call, .waiting request rest conflicts⟩ entries) (he : entry.request = request) :
    Client.Agrees ⟨call, .after call request rest conflicts entry.outcome⟩ (entries ++ [entry]) := by
  subst he
  unfold Client.Agrees at h
  dsimp only at h
  cases hs : repeatedStream? [] call.requests with
  | some stream =>
    rw [hs] at h
    exact absurd h id
  | none =>
    rw [hs] at h
    obtain ⟨hreq, rfl⟩ := h
    have hnext : (entries ++ [entry]).map (·.request) ++ rest = call.requests := by
      rw [List.map_append, List.append_assoc]
      exact hreq
    -- a write or an append returns what came of its only request
    have hsingle : ∀ single : StreamRequest, call.requests = [single] →
        entries = [] ∧ rest = [] := by
      intro single hone
      rw [hone] at hreq
      have hlen := congrArg List.length hreq
      simp only [List.length_append, List.length_map, List.length_cons, List.length_nil] at hlen
      exact ⟨List.eq_nil_of_length_eq_zero (by omega), List.eq_nil_of_length_eq_zero (by omega)⟩
    have hended : ∀ single : StreamRequest, call.requests = [single] →
        reportOf call (entries ++ [entry]) = entry.outcome →
          Client.Agrees ⟨call, .ended entry.outcome⟩ (entries ++ [entry]) := by
      intro single hone hreport
      obtain ⟨-, rfl⟩ := hsingle single hone
      rw [List.append_nil] at hnext
      unfold Client.Agrees
      dsimp only
      rw [hs]
      exact ⟨hnext, hreport.symm⟩
    cases call with
    | write stream events expected =>
      obtain ⟨rfl, -⟩ := hsingle _ rfl
      exact hended _ rfl rfl
    | append stream events =>
      obtain ⟨rfl, -⟩ := hsingle _ rfl
      exact hended _ rfl rfl
    | execute requests =>
      have hon := Client.Agrees.onward hs hnext fun _ => rfl
      rw [List.filterMap_append] at hon
      rcases entry.result_cases with ⟨-, hout, -⟩ | ⟨expected, -, -, -, hout⟩
      · have hc : [entry].filterMap Entry.conflict? = [] := by
          simp [Entry.conflict?, hout]
        rw [hc, List.append_nil] at hon
        rw [hout]
        exact hon
      · have hc : [entry].filterMap Entry.conflict? =
            [⟨entry.request.stream, entry.current, expected⟩] := by
          simp [Entry.conflict?, hout]
        rw [hc] at hon
        rw [hout]
        exact hon

/-- An accepted call tried all its requests, in order, and all of them were accepted. -/
theorem Client.Agrees.accepted {client : Client} {entries : List Entry} (h : client.Agrees entries)
    (ha : client.progress = .ended .accepted) :
    entries.map (·.request) = client.call.requests ∧ ∀ entry ∈ entries, entry.outcome = .accepted := by
  obtain ⟨call, progress⟩ := client
  obtain rfl : progress = .ended .accepted := ha
  unfold Client.Agrees at h
  dsimp only at h ⊢
  cases hs : repeatedStream? [] call.requests with
  | some stream =>
    rw [hs] at h
    exact WriteOutcome.noConfusion h.2
  | none =>
    rw [hs] at h
    obtain ⟨hreq, hreport⟩ := h
    refine ⟨hreq, ?_⟩
    have hfirst : ∀ single : StreamRequest, call.requests = [single] →
        (entries.head?.map Entry.outcome).getD .accepted = .accepted →
          ∀ entry ∈ entries, entry.outcome = .accepted := by
      intro single hone hhead entry hm
      rw [hone] at hreq
      obtain ⟨only, hsingle, -⟩ := List.map_eq_singleton_iff.1 hreq
      rw [hsingle, List.mem_singleton] at hm
      rw [hsingle] at hhead
      rw [hm]
      exact hhead
    cases call with
    | write stream events expected => exact hfirst _ rfl hreport.symm
    | append stream events => exact hfirst _ rfl hreport.symm
    | execute requests =>
      dsimp only [reportOf] at hreport
      cases hc : entries.filterMap Entry.conflict? with
      | nil => exact Entry.outcome_of_no_conflicts hc
      | cons conflict others =>
        rw [hc] at hreport
        exact WriteOutcome.noConfusion hreport

end Clients

namespace Traffic

/-- The journal leads from the first store to the present one and every client agrees with it. -/
structure Sound (first : Store) (traffic : Traffic) : Prop where
  /-- Each request found what the one before left. -/
  chained : Chained first traffic.journal traffic.store
  /-- Every client agrees with its part of the journal. -/
  agrees : ∀ {index : Nat} {client : Client}, traffic.clients[index]? = some client →
    client.Agrees (traffic.entriesOf index)
  /-- Every request is that of a client. -/
  known : ∀ entry ∈ traffic.journal, entry.client < traffic.clients.length

variable {first : Store} {traffic : Traffic}

/-- Traffic begins with a store that nobody called. -/
theorem Sound.start (store : Store) : Sound store { store := store } :=
  ⟨rfl, fun h => by simp at h, fun _ h => absurd h List.not_mem_nil⟩

/-- Every act keeps the journal and the clients in step. -/
theorem Sound.act (h : Sound first traffic) (act : Act) : Sound first (traffic.act act) := by
  cases act with
  | call call =>
    refine ⟨h.chained, ?_, ?_⟩
    · intro index client hc
      rw [show (traffic.act (.call call)).clients = traffic.clients ++ [⟨call, .begin call⟩] from rfl,
        List.getElem?_append] at hc
      split at hc
      · exact h.agrees hc
      · rename_i hge
        -- nothing of a new client is in the journal
        have hnone : traffic.entriesOf index = [] := by
          rw [entriesOf, List.filter_eq_nil_iff]
          intro entry hm
          have hlt := h.known entry hm
          simp only [decide_eq_true_eq]
          omega
        rw [List.getElem?_singleton] at hc
        split at hc
        · obtain rfl := Option.some.inj hc
          exact hnone ▸ Client.Agrees.begin call
        · nomatch hc
    · intro entry hm
      rw [show (traffic.act (.call call)).clients = traffic.clients ++ [⟨call, .begin call⟩] from rfl,
        List.length_append]
      exact Nat.lt_add_right 1 (h.known entry hm)
  | step index =>
    unfold Traffic.act
    dsimp only
    split
    · rename_i call request rest conflicts hclient
      obtain ⟨hindex, -⟩ := List.getElem?_eq_some_iff.1 hclient
      refine ⟨h.chained.concat rfl, ?_, ?_⟩
      · intro other client hother
        simp only [entriesOf, List.filter_append]
        by_cases hsame : other = index
        · subst hsame
          rw [List.getElem?_set_self hindex] at hother
          obtain rfl := Option.some.inj hother
          rw [List.filter_cons_of_pos (by simp), List.filter_nil]
          exact (h.agrees hclient).after rfl
        · rw [List.getElem?_set_ne (Ne.symm hsame)] at hother
          rw [List.filter_cons_of_neg (by simpa using Ne.symm hsame), List.filter_nil, List.append_nil]
          exact h.agrees hother
      · intro entry hm
        rw [List.length_set]
        rcases List.mem_append.1 hm with hm | hm
        · exact h.known entry hm
        · rw [List.mem_singleton] at hm
          subst hm
          exact hindex
    · exact h

/-- Every sequence of acts keeps the journal and the clients in step. -/
theorem Sound.run (h : Sound first traffic) (acts : List Act) : Sound first (traffic.run acts) := by
  induction acts generalizing traffic with
  | nil => exact h
  | cons act rest ih => exact ih (h.act act)

/-- A client wins by one of its requests. -/
theorem Sound.entry_of_wins (h : Sound first traffic) {index : Nat} {client : Client}
    {stream : StreamId} {expected : Int} (hc : traffic.clients[index]? = some client)
    (hw : client.Wins stream expected) :
    ∃ entry ∈ traffic.journal, entry.client = index ∧ entry.Wins stream expected := by
  obtain ⟨haccepted, request, hm, hs, he, hne⟩ := hw
  obtain ⟨hrequests, hall⟩ := (h.agrees hc).accepted haccepted
  rw [← hrequests] at hm
  obtain ⟨entry, hentry, rfl⟩ := List.mem_map.1 hm
  obtain ⟨hmem, hindex⟩ := List.mem_filter.1 hentry
  exact ⟨entry, hmem, by simpa using hindex, hall entry hentry, hs, he, hne⟩

/-- An act leads the store on. -/
theorem act_leadsTo (traffic : Traffic) (act : Act) :
    traffic.store.LeadsTo (traffic.act act).store := by
  cases act with
  | call call => exact .same
  | step index =>
    unfold Traffic.act
    dsimp only
    split
    · rename_i call request rest conflicts hclient
      exact Entry.leadsTo ⟨index, request, traffic.store⟩
    · exact .same

/-- Acts lead the store on. -/
theorem run_leadsTo (traffic : Traffic) (acts : List Act) :
    traffic.store.LeadsTo (traffic.run acts).store := by
  induction acts generalizing traffic with
  | nil => exact .same
  | cons act rest ih => exact (traffic.act_leadsTo act).trans (ih (traffic.act act))

end Traffic

section Alone

/-- A client whose call returned takes no more steps. -/
theorem run_ended {traffic : Traffic} {index : Nat} {call : Call} {outcome : WriteOutcome}
    (h : traffic.clients[index]? = some ⟨call, .ended outcome⟩) (steps : Nat) :
    traffic.run (List.replicate steps (.step index)) = traffic := by
  induction steps with
  | zero => rfl
  | succ steps ih =>
    have hact : traffic.act (.step index) = traffic := by
      unfold Traffic.act
      dsimp only
      rw [h]
    rw [List.replicate_succ, Traffic.run, List.foldl_cons, hact]
    exact ih

/-- A step of a client tries its next request. -/
theorem act_step {traffic : Traffic} {index : Nat} {call : Call} {request : StreamRequest}
    {rest : List StreamRequest} {conflicts : List StreamConflict} {store : Store}
    {outcome : WriteOutcome}
    (h : traffic.clients[index]? = some ⟨call, .waiting request rest conflicts⟩)
    (happly : (writer (Place.whole Store)).apply traffic.store request = (store, outcome)) :
    (traffic.act (.step index)).store = store ∧
      (traffic.act (.step index)).clients[index]? =
        some ⟨call, .after call request rest conflicts outcome⟩ := by
  obtain ⟨hindex, -⟩ := List.getElem?_eq_some_iff.1 h
  unfold Traffic.act
  dsimp only
  rw [h]
  dsimp only [Entry.left, Entry.outcome]
  rw [happly]
  exact ⟨rfl, List.getElem?_set_self hindex⟩

/-- An `execute` that nobody disturbs does what executing its requests in order does. -/
theorem run_execute {traffic : Traffic} {index : Nat} {all rest : List StreamRequest}
    {conflicts : List StreamConflict}
    (h : traffic.clients[index]? = some ⟨.execute all, .onward conflicts rest⟩) :
    let result := (writer (Place.whole Store)).applyAll traffic.store conflicts rest
    let later := traffic.run (List.replicate rest.length (.step index))
    later.store = result.1 ∧ later.clients[index]? = some ⟨.execute all, .ended result.2⟩ := by
  induction rest generalizing traffic conflicts with
  | nil => exact ⟨rfl, h⟩
  | cons request rest ih =>
    intro result later
    have hlater : later = (traffic.act (.step index)).run (List.replicate rest.length (.step index)) :=
      rfl
    have hresult : result =
        (writer (Place.whole Store)).applyAll traffic.store conflicts (request :: rest) := rfl
    unfold StreamWrites.applyAll at hresult
    cases happly : (writer (Place.whole Store)).apply traffic.store request with
    | mk store outcome =>
      obtain ⟨hstore, hclient⟩ := act_step h happly
      rw [happly] at hresult
      rw [hlater]
      cases outcome with
      | accepted =>
        obtain ⟨hs, hc⟩ := ih hclient
        rw [hstore] at hs hc
        rw [hresult]
        exact ⟨hs, hc⟩
      | unfinished =>
        rw [run_ended hclient, hresult]
        exact ⟨hstore, hclient⟩
      | refused error =>
        cases error with
        | wrongExpectedVersion current expected =>
          obtain ⟨hs, hc⟩ := ih hclient
          rw [hstore] at hs hc
          rw [hresult]
          exact ⟨hs, hc⟩
        | _ =>
          rw [run_ended hclient, hresult]
          exact ⟨hstore, hclient⟩

/-- A call that nobody disturbs does to the store, and returns, what the writer's operation does. -/
theorem run_call_alone (traffic : Traffic) (call : Call) :
    let result := call.on (writer (Place.whole Store)) traffic.store
    let later := (traffic.act (.call call)).run
      (List.replicate call.requests.length (.step traffic.clients.length))
    later.store = result.1 ∧
      later.clients[traffic.clients.length]? = some ⟨call, .ended result.2⟩ := by
  intro result later
  have hclient : (traffic.act (.call call)).clients[traffic.clients.length]? =
      some ⟨call, .begin call⟩ := by
    show (traffic.clients ++ [_])[traffic.clients.length]? = _
    rw [List.getElem?_append_right (Nat.le_refl _), Nat.sub_self]
    rfl
  cases call with
  | write stream events expected => exact act_step hclient rfl
  | append stream events => exact act_step hclient rfl
  | execute requests =>
    have hresult : result =
        StreamWrites.executeInOrder (writer (Place.whole Store)).toStreamWrites traffic.store requests :=
      rfl
    unfold StreamWrites.executeInOrder at hresult
    unfold Progress.begin at hclient
    simp only [Call.requests] at hclient
    cases hs : repeatedStream? [] requests with
    | some stream =>
      rw [hs] at hclient hresult
      have hlater : later = _ := run_ended hclient requests.length
      rw [hlater, hresult]
      exact ⟨rfl, hclient⟩
    | none =>
      rw [hs] at hclient hresult
      rw [hresult]
      exact run_execute hclient

end Alone

section Traffic

/-- Any number of clients write, append and execute on a store in any interleaving. The events stand at
the positions from 1 on, those of each stream are numbered from 0 on, and the version of a stream is the
number of its last event. Each request finds the store that the one before it left and is faithful, every
client agrees with the requests that were tried for it, and all requests of an accepted call were accepted.
Nothing is removed or changed. A call that nobody disturbs is the writer's operation. Of the clients whose
accepted calls added events to one stream at one expected version there is only one. -/
theorem calls_extend_log (clock : Nat → Timestamp) (acts : List Act) :
    let traffic := Traffic.run { store := withClock clock } acts
    let log := traffic.store.log
    (∀ (i : Nat) (h : i < log.events.length), log.events[i].position = i + 1) ∧
      (∀ stream, (log.streamEvents stream).map (·.record.number) =
          (List.range (log.streamEvents stream).length).map Int.ofNat ∧
        log.versions.lookup stream = (log.streamEvents stream).getLast?.map (·.record.number)) ∧
      Chained (withClock clock) traffic.journal traffic.store ∧
      (∀ entry ∈ traffic.journal, entry.Faithful) ∧
      (∀ (index : Nat) (client : Client), traffic.clients[index]? = some client →
        client.Agrees (traffic.entriesOf index) ∧
          (client.progress = .ended .accepted →
            (traffic.entriesOf index).map (·.request) = client.call.requests ∧
              ∀ entry ∈ traffic.entriesOf index, entry.outcome = .accepted)) ∧
      (∀ more, log.events <+: (traffic.run more).store.log.events) ∧
      (∀ call : Call,
        let result := call.on (writer (Place.whole Store)) traffic.store
        let later := (traffic.act (.call call)).run
          (List.replicate call.requests.length (.step traffic.clients.length))
        later.store = result.1 ∧
          later.clients[traffic.clients.length]? = some ⟨call, .ended result.2⟩) ∧
      ∀ (stream : StreamId) (expected : Int) (i j : Nat) (client other : Client),
        traffic.clients[i]? = some client → traffic.clients[j]? = some other →
          client.Wins stream expected → other.Wins stream expected → i = j := by
  intro traffic log
  have hstart : (withClock clock).Reached := .start clock
  have hsound : traffic.Sound (withClock clock) := (Traffic.Sound.start (withClock clock)).run acts
  have hcoherent : log.Coherent := (hsound.chained.leadsTo.2.reached hstart).coherent
  refine ⟨fun i h => hcoherent.position_getElem h, ?_, hsound.chained,
    fun entry _ => entry.faithful, ?_, fun more => LeadsTo.events_prefix (traffic.run_leadsTo more),
    fun call => run_call_alone traffic call, ?_⟩
  · intro stream
    exact ⟨hcoherent.numbers stream, hcoherent.lookup_eq_last stream⟩
  · intro index client hclient
    exact ⟨hsound.agrees hclient, (hsound.agrees hclient).accepted⟩
  · intro stream expected i j client other hclient hother hwins hrival
    obtain ⟨entry, hentry, hi, hw⟩ := hsound.entry_of_wins hclient hwins
    obtain ⟨rival, hmem, hj, hr⟩ := hsound.entry_of_wins hother hrival
    have hone := hsound.chained.wins_once hstart hentry hmem hw hr
    rw [← hi, ← hj, hone]

/-- An accepted `execute` of two requests under a clock that moves on has two timestamps, and an append of
another client may come between its batches. -/
theorem execute_is_not_one_batch :
    let orders : StreamId := ⟨"orders", "1", by decide⟩
    let bills : StreamId := ⟨"bills", "1", by decide⟩
    let placed : NewEvent := ⟨"Placed", [1], []⟩
    let billed : NewEvent := ⟨"Billed", [2], []⟩
    let clock : Nat → Timestamp := fun n => if n = 0 then .epoch else ⟨1000000, by omega⟩
    let call := Call.execute [⟨orders, [placed], none⟩, ⟨bills, [billed], none⟩]
    let result := call.on (writer (Place.whole Store)) (withClock clock)
    let traffic := Traffic.run { store := withClock clock }
      [.call call, .call (.append orders [billed]), .step 0, .step 1, .step 0]
    result.2 = .accepted ∧ result.1.size = 2 ∧
      (¬ ∃ timestamp, ∀ e ∈ result.1.log.events, e.record.timestamp = timestamp) ∧
        (traffic.clients[0]?.map (·.progress) = some (.ended .accepted)) ∧
          traffic.store.log.events.map (·.record.content) = [placed, billed, billed] ∧
            traffic.store.log.events.map (·.record.stream) = [orders, orders, bills] := by
  intro orders bills placed billed clock call result traffic
  refine ⟨by decide +kernel, by decide +kernel, ?_, ?_, by decide +kernel, by decide +kernel⟩
  · rintro ⟨timestamp, hall⟩
    have hfirst := hall ⟨1, placed.stored .epoch orders 0⟩ (by decide +kernel)
    have hsecond := hall ⟨2, billed.stored ⟨1000000, by omega⟩ bills 0⟩ (by decide +kernel)
    exact absurd (hfirst.trans hsecond.symm) (by decide +kernel)
  · rfl

end Traffic

end Chronicle.Store
