import Chronicle.Proofs.Store.Coherence
import Mathlib.Data.List.Nodup

/-!
# Executing a batch of requests

A batch names each stream at most once, so what one of its requests does to its stream says nothing about
the others: which requests a store accepts is settled by the versions before the call, and so is what the
batch reports. Their order is seen only in the positions, and in what the clock answered. Over a writer of
which nothing is known a batch is its requests one after another, up to the first refusal that is no conflict
of versions.
-/

namespace Chronicle

/-- The conflicts that a batch reports. -/
def WriteOutcome.conflicts : WriteOutcome → List StreamConflict
  | .refused (.batchWriteConflict conflicts) => conflicts
  | _ => []

/-- Whether a batch goes on after a request: it was accepted, or it met a conflict of versions. -/
def WriteOutcome.goesOn : WriteOutcome → Bool
  | .accepted => true
  | .refused (.wrongExpectedVersion _ _) => true
  | _ => false

/-- A batch reports the conflicts that were noted. -/
theorem WriteOutcome.conflicts_ofConflicts (conflicts : List StreamConflict) :
    (ofConflicts conflicts).conflicts = conflicts := by
  cases conflicts <;> rfl

/-- A batch is accepted exactly if no conflict was noted. -/
theorem WriteOutcome.ofConflicts_eq_accepted_iff {conflicts : List StreamConflict} :
    ofConflicts conflicts = .accepted ↔ conflicts = [] := by
  cases conflicts with
  | nil => exact ⟨fun _ => rfl, fun _ => rfl⟩
  | cons conflict others => exact ⟨nofun, nofun⟩

namespace StreamRequest

/-- The conflict that is noted for a request. -/
def conflict? (request : StreamRequest) : WriteOutcome → Option StreamConflict
  | .refused (.wrongExpectedVersion current expected) => some ⟨request.stream, current, expected⟩
  | _ => none

/-- A request asks for no version, or for the one that its stream has. -/
def fits (log : Log) (request : StreamRequest) : Bool :=
  request.expected.all (log.version request.stream = ·)

/-- The conflict of a request with the version that its stream has. -/
def conflictIn? (log : Log) (request : StreamRequest) : Option StreamConflict :=
  match request.expected with
  | none => none
  | some expected =>
    if log.version request.stream = expected then none
    else some ⟨request.stream, log.version request.stream, expected⟩

/-- A request conflicts with a log exactly if it does not fit. -/
theorem conflictIn?_eq_none_iff {log : Log} {request : StreamRequest} :
    request.conflictIn? log = none ↔ request.fits log = true := by
  unfold conflictIn? fits
  cases request.expected with
  | none => exact ⟨fun _ => rfl, fun _ => rfl⟩
  | some expected =>
    rw [Option.all_some, decide_eq_true_eq]
    by_cases h : log.version request.stream = expected
    · exact ⟨fun _ => h, fun _ => if_pos h⟩
    · dsimp only
      rw [if_neg h]
      exact ⟨nofun, fun h' => absurd h' h⟩

/-- What a store answers to a request: it accepts it, or names the conflict. -/
def outcomeIn (log : Log) (request : StreamRequest) : WriteOutcome :=
  match request.conflictIn? log with
  | none => .accepted
  | some conflict => .refused (.wrongExpectedVersion conflict.current conflict.expected)

/-- What a store answers to a request is settled by the version of its stream. -/
theorem outcomeIn_congr {log other : Log} {request : StreamRequest}
    (h : log.version request.stream = other.version request.stream) :
    request.outcomeIn log = request.outcomeIn other := by
  unfold outcomeIn conflictIn?
  rw [h]

/-- A batch goes on behind every answer of a store. -/
theorem goesOn_outcomeIn (log : Log) (request : StreamRequest) : (request.outcomeIn log).goesOn = true := by
  unfold outcomeIn
  cases request.conflictIn? log <;> rfl

/-- The conflict that is noted for a store's answer is that of the request. -/
theorem conflict?_outcomeIn (log : Log) (request : StreamRequest) :
    request.conflict? (request.outcomeIn log) = request.conflictIn? log := by
  unfold outcomeIn conflictIn?
  cases request.expected with
  | none => rfl
  | some expected =>
    dsimp only
    by_cases h : log.version request.stream = expected
    · rw [if_pos h]
      rfl
    · rw [if_neg h]
      rfl

end StreamRequest

section Repeating

variable {requests : List StreamRequest} {seen : List StreamId}

/-- No stream is found a second time exactly if the requests name different ones, and none that was seen. -/
theorem repeatedStream?_eq_none_iff : repeatedStream? seen requests = none ↔
    (requests.map (·.stream)).Nodup ∧ ∀ stream ∈ requests.map (·.stream), stream ∉ seen := by
  induction requests generalizing seen with
  | nil => exact ⟨fun _ => ⟨List.nodup_nil, fun _ hm => nomatch hm⟩, fun _ => rfl⟩
  | cons request rest ih =>
    unfold repeatedStream?
    rw [List.map_cons, List.nodup_cons, List.forall_mem_cons]
    by_cases hseen : request.stream ∈ seen
    · rw [if_pos hseen]
      exact ⟨nofun, fun h => absurd hseen h.2.1⟩
    · rw [if_neg hseen, ih]
      constructor
      · rintro ⟨hnodup, hnew⟩
        exact ⟨⟨fun hm => hnew _ hm List.mem_cons_self, hnodup⟩, hseen,
          fun stream hm hs => hnew stream hm (List.mem_cons_of_mem _ hs)⟩
      · rintro ⟨⟨hfresh, hnodup⟩, -, hnew⟩
        refine ⟨hnodup, fun stream hm hs => ?_⟩
        rcases List.mem_cons.1 hs with rfl | hs
        · exact hfresh hm
        · exact hnew stream hm hs

/-- The stream that is found a second time is the first that a request names again. -/
theorem repeatedStream?_eq_some {stream : StreamId} (h : repeatedStream? seen requests = some stream) :
    ∃ earlier again later, requests = earlier ++ again :: later ∧ again.stream = stream ∧
      repeatedStream? seen earlier = none ∧ (stream ∈ seen ∨ stream ∈ earlier.map (·.stream)) := by
  induction requests generalizing seen with
  | nil => nomatch h
  | cons request rest ih =>
    unfold repeatedStream? at h
    by_cases hseen : request.stream ∈ seen
    · rw [if_pos hseen] at h
      obtain rfl := Option.some.inj h
      exact ⟨[], request, rest, rfl, rfl, rfl, .inl hseen⟩
    · rw [if_neg hseen] at h
      obtain ⟨earlier, again, later, rfl, hs, hnone, hbefore⟩ := ih h
      refine ⟨request :: earlier, again, later, rfl, hs, ?_, ?_⟩
      · unfold repeatedStream?
        rw [if_neg hseen]
        exact hnone
      · rw [List.map_cons]
        rcases hbefore with hm | hm
        · rcases List.mem_cons.1 hm with rfl | hm
          · exact .inr List.mem_cons_self
          · exact .inl hm
        · exact .inr (List.mem_cons_of_mem _ hm)

end Repeating

namespace StreamWrites

variable {W : Type} (writes : StreamWrites W)

/-- Requests tried one after another, whatever comes of them: the world they leave, and what came of each. -/
def attempt (w : W) : List StreamRequest → W × List (StreamRequest × WriteOutcome)
  | [] => (w, [])
  | request :: rest =>
    let (w, outcome) := writes.apply w request
    let (w, journal) := attempt w rest
    (w, (request, outcome) :: journal)

/-- The conflicts that are noted while requests are tried. -/
def noted (journal : List (StreamRequest × WriteOutcome)) : List StreamConflict :=
  journal.filterMap fun tried => tried.1.conflict? tried.2

variable {writes}

/-- A batch goes on behind a request that was accepted or met a conflict, which it notes. -/
theorem applyAll_of_goesOn {w : W} {conflicts : List StreamConflict} {request : StreamRequest}
    (h : (writes.apply w request).2.goesOn = true) (rest : List StreamRequest) :
    writes.applyAll w conflicts (request :: rest) =
      writes.applyAll (writes.apply w request).1
        (conflicts ++ (request.conflict? (writes.apply w request).2).toList) rest := by
  rw [applyAll]
  rcases hr : writes.apply w request with ⟨later, outcome⟩
  rw [hr] at h
  cases outcome with
  | accepted =>
    dsimp only [StreamRequest.conflict?]
    rw [Option.toList_none, List.append_nil]
  | unfinished => nomatch h
  | refused error =>
    cases error with
    | wrongExpectedVersion current expected => rfl
    | _ => nomatch h

/-- A batch ends with a request that was refused for anything but its version. -/
theorem applyAll_of_stops {w : W} {conflicts : List StreamConflict} {request : StreamRequest}
    (h : (writes.apply w request).2.goesOn = false) (rest : List StreamRequest) :
    writes.applyAll w conflicts (request :: rest) = writes.apply w request := by
  rw [applyAll]
  rcases hr : writes.apply w request with ⟨later, outcome⟩
  rw [hr] at h
  cases outcome with
  | accepted => nomatch h
  | unfinished => rfl
  | refused error =>
    cases error with
    | wrongExpectedVersion current expected => nomatch h
    | _ => rfl

/-- Behind requests after which it goes on, a batch goes on with the conflicts that they met. -/
theorem applyAll_append {w : W} {conflicts : List StreamConflict} {earlier : List StreamRequest}
    (h : ∀ tried ∈ (writes.attempt w earlier).2, tried.2.goesOn = true) (rest : List StreamRequest) :
    writes.applyAll w conflicts (earlier ++ rest) =
      writes.applyAll (writes.attempt w earlier).1 (conflicts ++ noted (writes.attempt w earlier).2) rest := by
  induction earlier generalizing w conflicts with
  | nil =>
    rw [attempt, noted, List.filterMap_nil, List.append_nil, List.nil_append]
  | cons request earlier ih =>
    rw [attempt] at h ⊢
    dsimp only at h ⊢
    rw [List.forall_mem_cons] at h
    obtain ⟨hfirst, hrest⟩ := h
    have hnoted : noted ((request, (writes.apply w request).2) ::
          (writes.attempt (writes.apply w request).1 earlier).2) =
        (request.conflict? (writes.apply w request).2).toList ++
          noted (writes.attempt (writes.apply w request).1 earlier).2 := by
      unfold noted
      rw [List.filterMap_cons]
      cases request.conflict? (writes.apply w request).2 <;> rfl
    rw [List.cons_append, applyAll_of_goesOn hfirst, ih hrest, hnoted, List.append_assoc]

section Executing

variable {w : W} {requests : List StreamRequest}

/-- A batch that names a stream twice is refused before anything is tried. -/
theorem executeInOrder_of_repeated (w : W) (h : ¬ (requests.map (·.stream)).Nodup) :
    ∃ earlier again later, requests = earlier ++ again :: later ∧ (earlier.map (·.stream)).Nodup ∧
      again.stream ∈ earlier.map (·.stream) ∧ writes.executeInOrder w requests =
        (w, .refused (.illegalState ("duplicate stream id in write request: " ++ again.stream.text))) := by
  cases hs : repeatedStream? [] requests with
  | none => exact absurd (repeatedStream?_eq_none_iff.1 hs).1 h
  | some stream =>
    obtain ⟨earlier, again, later, hsplit, rfl, hnone, hbefore⟩ := repeatedStream?_eq_some hs
    refine ⟨earlier, again, later, hsplit, (repeatedStream?_eq_none_iff.1 hnone).1, ?_, ?_⟩
    · rcases hbefore with hm | hm
      · nomatch hm
      · exact hm
    · unfold executeInOrder
      rw [hs]

/-- A batch of different streams is tried request by request. -/
theorem executeInOrder_of_nodup (w : W) (h : (requests.map (·.stream)).Nodup) :
    writes.executeInOrder w requests = writes.applyAll w [] requests := by
  unfold executeInOrder
  rw [repeatedStream?_eq_none_iff.2 ⟨h, fun _ _ => List.not_mem_nil⟩]

/-- A batch that goes on to its end reports the conflicts that were noted. -/
theorem executeInOrder_of_goesOn (h : (requests.map (·.stream)).Nodup)
    (hgoes : ∀ tried ∈ (writes.attempt w requests).2, tried.2.goesOn = true) :
    writes.executeInOrder w requests =
      ((writes.attempt w requests).1, .ofConflicts (noted (writes.attempt w requests).2)) := by
  have hall : writes.applyAll w [] (requests ++ []) = _ := applyAll_append hgoes []
  rw [List.append_nil, List.nil_append, applyAll] at hall
  rw [executeInOrder_of_nodup w h, hall]

/-- A batch ends with the first request that was refused for anything but its version: what came of it is
what comes of the batch, and nothing is tried after it. -/
theorem executeInOrder_of_stops {earlier later : List StreamRequest} {request : StreamRequest}
    (h : (requests.map (·.stream)).Nodup) (hsplit : requests = earlier ++ request :: later)
    (hgoes : ∀ tried ∈ (writes.attempt w earlier).2, tried.2.goesOn = true)
    (hstops : (writes.apply (writes.attempt w earlier).1 request).2.goesOn = false) :
    writes.executeInOrder w requests = writes.apply (writes.attempt w earlier).1 request := by
  rw [executeInOrder_of_nodup w h, hsplit, applyAll_append hgoes, applyAll_of_stops hstops]

end Executing

end StreamWrites

namespace Log

/-- The events of a stream as they were appended, with their numbers. -/
def contents (log : Log) (stream : StreamId) : List (Int × NewEvent) :=
  (log.streamEvents stream).map fun e => (e.record.number, e.record.content)

section Batch

variable (stream : StreamId) (number : Int) (events : List NewEvent)

/-- The numbers and contents of a batch depend neither on where it stands nor on the clock. -/
theorem map_contents_placeBatch (timestamp timestamp' : Timestamp) (position position' : Nat) :
    (placeBatch timestamp stream position number events).map (fun e => (e.record.number, e.record.content)) =
      (placeBatch timestamp' stream position' number events).map
        fun e => (e.record.number, e.record.content) := by
  induction events generalizing position position' number with
  | nil => rfl
  | cons event rest ih =>
    rw [placeBatch, placeBatch, List.map_cons, List.map_cons, ih _ _ (position' + 1)]
    rfl

/-- The records of a batch do not depend on where it stands. -/
theorem map_record_placeBatch (timestamp : Timestamp) (position position' : Nat) :
    (placeBatch timestamp stream position number events).map (·.record) =
      (placeBatch timestamp stream position' number events).map (·.record) := by
  induction events generalizing position position' number with
  | nil => rfl
  | cons event rest ih =>
    rw [placeBatch, placeBatch, List.map_cons, List.map_cons, ih _ _ (position' + 1)]

end Batch

end Log

namespace Store

/-- A store after the batches of some requests were appended, one after another. -/
def appendAll (store : Store) (requests : List StreamRequest) : Store :=
  requests.foldl (fun store request => store.append request.stream request.events) store

section Appending

variable {requests : List StreamRequest}

/-- Streams that no request names keep their events. -/
theorem streamEvents_appendAll_of_not_mem (store : Store) {stream : StreamId}
    (h : stream ∉ requests.map (·.stream)) :
    (store.appendAll requests).log.streamEvents stream = store.log.streamEvents stream := by
  induction requests generalizing store with
  | nil => rfl
  | cons request rest ih =>
    rw [List.map_cons, List.mem_cons, not_or] at h
    have hrest : (store.appendAll (request :: rest)).log.streamEvents stream =
        (store.append request.stream request.events).log.streamEvents stream := ih _ h.2
    rw [hrest]
    exact Log.streamEvents_append_ne _ h.1 _ _

/-- A stream that one request names has the batch of this request behind its events, whole and under one
timestamp. -/
theorem streamEvents_appendAll (store : Store) (hn : (requests.map (·.stream)).Nodup)
    {request : StreamRequest} (hm : request ∈ requests) : ∃ asked position, asked < requests.length ∧
      (store.appendAll requests).log.streamEvents request.stream =
        store.log.streamEvents request.stream ++ Log.placeBatch (store.clock (store.asked + asked))
          request.stream position (store.log.version request.stream) request.events := by
  induction requests generalizing store with
  | nil => nomatch hm
  | cons first rest ih =>
    rw [List.map_cons, List.nodup_cons] at hn
    obtain ⟨hnew, hn⟩ := hn
    rcases List.mem_cons.1 hm with rfl | hm
    · refine ⟨0, store.log.events.length, Nat.succ_pos _, ?_⟩
      have hrest : (store.appendAll (request :: rest)).log.streamEvents request.stream =
          (store.append request.stream request.events).log.streamEvents request.stream :=
        streamEvents_appendAll_of_not_mem _ hnew
      rw [hrest]
      exact Log.streamEvents_append_self _ _ _ _
    · have hne : request.stream ≠ first.stream := by
        rintro heq
        exact hnew (heq ▸ List.mem_map_of_mem hm)
      obtain ⟨asked, position, hlt, hevents⟩ := ih (store.append first.stream first.events) hn hm
      refine ⟨asked + 1, position, Nat.succ_lt_succ hlt, ?_⟩
      have hsame : (store.append first.stream first.events).log.streamEvents request.stream =
          store.log.streamEvents request.stream := Log.streamEvents_append_ne _ hne _ _
      have hversion : (store.append first.stream first.events).log.version request.stream =
          store.log.version request.stream := Log.version_append_ne _ hne _ _
      have hclock : (store.append first.stream first.events).clock
            ((store.append first.stream first.events).asked + asked) =
          store.clock (store.asked + (asked + 1)) := by
        show store.clock (store.asked + 1 + asked) = _
        rw [Nat.add_assoc, Nat.add_comm 1]
      rw [hsame, hversion, hclock] at hevents
      exact hevents

end Appending

section Executing

variable {W : Type} {place : Place W Store}

/-- A store appends the batch of a request that fits, and names the conflict of any other. -/
theorem apply_eq (hplace : place.Lawful) (w : W) (request : StreamRequest) :
    (writer place).apply w request =
      (if request.fits (place.get w).log then
          place.set w ((place.get w).append request.stream request.events)
        else w,
        request.outcomeIn (place.get w).log) := by
  unfold StreamWrites.apply StreamRequest.outcomeIn StreamRequest.conflictIn? StreamRequest.fits
  cases request.expected with
  | none => rfl
  | some expected =>
    change (place.set w ((place.get w).write request.stream request.events expected).1,
      ((place.get w).write request.stream request.events expected).2) = _
    rw [Option.all_some]
    dsimp only
    by_cases h : (place.get w).log.version request.stream = expected
    · rw [write_accepted h, if_pos (decide_eq_true h), if_pos h]
    · rw [write_refused h, if_neg (by rwa [decide_eq_true_eq]), if_neg h]
      exact Prod.ext (hplace.set_get w) rfl

/-- Requests for different streams are answered as if each had come first. -/
theorem attempt_eq (hplace : place.Lawful) {w : W} {log : Log} {requests : List StreamRequest}
    (hn : (requests.map (·.stream)).Nodup)
    (hlog : ∀ request ∈ requests, (place.get w).log.version request.stream = log.version request.stream) :
    (writer place).attempt w requests =
      (place.set w ((place.get w).appendAll (requests.filter (·.fits log))),
        requests.map fun request => (request, request.outcomeIn log)) := by
  induction requests generalizing w with
  | nil => exact Prod.ext (hplace.set_get w).symm rfl
  | cons request rest ih =>
    rw [List.map_cons, List.nodup_cons] at hn
    rw [List.forall_mem_cons] at hlog
    obtain ⟨hfirst, hrest⟩ := hlog
    have hfits : request.fits (place.get w).log = request.fits log := by
      unfold StreamRequest.fits
      rw [hfirst]
    rw [StreamWrites.attempt, apply_eq hplace, hfits, StreamRequest.outcomeIn_congr hfirst]
    dsimp only
    by_cases h : request.fits log = true
    · have hversions : ∀ other ∈ rest,
          (place.get (place.set w ((place.get w).append request.stream request.events))).log.version
            other.stream = log.version other.stream := by
        intro other hm
        rw [hplace.get_set, ← hrest other hm]
        refine Log.version_append_ne _ ?_ _ _
        rintro heq
        exact hn.1 (heq ▸ List.mem_map_of_mem hm)
      rw [if_pos h, ih hn.2 hversions, hplace.get_set, hplace.set_set, List.filter_cons_of_pos h]
      rfl
    · rw [if_neg h, ih hn.2 hrest, List.filter_cons_of_neg h]
      rfl

/-- A store executes a batch of different streams to its end: the batches of the requests that fit are
appended in order, and the conflicts of the others are reported in order. -/
theorem execute_eq (hplace : place.Lawful) (w : W) {requests : List StreamRequest}
    (hn : (requests.map (·.stream)).Nodup) : (writer place).execute w requests =
      (place.set w ((place.get w).appendAll (requests.filter (·.fits (place.get w).log))),
        .ofConflicts (requests.filterMap (·.conflictIn? (place.get w).log))) := by
  have hsame : ∀ request ∈ requests,
      (place.get w).log.version request.stream = (place.get w).log.version request.stream := fun _ _ => rfl
  have hattempt := attempt_eq hplace hn hsame
  have hgoes : ∀ tried ∈ ((writer place).attempt w requests).2, tried.2.goesOn = true := by
    rw [hattempt]
    intro tried hm
    obtain ⟨request, -, rfl⟩ := List.mem_map.1 hm
    exact request.goesOn_outcomeIn _
  have hnoted : StreamWrites.noted (requests.map fun request =>
        (request, request.outcomeIn (place.get w).log)) =
      requests.filterMap (·.conflictIn? (place.get w).log) := by
    unfold StreamWrites.noted
    rw [List.filterMap_map]
    congr 1
    funext request
    exact request.conflict?_outcomeIn _
  have hall := StreamWrites.executeInOrder_of_goesOn hn hgoes
  rw [hattempt, hnoted] at hall
  exact hall

/-- A batch that names a stream twice leaves everything as it is. -/
theorem execute_of_repeated (place : Place W Store) (w : W) {requests : List StreamRequest}
    (h : ¬ (requests.map (·.stream)).Nodup) :
    ∃ earlier again later, requests = earlier ++ again :: later ∧ (earlier.map (·.stream)).Nodup ∧
      again.stream ∈ earlier.map (·.stream) ∧ (writer place).execute w requests =
        (w, .refused (.illegalState ("duplicate stream id in write request: " ++ again.stream.text))) :=
  StreamWrites.executeInOrder_of_repeated w h

/-- A stream that a request of a batch names gains the events of this request, if it fits, and nothing
else. -/
theorem streamEvents_execute (hplace : place.Lawful) (w : W) {requests : List StreamRequest}
    (hn : (requests.map (·.stream)).Nodup) {request : StreamRequest} (hm : request ∈ requests) :
    let store := place.get w
    ∃ asked position, asked < requests.length ∧
      (place.get ((writer place).execute w requests).1).log.streamEvents request.stream =
        store.log.streamEvents request.stream ++
          if request.fits store.log then
            Log.placeBatch (store.clock (store.asked + asked)) request.stream position
              (store.log.version request.stream) request.events
          else [] := by
  intro store
  rw [execute_eq hplace w hn]
  dsimp only
  rw [hplace.get_set]
  by_cases h : request.fits store.log = true
  · have hkept : ((requests.filter (·.fits store.log)).map (·.stream)).Nodup :=
      hn.sublist (List.filter_sublist.map _)
    obtain ⟨asked, position, hlt, hevents⟩ :=
      streamEvents_appendAll store hkept (List.mem_filter.2 ⟨hm, h⟩)
    refine ⟨asked, position, Nat.lt_of_lt_of_le hlt (List.length_filter_le _ _), ?_⟩
    rw [if_pos h]
    exact hevents
  · refine ⟨0, 0, List.length_pos_of_mem hm, ?_⟩
    rw [if_neg h, List.append_nil]
    refine streamEvents_appendAll_of_not_mem store ?_
    -- a request that was kept for the stream would be the one that does not fit
    rintro hkept
    obtain ⟨other, hother, hsame⟩ := List.mem_map.1 hkept
    obtain ⟨hmem, hfits⟩ := List.mem_filter.1 hother
    rw [List.inj_on_of_nodup_map hn hmem hm hsame] at hfits
    exact h hfits

/-- A stream that no request of a batch names keeps its events. -/
theorem streamEvents_execute_of_not_mem (hplace : place.Lawful) (w : W) {requests : List StreamRequest}
    (hn : (requests.map (·.stream)).Nodup) {stream : StreamId} (h : stream ∉ requests.map (·.stream)) :
    (place.get ((writer place).execute w requests).1).log.streamEvents stream =
      (place.get w).log.streamEvents stream := by
  rw [execute_eq hplace w hn]
  dsimp only
  rw [hplace.get_set]
  refine streamEvents_appendAll_of_not_mem _ fun hm => h ?_
  exact (List.filter_sublist.map _).subset hm

/-- Whatever is seen of the events of a stream is the same for all orders of a batch, if it depends neither
on where the batch of a request stands nor on which answer the clock gave to it. -/
theorem map_streamEvents_execute_perm (hplace : place.Lawful) (w : W) {requests others : List StreamRequest}
    (h : requests.Perm others) {β : Type} (seen : Placed Nat → β)
    (hseen : ∀ request ∈ requests, ∀ asked asked' position position', asked < requests.length →
      asked' < requests.length →
        (Log.placeBatch ((place.get w).clock ((place.get w).asked + asked)) request.stream position
            ((place.get w).log.version request.stream) request.events).map seen =
          (Log.placeBatch ((place.get w).clock ((place.get w).asked + asked')) request.stream position'
            ((place.get w).log.version request.stream) request.events).map seen) (stream : StreamId) :
    ((place.get ((writer place).execute w others).1).log.streamEvents stream).map seen =
      ((place.get ((writer place).execute w requests).1).log.streamEvents stream).map seen := by
  have hstreams : (requests.map (·.stream)).Perm (others.map (·.stream)) := h.map _
  by_cases hn : (requests.map (·.stream)).Nodup
  · have hn' := hstreams.nodup_iff.1 hn
    by_cases hm : stream ∈ requests.map (·.stream)
    · obtain ⟨request, hrequest, rfl⟩ := List.mem_map.1 hm
      obtain ⟨asked, position, hlt, hevents⟩ := streamEvents_execute hplace w hn hrequest
      obtain ⟨asked', position', hlt', hevents'⟩ := streamEvents_execute hplace w hn' (h.mem_iff.1 hrequest)
      rw [hevents, hevents', List.map_append, List.map_append]
      split
      · rw [hseen request hrequest _ _ _ _ (h.length_eq ▸ hlt') hlt]
      · rfl
    · rw [streamEvents_execute_of_not_mem hplace w hn hm,
        streamEvents_execute_of_not_mem hplace w hn' fun hm' => hm (hstreams.mem_iff.2 hm')]
  · obtain ⟨_, _, _, -, -, -, hresult⟩ := execute_of_repeated place w hn
    obtain ⟨_, _, _, -, -, -, hresult'⟩ :=
      execute_of_repeated place w fun hn' => hn (hstreams.nodup_iff.2 hn')
    rw [hresult, hresult']

/-- The conflicts that a batch reports are the same for all its orders. -/
theorem conflicts_execute_perm (hplace : place.Lawful) (w : W) {requests others : List StreamRequest}
    (h : requests.Perm others) :
    ((writer place).execute w others).2.conflicts.Perm ((writer place).execute w requests).2.conflicts := by
  have hstreams : (requests.map (·.stream)).Perm (others.map (·.stream)) := h.map _
  by_cases hn : (requests.map (·.stream)).Nodup
  · rw [execute_eq hplace w hn, execute_eq hplace w (hstreams.nodup_iff.1 hn)]
    dsimp only
    rw [WriteOutcome.conflicts_ofConflicts, WriteOutcome.conflicts_ofConflicts]
    exact (h.filterMap _).symm
  · obtain ⟨_, _, _, -, -, -, hresult⟩ := execute_of_repeated place w hn
    obtain ⟨_, _, _, -, -, -, hresult'⟩ :=
      execute_of_repeated place w fun hn' => hn (hstreams.nodup_iff.2 hn')
    rw [hresult, hresult']
    exact .refl _

/-- What a store makes of requests for different streams, by the versions before the call. -/
structure AppliesFitting (place : Place W Store) (w : W) (requests : List StreamRequest) : Prop where
  /-- It appends the batches of the requests that fit, in order. -/
  applied : ((writer place).execute w requests).1 =
    place.set w ((place.get w).appendAll (requests.filter (·.fits (place.get w).log)))
  /-- Each of them gets to its stream whole, under one timestamp. -/
  whole : ∀ request ∈ requests, ∃ asked position, asked < requests.length ∧
    (place.get ((writer place).execute w requests).1).log.streamEvents request.stream =
      (place.get w).log.streamEvents request.stream ++
        if request.fits (place.get w).log then
          Log.placeBatch ((place.get w).clock ((place.get w).asked + asked)) request.stream position
            ((place.get w).log.version request.stream) request.events
        else []
  /-- No other stream changes. -/
  others : ∀ stream, stream ∉ requests.map (·.stream) →
    (place.get ((writer place).execute w requests).1).log.streamEvents stream =
      (place.get w).log.streamEvents stream
  /-- It reports the requests that do not fit in their order, with the versions before the call. -/
  reported : ((writer place).execute w requests).2 =
    .ofConflicts (requests.filterMap (·.conflictIn? (place.get w).log))
  /-- It accepts the batch exactly if all requests fit. -/
  accepted : ((writer place).execute w requests).2 = .accepted ↔
    ∀ request ∈ requests, request.fits (place.get w).log = true

/-- What the same requests come to in another order. -/
structure SettlesAlike (place : Place W Store) (w : W) (requests others : List StreamRequest) : Prop where
  /-- Each stream gets the same events under the same numbers. -/
  contents : ∀ stream, (place.get ((writer place).execute w others).1).log.contents stream =
    (place.get ((writer place).execute w requests).1).log.contents stream
  /-- The same conflicts are reported. -/
  conflicts : ((writer place).execute w others).2.conflicts.Perm ((writer place).execute w requests).2.conflicts
  /-- Each stream gets the same records if the clock stands still meanwhile. -/
  records : ∀ timestamp,
    (∀ asked < requests.length, (place.get w).clock ((place.get w).asked + asked) = timestamp) → ∀ stream,
    ((place.get ((writer place).execute w others).1).log.streamEvents stream).map (·.record) =
      ((place.get ((writer place).execute w requests).1).log.streamEvents stream).map (·.record)

/-- What any writer makes of requests for different streams by trying them in order. -/
structure TriesInOrder {V : Type} (writes : StreamWrites V) (v : V) (requests : List StreamRequest) : Prop where
  /-- If each is accepted or in conflict, the conflicts are reported. -/
  gone : (∀ tried ∈ (writes.attempt v requests).2, tried.2.goesOn = true) →
    writes.executeInOrder v requests = ((writes.attempt v requests).1,
      .ofConflicts (StreamWrites.noted (writes.attempt v requests).2))
  /-- What comes of the first for which it is otherwise is what comes of all, without a trace of those behind it. -/
  stopped : ∀ earlier request behind, requests = earlier ++ request :: behind →
    (∀ tried ∈ (writes.attempt v earlier).2, tried.2.goesOn = true) →
      (writes.apply (writes.attempt v earlier).1 request).2.goesOn = false →
        writes.executeInOrder v requests = writes.apply (writes.attempt v earlier).1 request

/-- What comes of a batch of requests. -/
structure SettledByVersions (place : Place W Store) (w : W) (requests : List StreamRequest) : Prop where
  /-- A batch that names a stream twice is refused by a store, which stays as it is. -/
  repeated : ¬ (requests.map (·.stream)).Nodup → ((writer place).execute w requests).1 = w ∧ ∃ stream,
    2 ≤ (requests.map (·.stream)).count stream ∧ ((writer place).execute w requests).2 =
      .refused (.illegalState ("duplicate stream id in write request: " ++ stream.text))
  /-- Otherwise the versions before the call decide on each of its requests. -/
  applied : (requests.map (·.stream)).Nodup → AppliesFitting place w requests
  /-- Their order makes no difference. -/
  unordered : ∀ others : List StreamRequest, requests.Perm others → SettlesAlike place w requests others
  /-- Any writer refuses a batch that names a stream twice before anything is tried. -/
  untried : ∀ {V : Type} (writes : StreamWrites V) (v : V), ¬ (requests.map (·.stream)).Nodup →
    (writes.executeInOrder v requests).1 = v
  /-- Otherwise it tries one request after the other. -/
  tried : ∀ {V : Type} (writes : StreamWrites V) (v : V), (requests.map (·.stream)).Nodup →
    TriesInOrder writes v requests

/-- The requests that fit are applied. -/
theorem appliesFitting (hplace : place.Lawful) (w : W) {requests : List StreamRequest}
    (hn : (requests.map (·.stream)).Nodup) : AppliesFitting place w requests := by
  have hresult := execute_eq hplace w hn
  refine ⟨congrArg (·.1) hresult, fun request hm => streamEvents_execute hplace w hn hm,
    fun stream hm => streamEvents_execute_of_not_mem hplace w hn hm, congrArg (·.2) hresult, ?_⟩
  rw [show ((writer place).execute w requests).2 = _ from congrArg (·.2) hresult,
    WriteOutcome.ofConflicts_eq_accepted_iff, List.filterMap_eq_nil_iff]
  exact forall₂_congr fun request _ => StreamRequest.conflictIn?_eq_none_iff

/-- In another order requests come to the same. -/
theorem settlesAlike (hplace : place.Lawful) (w : W) {requests others : List StreamRequest}
    (hperm : requests.Perm others) : SettlesAlike place w requests others where
  contents := by
    refine map_streamEvents_execute_perm hplace w hperm _ ?_
    intro request _ asked asked' position position' _ _
    exact Log.map_contents_placeBatch _ _ _ _ _ _ _
  conflicts := conflicts_execute_perm hplace w hperm
  records timestamp hclock := by
    refine map_streamEvents_execute_perm hplace w hperm _ ?_
    intro request _ asked asked' position position' hlt hlt'
    rw [hclock asked hlt, hclock asked' hlt']
    exact Log.map_record_placeBatch _ _ _ _ _ _

/-- A batch that names a stream twice is refused by every writer before anything is tried, and a store stays
as it is. Otherwise a store appends the batches of exactly those requests that ask for no version or for the
one that their stream had before the call, each whole and in order. It reports the others in the order of the
requests, with the versions before the call, and accepts the batch if there are none. In another order the batch
comes to the same. Over any writer the requests are tried in order, and what comes of the first that is neither
accepted nor in conflict is what comes of the batch. -/
theorem execute_settled_by_versions (hplace : place.Lawful) (w : W) (requests : List StreamRequest) :
    SettledByVersions place w requests where
  repeated h := by
    obtain ⟨earlier, again, behind, hsplit, -, hagain, hresult⟩ := execute_of_repeated place w h
    refine ⟨congrArg (·.1) hresult, again.stream, ?_, congrArg (·.2) hresult⟩
    have hcount := List.count_pos_iff.2 hagain
    rw [hsplit, List.map_append, List.map_cons, List.count_append, List.count_cons_self]
    omega
  applied hn := appliesFitting hplace w hn
  unordered _ hperm := settlesAlike hplace w hperm
  untried writes v h := by
    obtain ⟨_, _, _, -, -, -, hresult⟩ := writes.executeInOrder_of_repeated v h
    exact congrArg (·.1) hresult
  tried writes v hn :=
    { gone := StreamWrites.executeInOrder_of_goesOn hn
      stopped := fun _ _ _ hsplit hgoes hstops => StreamWrites.executeInOrder_of_stops hn hsplit hgoes hstops }

/-- Of four requests two are in conflict, and the others are appended, also in the opposite order. Over a
source without events the batch ends with its first request. -/
theorem execute_settled_by_versions_mixed :
    let orders : StreamId := ⟨"orders", "1", by decide⟩
    let bills : StreamId := ⟨"bills", "1", by decide⟩
    let notes : StreamId := ⟨"notes", "1", by decide⟩
    let parcels : StreamId := ⟨"parcels", "1", by decide⟩
    let placed : NewEvent := ⟨"Placed", [1], []⟩
    let billed : NewEvent := ⟨"Billed", [2], []⟩
    let store := (withClock fun _ => .epoch).append orders [placed]
    let requests : List StreamRequest := [⟨orders, [placed], some (-1)⟩, ⟨bills, [billed, billed], none⟩,
      ⟨notes, [], some 5⟩, ⟨parcels, [placed], some (-1)⟩]
    let executed := (writer (Place.whole Store)).execute store requests
    let reordered := (writer (Place.whole Store)).execute store requests.reverse
    let refusing : EventWriter Store := EmptySource.writer
    (Place.whole Store).Lawful ∧ (requests.map (·.stream)).Nodup ∧ requests.Perm requests.reverse ∧
      executed.2 = .refused (.batchWriteConflict [⟨orders, 0, -1⟩, ⟨notes, -1, 5⟩]) ∧
      executed.1.log.contents bills = [(0, billed), (1, billed)] ∧
      reordered.1.log.contents bills = [(0, billed), (1, billed)] ∧
      (reordered.1.log.streamEvents bills).map (·.record) = (executed.1.log.streamEvents bills).map (·.record) ∧
      reordered.2.conflicts.Perm [⟨orders, 0, -1⟩, ⟨notes, -1, 5⟩] ∧
      refusing.executeInOrder store requests = (store, .refused (EmptySource.refusal orders)) := by
  intro orders bills notes parcels placed billed store requests executed reordered refusing
  have hnodup : (requests.map (·.stream)).Nodup := by decide
  have hreverse : requests.Perm requests.reverse := requests.reverse_perm.symm
  have hsettled := execute_settled_by_versions (Place.whole_lawful Store) store requests
  obtain ⟨-, hevents, -, hreport, -⟩ := hsettled.applied hnodup
  obtain ⟨hcontents, hconflicts, hrecords⟩ := hsettled.unordered requests.reverse hreverse
  have hreported : executed.2 = .refused (.batchWriteConflict [⟨orders, 0, -1⟩, ⟨notes, -1, 5⟩]) :=
    Eq.trans hreport (by decide)
  have hbills : executed.1.log.contents bills = [(0, billed), (1, billed)] := by
    obtain ⟨asked, position, -, hbatch⟩ := hevents ⟨bills, [billed, billed], none⟩ (by decide)
    have hnone : store.log.streamEvents bills = [] := by decide
    unfold Log.contents
    rw [show executed.1.log.streamEvents bills = _ from hbatch,
      show ((Place.whole Store).get store).log.streamEvents bills = [] from hnone]
    rfl
  have hconflicts' : reordered.2.conflicts.Perm executed.2.conflicts := hconflicts
  rw [hreported] at hconflicts'
  exact ⟨Place.whole_lawful Store, hnodup, hreverse, hreported, hbills, (hcontents bills).trans hbills,
    hrecords .epoch (fun _ _ => rfl) bills, hconflicts',
    (hsettled.tried refusing.toStreamWrites store hnodup).stopped [] _ _ rfl (fun _ hm => nomatch hm) rfl⟩

end Executing

end Store

end Chronicle
