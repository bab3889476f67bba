import Chronicle.Proofs.Narrow.Keeping
import Chronicle.Proofs.Store.Remaining
import Mathlib.Data.Int.Order.Basic
import Mathlib.Data.Nat.Basic
import Mathlib.Order.Lattice

/-!
# Reads that mirror each other

A source is read forwards and backwards, as a whole, by category or by stream, from a start or without one. All
reads of one scope tell of one list of events: the full read forwards is the list, a read from a start holds what
lies on its side of the start, and backwards everything comes in reverse. Two reads that start at the same place
in opposite directions miss at most one event between them, the one that stands there.

A store opens a read forwards by what it has passed and one backwards by what is still ahead, and it reads a
stream by numbers of its own. That both come from one list is shown for the lists that are left to the reads when
they are opened. Narrowing a reader narrows the list.
-/

namespace Chronicle

/-- The reads of one scope of a source. They start from a key of its events: a position, or a number. -/
structure ScopeReads (W P K : Type) extends Reads W P where
  /-- Opens a read of the whole scope, oldest first. -/
  forwards : W → Except StoreError Cursor
  /-- Opens a read of what lies after a start, oldest first. -/
  forwardsFrom : W → K → Except StoreError Cursor
  /-- Opens a read of the whole scope, newest first. -/
  backwards : W → Except StoreError Cursor
  /-- Opens a read of what lies before a start, newest first. -/
  backwardsFrom : W → K → Except StoreError Cursor
  /-- The newest event of the scope. -/
  lastEvent : W → W × Except StoreError (Option (Placed P))

section Scopes

variable {W P : Type}

/-- A whole source as one scope. -/
def EventReader.scope (r : EventReader W P) : ScopeReads W P P where
  toReads := r.toReads
  forwards := r.forwards
  forwardsFrom := r.forwardsFrom
  backwards := r.backwards
  backwardsFrom := r.backwardsFrom
  lastEvent := r.lastEvent

/-- A category as a scope. -/
def CategoryReader.scope (r : CategoryReader W P) (category : String) : ScopeReads W P P where
  toReads := r.toReads
  forwards w := r.forwards w category
  forwardsFrom w := r.forwardsFrom w category
  backwards w := r.backwards w category
  backwardsFrom w := r.backwardsFrom w category
  lastEvent w := r.lastEvent w category

/-- A stream as a scope. -/
def StreamReader.scope (r : StreamReader W P) (stream : StreamId) : ScopeReads W P Int where
  toReads := r.toReads
  forwards w := r.forwards w stream
  forwardsFrom w := r.forwardsFrom w stream
  backwards w := r.backwards w stream
  backwardsFrom w := r.backwardsFrom w stream
  lastEvent w := r.lastEvent w stream

end Scopes

namespace ScopeReads

variable {W P K : Type} [LinearOrder K]

/-- Every read of a scope is refused with one error. -/
structure Refuses (s : ScopeReads W P K) (w : W) (error : StoreError) : Prop where
  /-- Reads of the whole scope are. -/
  forwards : s.forwards w = .error error
  /-- So are reads from a start, wherever that is. -/
  forwardsFrom : ∀ start, s.forwardsFrom w start = .error error
  /-- Backwards it is the same. -/
  backwards : s.backwards w = .error error
  /-- So it is from a start. -/
  backwardsFrom : ∀ start, s.backwardsFrom w start = .error error
  /-- The newest event is refused, too. -/
  lastEvent : s.lastEvent w = (w, .error error)

/-- All reads of a scope tell of one list of events. -/
structure Mirrors (s : ScopeReads W P K) (key : Placed P → K) (w : W) (events : List (Placed P)) : Prop where
  /-- The full read forwards is the list. -/
  forwards : s.Returns w (s.forwards w) events
  /-- From a start come exactly the events strictly after it. -/
  forwardsFrom : ∀ start, s.Returns w (s.forwardsFrom w start) (events.filter (start < key ·))
  /-- Backwards the list comes in reverse. -/
  backwards : s.Returns w (s.backwards w) events.reverse
  /-- So do, from a start, the events strictly before it. -/
  backwardsFrom : ∀ start, s.Returns w (s.backwardsFrom w start) (events.filter (key · < start)).reverse
  /-- The newest event is the last of the list, if there is one. -/
  lastEvent : s.lastEvent w = (w, .ok events.getLast?)
  /-- Two reads from one start miss at most the event at the start. -/
  split : ∀ start, ∃ here, events = events.filter (key · < start) ++ here ++ events.filter (start < key ·) ∧
    here.length ≤ 1 ∧ ∀ e ∈ here, key e = start

/-- Ascending events are those before a start, at most one there, and those after it. -/
theorem split_of_ascending {key : Placed P → K} {events : List (Placed P)}
    (h : events.Pairwise (key · < key ·)) (start : K) :
    ∃ here, events = events.filter (key · < start) ++ here ++ events.filter (start < key ·) ∧
      here.length ≤ 1 ∧ ∀ e ∈ here, key e = start := by
  induction events with
  | nil => exact ⟨[], rfl, Nat.zero_le _, List.forall_mem_nil _⟩
  | cons e rest ih =>
    obtain ⟨habove, hrest⟩ := List.pairwise_cons.1 h
    -- behind a first event that is not before the start all events are after it
    have hafter : start ≤ key e →
        rest.filter (key · < start) = [] ∧ rest.filter (start < key ·) = rest := by
      intro hle
      refine ⟨List.filter_eq_nil_iff.2 fun f hf => ?_, List.filter_eq_self.2 fun f hf => ?_⟩
      · rw [decide_eq_true_eq]
        exact lt_asymm (lt_of_le_of_lt hle (habove f hf))
      · exact decide_eq_true (lt_of_le_of_lt hle (habove f hf))
    simp only [List.filter_cons, decide_eq_true_eq]
    rcases lt_trichotomy (key e) start with hbefore | rfl | hbehind
    · obtain ⟨here, hsplit, hone⟩ := ih hrest
      refine ⟨here, ?_, hone⟩
      rw [if_pos hbefore, if_neg (lt_asymm hbefore), List.cons_append, List.cons_append, ← hsplit]
    · obtain ⟨hnone, hall⟩ := hafter (le_refl _)
      refine ⟨[e], ?_, Nat.le_refl _, fun f hf => congrArg key (List.mem_singleton.1 hf)⟩
      rw [if_neg (lt_irrefl _), if_neg (lt_irrefl _), hnone, hall]
      rfl
    · obtain ⟨hnone, hall⟩ := hafter (le_of_lt hbehind)
      refine ⟨[], ?_, Nat.zero_le _, List.forall_mem_nil _⟩
      rw [if_neg (lt_asymm hbehind), if_pos hbehind, hnone, hall]
      rfl

/-- What is left to the reads of a scope when they are opened comes from one list of ascending events. -/
structure Opens (s : ScopeReads W P K) (left : W → s.Cursor → List (Placed P)) (key : Placed P → K) (w : W)
    (events : List (Placed P)) : Prop where
  /-- The whole list is left forwards. -/
  forwards : ∃ c, s.forwards w = .ok c ∧ left w c = events
  /-- From a start it is what lies after it. -/
  forwardsFrom : ∀ start, ∃ c, s.forwardsFrom w start = .ok c ∧ left w c = events.filter (start < key ·)
  /-- The reversed list is left backwards. -/
  backwards : ∃ c, s.backwards w = .ok c ∧ left w c = events.reverse
  /-- From a start it is what lies before it. -/
  backwardsFrom : ∀ start, ∃ c, s.backwardsFrom w start = .ok c ∧
    left w c = (events.filter (key · < start)).reverse
  /-- The newest event is the first of a read backwards. -/
  lastEvent : s.lastEvent w = s.first w (s.backwards w)
  /-- Keys ascend. -/
  ascending : events.Pairwise (key · < key ·)

/-- Reads that leave the world as it is, and yield what is left to them, tell of one list. -/
theorem Opens.mirrors {s : ScopeReads W P K} {left : W → s.Cursor → List (Placed P)} {key : Placed P → K} {w : W}
    {events : List (Placed P)} (h : s.Opens left key w events) {ended : W → s.Cursor → Prop}
    {skips : W → s.Cursor → Nat}
    (hforecast : s.Forecast (fun world _ => world = w) ended (fun w c => (left w c).map .ok) skips)
    (hclose : ∀ c, s.close w c = w) : s.Mirrors key w events := by
  have hreturns : ∀ {opened : Except StoreError s.Cursor} {events : List (Placed P)},
      (∃ c, opened = .ok c ∧ left w c = events) → s.Returns w opened events := by
    rintro _ _ ⟨c, rfl, rfl⟩
    exact hforecast.returns (fun hworld => hworld) rfl rfl
  refine ⟨hreturns h.forwards, fun start => hreturns (h.forwardsFrom start), hreturns h.backwards,
    fun start => hreturns (h.backwardsFrom start), ?_, split_of_ascending h.ascending⟩
  obtain ⟨c, hopen, hleft⟩ := h.backwards
  rw [h.lastEvent, hopen, hforecast.first_eq (fun hworld => hworld) hclose rfl (congrArg _ hleft),
    List.head?_reverse]

end ScopeReads

section Narrowing

variable {W P : Type} [LinearOrder P] {r : EventReader W P} {left : W → r.Cursor → List (Placed P)}
  {key : Placed P → P} {w : W} {events : List (Placed P)}

/-- What is left to the reads of a narrowed reader is what it keeps of what is left to the other's. -/
theorem ScopeReads.Opens.filtering (h : r.scope.Opens left key w events)
    (hstart : r.forwards w = r.forwardsFrom w r.emptyPosition) (keep : Placed P → Bool) :
    (r.filtering keep).scope.Opens (fun w c => (left w c).filter keep) key w (events.filter keep) := by
  refine ⟨?_, fun start => ?_, ?_, fun start => ?_, rfl, h.ascending.filter _⟩
  · obtain ⟨c, hopen, hleft⟩ := h.forwards
    exact ⟨c, hstart.symm.trans hopen, congrArg (List.filter keep) hleft⟩
  · obtain ⟨c, hopen, hleft⟩ := h.forwardsFrom start
    exact ⟨c, hopen, (congrArg (List.filter keep) hleft).trans (List.filter_comm _ _ _)⟩
  · obtain ⟨c, hopen, hleft⟩ := h.backwards
    exact ⟨c, hopen, (congrArg (List.filter keep) hleft).trans List.filter_reverse⟩
  · obtain ⟨c, hopen, hleft⟩ := h.backwardsFrom start
    refine ⟨c, hopen, (congrArg (List.filter keep) hleft).trans ?_⟩
    rw [List.filter_reverse, List.filter_comm]

/-- A reader over lists that is narrowed, however often, tells of the events that are kept. -/
theorem EventReader.narrowed_mirrors (h : r.scope.Opens left key w events) (hout : r.HandsOut left)
    (hclose : ∀ c, r.close w c = w) (hstart : r.forwards w = r.forwardsFrom w r.emptyPosition)
    (hlast : r.pulling r.pull = r) (stack : List (Narrowing P)) :
    (r.narrowed stack).scope.Mirrors key w (events.filter (Narrowing.allKeep stack)) := by
  rw [r.narrowed_eq hlast]
  exact (h.filtering hstart _).mirrors (hout.forecast_keeping _ w) hclose

end Narrowing

namespace Log.Coherent

variable {log : Log}

/-- Positions ascend in a log. -/
theorem pairwise_position (h : log.Coherent) : log.events.Pairwise (·.position < ·.position) := by
  rw [List.pairwise_iff_getElem]
  intro i j hi hj hij
  rw [h.position_getElem hi, h.position_getElem hj]
  exact Nat.succ_lt_succ hij

/-- Numbers ascend in a stream. -/
theorem pairwise_number (h : log.Coherent) (stream : StreamId) :
    (log.streamEvents stream).Pairwise (·.record.number < ·.record.number) := by
  have hnumbers : ((log.streamEvents stream).map (·.record.number)).Pairwise (· < ·) := by
    rw [h.numbers, List.pairwise_map]
    exact List.pairwise_lt_range.imp Int.ofNat_lt.2
  exact List.pairwise_map.1 hnumbers

end Log.Coherent

namespace Store

variable {W : Type} {place : Place W Store} {w : W}

namespace Scope

/-- The reads of one scope of a store, by where they start. -/
def reads {K : Type} (place : Place W Store) (scopes : Option K → Scope) : ScopeReads W Nat K where
  toReads := Store.reads place
  forwards w := (scopes none).forwards place w
  forwardsFrom w start := (scopes (some start)).forwards place w
  backwards w := (scopes none).backwards place w
  backwardsFrom w start := (scopes (some start)).backwards place w
  lastEvent w := (Store.reads place).first w ((scopes none).backwards place w)

/-- Unless a scope is refused, what it covers after its start is left to a read forwards. -/
theorem forwards_left (hw : (place.get w).Reached) {scope : Scope}
    (hopen : ∀ error, ¬ scope.Refused (place.get w).log error) :
    ∃ c, scope.forwards place w = .ok c ∧ (place.get w).log.left c = scope.ahead (place.get w).log := by
  rcases scope.forwards_cases hw with ⟨selection, hok, hahead⟩ | ⟨error, -, hrefused⟩
  · exact ⟨_, hok, (hahead _ hw.coherent).symm⟩
  · exact absurd hrefused (hopen error)

/-- Unless a scope is refused, what it covers before its start is left to a read backwards, in reverse. -/
theorem backwards_left (hw : (place.get w).Reached) {scope : Scope}
    (hopen : ∀ error, ¬ scope.Refused (place.get w).log error) :
    ∃ c, scope.backwards place w = .ok c ∧
      (place.get w).log.left c = (scope.behind (place.get w).log).reverse := by
  rcases scope.backwards_cases hw with ⟨count, selection, hok, -, hbehind⟩ | ⟨error, -, hrefused⟩
  · exact ⟨_, hok, congrArg List.reverse hbehind.symm⟩
  · exact absurd hrefused (hopen error)

/-- The reads of scopes that differ in their starts come from the events that all of them cover. -/
theorem reads_opens {K : Type} [LinearOrder K] (hw : (place.get w).Reached) (scopes : Option K → Scope)
    (covers : Placed Nat → Bool) (key : Placed Nat → K)
    (hcovers : ∀ start e, (scopes start).covers e = covers e)
    (hafter : ∀ start e, (scopes start).after e = start.all (· < key e))
    (hbefore : ∀ start e, (scopes start).before e = start.all (key e < ·))
    (hopen : ∀ start error, ¬ (scopes start).Refused (place.get w).log error)
    (hascending : ((place.get w).log.events.filter covers).Pairwise (key · < key ·)) :
    (reads place scopes).Opens (fun w c => (place.get w).log.left c) key w
      ((place.get w).log.events.filter covers) := by
  have hahead : ∀ start, (scopes start).ahead (place.get w).log =
      ((place.get w).log.events.filter covers).filter fun e => start.all (· < key e) := by
    intro start
    rw [List.filter_filter]
    refine List.filter_congr fun e _ => ?_
    rw [hcovers, hafter, Bool.and_comm]
  have hbehind : ∀ start, (scopes start).behind (place.get w).log =
      ((place.get w).log.events.filter covers).filter fun e => start.all (key e < ·) := by
    intro start
    rw [List.filter_filter]
    refine List.filter_congr fun e _ => ?_
    rw [hcovers, hbefore, Bool.and_comm]
  refine ⟨?_, fun start => ?_, ?_, fun start => ?_, rfl, hascending⟩
  · obtain ⟨c, hok, hleft⟩ := forwards_left hw (hopen none)
    exact ⟨c, hok, hleft.trans ((hahead none).trans (List.filter_true _))⟩
  · obtain ⟨c, hok, hleft⟩ := forwards_left hw (hopen (some start))
    exact ⟨c, hok, hleft.trans (hahead (some start))⟩
  · obtain ⟨c, hok, hleft⟩ := backwards_left hw (hopen none)
    exact ⟨c, hok, hleft.trans (congrArg List.reverse ((hbehind none).trans (List.filter_true _)))⟩
  · obtain ⟨c, hok, hleft⟩ := backwards_left hw (hopen (some start))
    exact ⟨c, hok, hleft.trans (congrArg List.reverse (hbehind (some start)))⟩

/-- The whole store is opened on its log. -/
theorem all_opens (hw : (place.get w).Reached) :
    (eventReader place).scope.Opens (fun w c => (place.get w).log.left c) (·.position) w
      (place.get w).log.events := by
  have hopens := reads_opens hw all (fun _ => true) (·.position) (fun _ _ => rfl) (fun _ _ => rfl)
    (fun _ _ => rfl) (fun _ _ ⟨_, _, hstream, _⟩ => nomatch hstream) (hw.coherent.pairwise_position.filter _)
  rw [List.filter_true] at hopens
  exact hopens

/-- A category is opened on its events. -/
theorem category_opens (hw : (place.get w).Reached) (name : String) :
    ((categoryReader place).scope name).Opens (fun w c => (place.get w).log.left c) (·.position) w
      ((place.get w).log.events.filter fun e => e.record.stream.category = name) :=
  reads_opens hw (category name) _ (·.position) (fun _ _ => rfl) (fun _ _ => rfl) (fun _ _ => rfl)
    (fun _ _ ⟨_, _, hstream, _⟩ => nomatch hstream) (hw.coherent.pairwise_position.filter _)

/-- A stream with events is opened on them. -/
theorem stream_opens (hw : (place.get w).Reached) {id : StreamId} (hne : (place.get w).log.streamEvents id ≠ []) :
    ((streamReader place).scope id).Opens (fun w c => (place.get w).log.left c) (·.record.number) w
      ((place.get w).log.streamEvents id) := by
  refine reads_opens hw (stream id) _ (·.record.number) (fun _ _ => rfl) (fun _ _ => rfl) (fun _ _ => rfl) ?_
    (hw.coherent.pairwise_number id)
  rintro start error ⟨other, first, hstream, hnil, -⟩
  cases hstream
  exact hne hnil

/-- A stream without events is refused. -/
theorem stream_refuses (hw : (place.get w).Reached) {id : StreamId}
    (hnil : (place.get w).log.streamEvents id = []) :
    ((streamReader place).scope id).Refuses w (.noSuchStream id) := by
  have hunknown : ¬ (place.get w).log.hasStream id = true := by
    rw [hw.coherent.hasStream_iff, ← Log.length_streamEvents, hnil]
    exact Nat.not_lt_zero _
  refine ⟨if_neg hunknown, fun _ => if_neg hunknown, if_neg hunknown, fun _ => if_neg hunknown, ?_⟩
  have hrefused : (streamReader place).backwards w id = .error (.noSuchStream id) := if_neg hunknown
  show (Store.reads place).first w ((streamReader place).backwards w id) = _
  rw [hrefused]
  rfl

end Scope

section Views

/-- A way to read a store as one source: all of it or one of its categories, narrowed any number of times. -/
structure View where
  /-- The category, none for the whole store. -/
  category : Option String := none
  /-- What it is narrowed by, one after the other. -/
  stack : List (Narrowing Nat) := []

namespace View

/-- The reader of a view. -/
def reader (place : Place W Store) (view : View) : EventReader W Nat :=
  match view.category with
  | none => (eventReader place).narrowed view.stack
  | some name => ((categoryReader place).asSource name).narrowed view.stack

/-- Whether a view shows an event. -/
def shows (view : View) (e : Placed Nat) : Bool :=
  view.category.all (e.record.stream.category = ·) && Narrowing.allKeep view.stack e

/-- The reads of a view tell of the events that it shows. -/
theorem mirrors (hw : (place.get w).Reached) (view : View) :
    (view.reader place).scope.Mirrors (·.position) w ((place.get w).log.events.filter view.shows) := by
  rcases view with ⟨_ | name, stack⟩
  · exact EventReader.narrowed_mirrors (Scope.all_opens hw) (reads_handsOut place) (fun _ => rfl) rfl rfl stack
  · have hshows : View.shows ⟨some name, stack⟩ =
        fun e => Narrowing.allKeep stack e && decide (e.record.stream.category = name) :=
      funext fun e => Bool.and_comm _ _
    rw [hshows, ← List.filter_filter]
    have hopens : ((categoryReader place).asSource name).scope.Opens (fun w c => (place.get w).log.left c)
        (·.position) w _ := Scope.category_opens hw name
    exact EventReader.narrowed_mirrors hopens (reads_handsOut place) (fun _ => rfl) rfl rfl stack

end View

/-- All reads of a store that are opened in one scope tell of one list of events, forwards and backwards, from
every start and without one, and so does the newest event: the log of the whole store, the events of a category or
of a stream, which starts from numbers. Only a stream without events is refused, in every read alike. The same
holds of a category that is read as a source of its own, and of either when it is narrowed by tests and by sets
of categories. -/
theorem reads_mirror (hw : (place.get w).Reached) :
    (eventReader place).scope.Mirrors (·.position) w (place.get w).log.events ∧
    (∀ name, ((categoryReader place).scope name).Mirrors (·.position) w
      ((place.get w).log.events.filter fun e => e.record.stream.category = name)) ∧
    (∀ id, (place.get w).log.streamEvents id ≠ [] →
      ((streamReader place).scope id).Mirrors (·.record.number) w ((place.get w).log.streamEvents id)) ∧
    (∀ id, (place.get w).log.streamEvents id = [] →
      ((streamReader place).scope id).Refuses w (.noSuchStream id)) ∧
    ∀ view : View, (view.reader place).scope.Mirrors (·.position) w
      ((place.get w).log.events.filter view.shows) := by
  have hforecast := (reads_handsOut place).forecast w
  exact ⟨(Scope.all_opens hw).mirrors hforecast fun _ => rfl,
    fun name => (Scope.category_opens hw name).mirrors hforecast fun _ => rfl,
    fun id hne => (Scope.stream_opens hw hne).mirrors hforecast fun _ => rfl,
    fun id hnil => Scope.stream_refuses hw hnil, View.mirrors hw⟩

/-- Two streams of one category and one of another. A read of a stream starts from a number that no event has,
and a narrowed one from a position at which it shows nothing. -/
theorem reads_mirror_narrowed :
    let orders : StreamId := ⟨"orders", "1", by decide⟩
    let others : StreamId := ⟨"orders", "2", by decide⟩
    let users : StreamId := ⟨"users", "1", by decide⟩
    let place := Place.whole Store
    let store := (((withClock fun _ => .epoch).append orders [⟨"Placed", [1], []⟩, ⟨"Paid", [2], []⟩]).append users
      [⟨"Joined", [3], []⟩]).append others [⟨"Placed", [4], []⟩]
    let view : View := ⟨some "orders", [.test fun e => e.record.eventType == "Placed", .categories ["orders"]]⟩
    (place.get store).Reached ∧ ∃ shown,
      (view.reader place).scope.Mirrors (·.position) store shown ∧ shown.map (·.record.data) = [[1], [4]] ∧
      (view.reader place).Returns store ((view.reader place).backwardsFrom store 2)
        (shown.filter (·.position < 2)).reverse ∧
      ((streamReader place).scope orders).Mirrors (·.record.number) store (store.log.streamEvents orders) ∧
      ((streamReader place).scope ⟨"orders", "3", by decide⟩).Refuses store
        (.noSuchStream ⟨"orders", "3", by decide⟩) := by
  intro orders others users place store view
  have hw : (place.get store).Reached := .append _ _ (.append _ _ (.append _ _ (.start _)))
  obtain ⟨-, -, hstreams, hunknown, hviews⟩ := reads_mirror hw
  exact ⟨hw, _, hviews view, by decide +kernel, (hviews view).backwardsFrom 2, hstreams orders (by decide),
    hunknown _ (by decide)⟩

end Views

end Store

end Chronicle
