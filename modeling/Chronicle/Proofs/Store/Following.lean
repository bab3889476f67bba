import Chronicle.Proofs.Access.Pulls
import Chronicle.Proofs.Store.Coherence
import Mathlib.Data.List.Infix

/-!
# Reads that follow a log

A lazy read of a store holds no more than a count: forwards, how many events of the log it has passed, and
backwards, how many it still has ahead. The log may grow between two calls of `next`. What an open read
yielded is told here from that count. Forwards it is everything selected among the events that were passed
since the read was opened, so the read stands at some place among the matching events of the log as it is
now. Backwards the count never exceeds the log as it was at the opening, and what lies below it never changes.
-/

namespace Chronicle

namespace Log

section Searching

variable {selection : Selection} {events : List (Placed Nat)}

/-- The events of a list that belong to a read. -/
def selected (selection : Selection) (events : List (Placed Nat)) : List (Placed Nat) :=
  events.filter fun e => selection.admits e.record

/-- The events of two lists that belong to a read are those of the first, then those of the second. -/
theorem selected_append (xs ys : List (Placed Nat)) :
    selected selection (xs ++ ys) = selected selection xs ++ selected selection ys :=
  List.filter_append xs ys

/-- A search passes some more events, and what it finds is all that belongs to the read among them. -/
theorem firstSelected_passes {passed stop : Nat} {found : Option (Placed Nat)}
    (h : firstSelected selection passed events = (stop, found)) :
    ∃ more ≤ events.length, stop = passed + more ∧
      selected selection (events.take more) = found.toList ∧
      found = (selected selection events).head? := by
  cases found with
  | none =>
    obtain ⟨hstop, hnone⟩ := firstSelected_none h
    have hnil : selected selection events = [] := by
      unfold selected
      rw [List.filter_eq_nil_iff]
      intro e he
      rw [hnone e he]
      exact Bool.false_ne_true
    refine ⟨events.length, Nat.le_refl _, hstop, ?_, ?_⟩
    · rw [List.take_length, hnil]
      rfl
    · rw [hnil]
      rfl
  | some e =>
    obtain ⟨xs, ys, rfl, hstop, he, hxs⟩ := firstSelected_some h
    have hnil : selected selection xs = [] := by
      unfold selected
      rw [List.filter_eq_nil_iff]
      intro x hx
      rw [hxs x hx]
      exact Bool.false_ne_true
    have hone : selected selection [e] = [e] := List.filter_cons_of_pos he
    have hsplit : xs ++ e :: ys = xs ++ [e] ++ ys := by
      rw [List.append_assoc, List.singleton_append]
    have hlength : (xs ++ [e]).length = xs.length + 1 := List.length_append
    refine ⟨xs.length + 1, ?_, hstop, ?_, ?_⟩
    · rw [hsplit, List.length_append, hlength]
      exact Nat.le_add_right _ _
    · rw [hsplit, List.take_left' hlength, selected_append, hnil, hone]
      rfl
    · rw [hsplit, selected_append, selected_append, hnil, hone]
      rfl

/-- A search backwards goes down some events, and what it finds is all that belongs to the read among them. -/
theorem lastSelected_passes {remaining left : Nat} {found : Option (Placed Nat)}
    (hle : remaining ≤ events.length)
    (h : lastSelected selection events remaining = (left, found)) :
    left ≤ remaining ∧ selected selection ((events.take remaining).drop left) = found.toList ∧
      found = (selected selection (events.take remaining)).getLast? := by
  induction remaining with
  | zero =>
    simp only [lastSelected, Prod.mk.injEq] at h
    obtain ⟨rfl, rfl⟩ := h
    exact ⟨Nat.le_refl _, rfl, rfl⟩
  | succ remaining ih =>
    have hlt : remaining < events.length := hle
    have htake : events.take (remaining + 1) = events.take remaining ++ [events[remaining]] :=
      List.take_succ_eq_append_getElem hlt
    have hlength : (events.take remaining).length = remaining := List.length_take_of_le (Nat.le_of_lt hlt)
    unfold lastSelected at h
    rw [List.getElem?_eq_getElem hlt] at h
    dsimp only at h
    rw [htake, selected_append]
    by_cases hadmits : selection.admits events[remaining].record = true
    · rw [if_pos hadmits, Prod.mk.injEq] at h
      obtain ⟨rfl, rfl⟩ := h
      have hone : selected selection [events[remaining]] = [events[remaining]] :=
        List.filter_cons_of_pos hadmits
      refine ⟨Nat.le_succ _, ?_, ?_⟩
      · rw [List.drop_left' hlength, hone]
        rfl
      · rw [hone, List.getLast?_concat]
    · rw [if_neg hadmits] at h
      obtain ⟨hleft, hfound, hlast⟩ := ih (Nat.le_of_lt hlt) h
      have hnone : selected selection [events[remaining]] = [] := List.filter_cons_of_neg hadmits
      refine ⟨Nat.le_succ_of_le hleft, ?_, ?_⟩
      · rw [List.drop_append_of_le_length (by rwa [hlength]), selected_append, hnone, List.append_nil, hfound]
      · rw [hnone, List.append_nil, hlast]

/-- A read forwards finds the first event behind those it has passed that belongs to it. -/
theorem pull_forwards {log : Log} {passed stop : Nat} {found : Option (Placed Nat)}
    (h : firstSelected selection passed (log.events.drop passed) = (stop, found)) :
    log.pull (.forwards passed selection) = (.forwards stop selection, foundOf found) := by
  unfold pull
  dsimp only
  rw [h]

/-- A read backwards finds the last event among those ahead of it that belongs to it. -/
theorem pull_backwards {log : Log} {remaining left : Nat} {found : Option (Placed Nat)}
    (h : lastSelected selection log.events remaining = (left, found)) :
    log.pull (.backwards remaining selection) = (.backwards left selection, foundOf found) := by
  unfold pull
  dsimp only
  rw [h]

end Searching

end Log

namespace Store

section Scopes

/-- What a read of a store covers, and the position or number that it starts from, if one is given. -/
inductive Scope where
  /-- The whole store. -/
  | all (start : Option Nat)
  /-- The streams of one category. -/
  | category (name : String) (start : Option Nat)
  /-- One stream. -/
  | stream (id : StreamId) (start : Option Int)
  deriving DecidableEq, Repr

namespace Scope

variable {W : Type} (place : Place W Store) (w : W)

/-- Opens a read of a scope, oldest first. -/
def forwards : Scope → Except StoreError Log.Cursor
  | all none => (eventReader place).forwards w
  | all (some position) => (eventReader place).forwardsFrom w position
  | category name none => (categoryReader place).forwards w name
  | category name (some position) => (categoryReader place).forwardsFrom w name position
  | stream id none => (streamReader place).forwards w id
  | stream id (some number) => (streamReader place).forwardsFrom w id number

/-- Opens a read of a scope, newest first. -/
def backwards : Scope → Except StoreError Log.Cursor
  | all none => (eventReader place).backwards w
  | all (some position) => (eventReader place).backwardsFrom w position
  | category name none => (categoryReader place).backwards w name
  | category name (some position) => (categoryReader place).backwardsFrom w name position
  | stream id none => (streamReader place).backwards w id
  | stream id (some number) => (streamReader place).backwardsFrom w id number

/-- Whether a scope covers an event. -/
def covers (e : Placed Nat) : Scope → Bool
  | all _ => true
  | category name _ => e.record.stream.category = name
  | stream id _ => e.record.stream = id

/-- Whether an event lies after the start of a scope. -/
def after (e : Placed Nat) : Scope → Bool
  | all start => start.all (· < e.position)
  | category _ start => start.all (· < e.position)
  | stream _ start => start.all (· < e.record.number)

/-- Whether an event lies before the start of a scope. -/
def before (e : Placed Nat) : Scope → Bool
  | all start => start.all (e.position < ·)
  | category _ start => start.all (e.position < ·)
  | stream _ start => start.all (e.record.number < ·)

/-- The events of a log that a scope covers after its start, oldest first. -/
def ahead (scope : Scope) (log : Log) : List (Placed Nat) :=
  log.events.filter fun e => scope.covers e && scope.after e

/-- The events of a log that a scope covers before its start, oldest first. -/
def behind (scope : Scope) (log : Log) : List (Placed Nat) :=
  log.events.filter fun e => scope.covers e && scope.before e

/-- The position that a read forwards starts from, 0 if it starts from a number or from nothing. -/
def origin : Scope → Nat
  | all start => start.getD 0
  | category _ start => start.getD 0
  | stream _ _ => 0

/-- The scope is a stream without events in the log, and is refused as such. -/
def Refused (scope : Scope) (log : Log) (error : StoreError) : Prop :=
  ∃ id start, scope = stream id start ∧ log.streamEvents id = [] ∧ error = .noSuchStream id

variable {place w}

/-- A stream is opened unless it has no events. -/
theorem openStream_cases (hw : (place.get w).Reached) (id : StreamId) (start : Option Int)
    (cursor : Log → Log.Cursor) :
    openStream place w id cursor = .ok (cursor (place.get w).log) ∨
      ∃ error, openStream place w id cursor = .error error ∧
        (stream id start).Refused (place.get w).log error := by
  unfold openStream
  by_cases h : (place.get w).log.hasStream id = true
  · exact .inl (if_pos h)
  · refine .inr ⟨.noSuchStream id, if_neg h, id, start, rfl, ?_, rfl⟩
    rw [hw.coherent.hasStream_iff, ← Log.length_streamEvents] at h
    exact List.eq_nil_of_length_eq_zero (Nat.eq_zero_of_not_pos h)

/-- The events of a log after a start, if one is given. -/
theorem filter_after {log : Log} (h : log.Coherent) (start : Option Nat) :
    log.events.filter (fun e => start.all (· < e.position)) = log.events.drop (start.getD 0) := by
  cases start with
  | none => exact List.filter_eq_self.2 fun _ _ => rfl
  | some position => exact h.filter_position position

/-- The events of a log before a start, if one is given. -/
theorem filter_before {log : Log} (h : log.Coherent) (start : Option Nat) :
    log.events.filter (fun e => start.all (e.position < ·)) =
      log.events.take (start.elim log.events.length fun position => min (position - 1) log.events.length) := by
  cases start with
  | none =>
    rw [Option.elim_none, List.take_length]
    exact List.filter_eq_self.2 fun _ _ => rfl
  | some position => exact (h.filter_position_below position).trans List.take_eq_take_min

/-- What a read forwards holds when it is opened: whatever the log becomes, the events that the scope covers
after its start are those selected behind the ones already passed. -/
theorem forwards_cases (hw : (place.get w).Reached) (scope : Scope) :
    (∃ selection, scope.forwards place w = .ok (.forwards scope.origin selection) ∧
      ∀ log : Log, log.Coherent →
        scope.ahead log = Log.selected selection (log.events.drop scope.origin)) ∨
    ∃ error, scope.forwards place w = .error error ∧ scope.Refused (place.get w).log error := by
  cases scope with
  | all start =>
    refine .inl ⟨.all, by cases start <;> rfl, fun log hlog => ?_⟩
    have hstart := filter_after hlog start
    unfold ahead Log.selected covers after origin Log.Selection.admits
    rw [← hstart, List.filter_filter]
  | category name start =>
    refine .inl ⟨.category name, by cases start <;> rfl, fun log hlog => ?_⟩
    have hstart := filter_after hlog start
    unfold ahead Log.selected covers after origin Log.Selection.admits
    rw [← hstart, List.filter_filter]
  | stream id start =>
    have hopen : (stream id start).forwards place w = openStream place w id fun _ =>
        Log.readAfter 0 (.streamAfter id (start.getD noVersion)) := by
      cases start <;> rfl
    rw [hopen]
    rcases openStream_cases hw id start fun _ => Log.readAfter 0 (.streamAfter id (start.getD noVersion))
      with hok | hrefused
    · refine .inl ⟨.streamAfter id (start.getD noVersion), hok, fun log hlog => List.filter_congr ?_⟩
      intro e he
      cases start with
      | none =>
        -- every number lies above the version of a stream without events
        have hnumber := (hlog.number_lt he).1
        have habove : noVersion < e.record.number := by
          unfold noVersion
          omega
        simp [covers, after, Log.Selection.admits, habove]
      | some number => simp [covers, after, Log.Selection.admits]
    · exact .inr hrefused

/-- What a read backwards holds when it is opened: the events that the scope covers before its start are those
selected among the ones still ahead. -/
theorem backwards_cases (hw : (place.get w).Reached) (scope : Scope) :
    (∃ count selection, scope.backwards place w = .ok (.backwards count selection) ∧
      count ≤ (place.get w).log.events.length ∧
      scope.behind (place.get w).log =
        Log.selected selection ((place.get w).log.events.take count)) ∨
    ∃ error, scope.backwards place w = .error error ∧ scope.Refused (place.get w).log error := by
  -- a read backwards of the whole store or of a category has the events before its start ahead of it
  have hcount : ∀ start : Option Nat,
      (start.elim (place.get w).log.events.length fun position =>
        min (position - 1) (place.get w).log.events.length) ≤ (place.get w).log.events.length := by
    intro start
    cases start with
    | none => exact Nat.le_refl _
    | some position => exact Nat.min_le_right _ _
  cases scope with
  | all start =>
    refine .inl ⟨_, .all, by cases start <;> rfl, hcount start, ?_⟩
    unfold behind Log.selected covers before Log.Selection.admits
    rw [← filter_before hw.coherent, List.filter_filter]
  | category name start =>
    refine .inl ⟨_, .category name, by cases start <;> rfl, hcount start, ?_⟩
    unfold behind Log.selected covers before Log.Selection.admits
    rw [← filter_before hw.coherent, List.filter_filter]
  | stream id start =>
    have hopen : (stream id start).backwards place w = openStream place w id fun log =>
        log.readBack (.streamBefore id start) := by
      cases start <;> rfl
    rw [hopen]
    rcases openStream_cases hw id start fun log => log.readBack (.streamBefore id start) with hok | hrefused
    · refine .inl ⟨_, .streamBefore id start, hok, Nat.le_refl _, ?_⟩
      rw [List.take_length]
      refine List.filter_congr fun e _ => ?_
      cases start with
      | none => simp [covers, before, Log.Selection.admits]
      | some number => simp [covers, before, Log.Selection.admits]
    · exact .inr hrefused

end Scope

end Scopes

section Interleavings

variable {W : Type} (place : Place W Store)

/-- What happens between two looks at an open read. -/
inductive Deed where
  /-- Somebody writes. -/
  | write (stream : StreamId) (events : List NewEvent) (expected : Int)
  /-- Somebody appends. -/
  | append (stream : StreamId) (events : List NewEvent)
  /-- The read is asked for its next event. -/
  | next
  deriving DecidableEq, Repr

/-- An open read, with what it yielded. -/
structure Reading (W : Type) where
  /-- The world that it reads. -/
  world : W
  /-- What it holds. -/
  cursor : Log.Cursor
  /-- What it yielded since it was opened. -/
  yielded : List (Item Nat) := []

namespace Reading

/-- The log as it is. -/
def log (read : Reading W) : Log := (place.get read.world).log

/-- The answer that the read gives when it is asked for its next event. -/
def answer (read : Reading W) : Option (Item Nat) := ((reads place).next read.world read.cursor).2.2

/-- Does a deed. -/
def deed (read : Reading W) : Deed → Reading W
  | .write stream events expected =>
    { read with world := ((writer place).write read.world stream events expected).1 }
  | .append stream events => { read with world := ((writer place).append read.world stream events).1 }
  | .next =>
    let (w, c, item) := (reads place).next read.world read.cursor
    ⟨w, c, read.yielded ++ item.toList⟩

/-- Does deeds in order. -/
def deeds (read : Reading W) (ds : List Deed) : Reading W := ds.foldl (deed place) read

/-- A read has yielded the first of some events and answers with the one behind them, or with nothing if there
is none. -/
def Follows (events : List (Placed Nat)) (read : Reading W) : Prop :=
  ∃ m ≤ events.length, read.yielded = (events.take m).map .ok ∧
    read.answer place = events[m]?.map .ok

/-- A read never counts beyond the end of the log, except from a start that lies there. -/
def Within (start : Nat) (read : Reading W) : Prop :=
  match read.cursor with
  | .forwards passed _ => passed ≤ max start (read.log place).events.length
  | .backwards remaining _ => remaining ≤ (read.log place).events.length

variable {place}

/-- A read follows events of which it yielded the first ones and answers with the first of the others. -/
theorem Follows.of_append {xs ys : List (Placed Nat)} {read : Reading W}
    (hyielded : read.yielded = xs.map .ok) (hanswer : read.answer place = ys.head?.map .ok) :
    read.Follows place (xs ++ ys) := by
  refine ⟨xs.length, ?_, ?_, ?_⟩
  · rw [List.length_append]
    exact Nat.le_add_right _ _
  · rw [List.take_left, hyielded]
  · rw [List.getElem?_append_right (Nat.le_refl _), Nat.sub_self, ← List.head?_eq_getElem?, hanswer]

/-- Asking for the next event is one pull. -/
theorem next_of_found {w : W} {c later : Log.Cursor} {found : Option (Placed Nat)}
    (h : (place.get w).log.pull c = (later, Log.foundOf found)) :
    (reads place).next w c = (w, later, found.map .ok) := by
  have hpull : (reads place).pull w c = (w, later, Log.foundOf found) := by
    unfold reads
    dsimp only
    rw [h]
  cases found with
  | none => exact Reads.next_of_pull hpull nofun
  | some e => exact Reads.next_of_pull hpull nofun

/-- Asking for the next event leaves the world as it is. -/
theorem next_world (w : W) (c : Log.Cursor) : ((reads place).next w c).1 = w := by
  cases c with
  | forwards passed selection => rw [next_of_found (Log.pull_forwards rfl)]
  | backwards remaining selection => rw [next_of_found (Log.pull_backwards rfl)]

/-- A deed leaves a later store. -/
theorem deed_leadsTo (hplace : place.Lawful) (read : Reading W) (d : Deed) :
    (place.get read.world).LeadsTo (place.get (read.deed place d).world) := by
  cases d with
  | write stream events expected =>
    unfold deed writer
    dsimp only
    rw [hplace.get_set]
    exact .write .same stream events expected
  | append stream events =>
    unfold deed writer
    dsimp only
    rw [hplace.get_set]
    exact .append .same stream events
  | next =>
    unfold deed
    dsimp only
    rw [next_world]
    exact .same

/-- What a read keeps while the log grows, and when it is asked for its next event, it keeps under all deeds. -/
theorem deeds_keep (hplace : place.Lawful) {kept : Reading W → Prop}
    (hgrow : ∀ (read : Reading W) (later : W), kept read →
      (place.get read.world).LeadsTo (place.get later) → kept { read with world := later })
    (hnext : ∀ read : Reading W, kept read → kept (read.deed place .next)) {read : Reading W}
    (h : kept read) (ds : List Deed) : kept (read.deeds place ds) := by
  unfold deeds
  induction ds generalizing read with
  | nil => exact h
  | cons d rest ih =>
    rw [List.foldl_cons]
    refine ih ?_
    have hlater := deed_leadsTo hplace read d
    cases d with
    | write stream events expected => exact hgrow _ _ h hlater
    | append stream events => exact hgrow _ _ h hlater
    | next => exact hnext _ h

/-- Deeds leave a later store. -/
theorem deeds_leadsTo (hplace : place.Lawful) (read : Reading W) (ds : List Deed) :
    (place.get read.world).LeadsTo (place.get (read.deeds place ds).world) := by
  unfold deeds
  induction ds generalizing read with
  | nil => exact .same
  | cons d rest ih => exact (deed_leadsTo hplace read d).trans (ih _)

section Ahead

variable {start : Nat} {selection : Log.Selection}

variable (place start selection) in
/-- A read forwards has passed some events behind its start and yielded what belongs to it among them. -/
def Advanced (read : Reading W) : Prop :=
  ∃ more ≤ ((read.log place).events.drop start).length,
    read.cursor = .forwards (start + more) selection ∧
      read.yielded = (Log.selected selection (((read.log place).events.drop start).take more)).map .ok

/-- A read that was just opened has passed nothing. -/
theorem Advanced.opened (w : W) : Advanced place start selection ⟨w, .forwards start selection, []⟩ :=
  ⟨0, Nat.zero_le _, rfl, rfl⟩

/-- A read that has passed some events has still passed them when the log grows. -/
theorem Advanced.grow {read : Reading W} (h : Advanced place start selection read) {later : W}
    (hlater : (place.get read.world).LeadsTo (place.get later)) :
    Advanced place start selection { read with world := later } := by
  obtain ⟨more, hle, hcursor, hyielded⟩ := h
  have hgrown := hlater.events_prefix.drop start
  refine ⟨more, Nat.le_trans hle hgrown.length_le, hcursor, ?_⟩
  have htake := take_of_grown hgrown hle
  unfold log
  dsimp only
  rw [htake]
  exact hyielded

/-- The answer of a read forwards is the first event behind those it has passed that belongs to it, and with
it the read has passed some more. -/
theorem Advanced.next {read : Reading W} (h : Advanced place start selection read) :
    read.Follows place (Log.selected selection ((read.log place).events.drop start)) ∧
      Advanced place start selection (read.deed place .next) := by
  obtain ⟨more, hle, hcursor, hyielded⟩ := h
  rcases hfirst : Log.firstSelected selection (start + more) ((read.log place).events.drop (start + more))
    with ⟨stop, found⟩
  obtain ⟨further, hfurther, rfl, hpassed, hhead⟩ := Log.firstSelected_passes hfirst
  have hnext : (reads place).next read.world read.cursor =
      (read.world, .forwards (start + more + further) selection, found.map .ok) := by
    rw [hcursor]
    exact next_of_found (Log.pull_forwards hfirst)
  rw [← List.drop_drop] at hfurther hpassed hhead
  constructor
  · rw [← List.take_append_drop more ((read.log place).events.drop start), Log.selected_append]
    refine .of_append hyielded ?_
    unfold answer
    rw [hnext, hhead]
  · have hdeed : read.deed place .next =
        ⟨read.world, .forwards (start + more + further) selection,
          read.yielded ++ (found.map Except.ok).toList⟩ := by
      unfold deed
      rw [hnext]
    rw [hdeed]
    refine ⟨more + further, ?_, by rw [Nat.add_assoc], ?_⟩
    · rw [List.length_drop] at hfurther
      exact Nat.add_le_of_le_sub' hle hfurther
    · change read.yielded ++ (found.map Except.ok).toList = (Log.selected selection
        (((read.log place).events.drop start).take (more + further))).map .ok
      rw [List.take_add, Log.selected_append, hpassed, List.map_append, hyielded]
      cases found <;> rfl

/-- A read forwards never counts beyond the end of the log and its start. -/
theorem Advanced.within {read : Reading W} (h : Advanced place start selection read) :
    read.Within place start := by
  obtain ⟨more, hle, hcursor, -⟩ := h
  rw [List.length_drop] at hle
  unfold Within
  rw [hcursor]
  dsimp only
  omega

/-- A read forwards stays one under all deeds. -/
theorem Advanced.deeds (hplace : place.Lawful) {read : Reading W} (h : Advanced place start selection read)
    (ds : List Deed) : Advanced place start selection (read.deeds place ds) :=
  deeds_keep hplace (fun _ _ hread hlater => hread.grow hlater) (fun _ hread => hread.next.2) h ds

end Ahead

section Behind

variable {events : List (Placed Nat)} {selection : Log.Selection}

variable (place events selection) in
/-- A read backwards of some first events of the log still has the first of them ahead and yielded what
belongs to it among the others. -/
def Receded (read : Reading W) : Prop :=
  events <+: (read.log place).events ∧ ∃ left ≤ events.length,
    read.cursor = .backwards left selection ∧
      read.yielded = (Log.selected selection (events.drop left)).reverse.map .ok

/-- A read that was just opened has everything ahead. -/
theorem Receded.opened {w : W} {count : Nat} (hle : count ≤ (place.get w).log.events.length) :
    Receded place ((place.get w).log.events.take count) selection ⟨w, .backwards count selection, []⟩ := by
  have hlength : ((place.get w).log.events.take count).length = count := List.length_take_of_le hle
  refine ⟨List.take_prefix _ _, count, Nat.le_of_eq hlength.symm, rfl, ?_⟩
  rw [List.drop_eq_nil_of_le (Nat.le_of_eq hlength)]
  rfl

/-- A read backwards does not notice that the log grows. -/
theorem Receded.grow {read : Reading W} (h : Receded place events selection read) {later : W}
    (hlater : (place.get read.world).LeadsTo (place.get later)) :
    Receded place events selection { read with world := later } :=
  ⟨h.1.trans hlater.events_prefix, h.2⟩

/-- The answer of a read backwards is the last event ahead that belongs to it, and with it the read has gone
down to where that event is. -/
theorem Receded.next {read : Reading W} (h : Receded place events selection read) :
    read.Follows place (Log.selected selection events).reverse ∧
      Receded place events selection (read.deed place .next) := by
  obtain ⟨hkept, left, hle, hcursor, hyielded⟩ := h
  rcases hlast : Log.lastSelected selection (read.log place).events left with ⟨lower, found⟩
  obtain ⟨hlower, hpassed, hfound⟩ := Log.lastSelected_passes (Nat.le_trans hle hkept.length_le) hlast
  have hnext : (reads place).next read.world read.cursor =
      (read.world, .backwards lower selection, found.map .ok) := by
    rw [hcursor]
    exact next_of_found (Log.pull_backwards hlast)
  rw [take_of_grown hkept hle] at hpassed hfound
  have hsplit : (Log.selected selection events).reverse =
      (Log.selected selection (events.drop left)).reverse ++
        (Log.selected selection (events.take left)).reverse := by
    rw [← List.reverse_append, ← Log.selected_append, List.take_append_drop]
  constructor
  · rw [hsplit]
    refine .of_append hyielded ?_
    unfold answer
    rw [hnext, hfound, List.head?_reverse]
  · have hdeed : read.deed place .next =
        ⟨read.world, .backwards lower selection, read.yielded ++ (found.map Except.ok).toList⟩ := by
      unfold deed
      rw [hnext]
    rw [hdeed]
    refine ⟨hkept, lower, Nat.le_trans hlower hle, rfl, ?_⟩
    have hdrop : events.drop lower = (events.take left).drop lower ++ events.drop left := by
      rw [← List.drop_append_of_le_length (by rwa [List.length_take_of_le hle]), List.take_append_drop]
    change read.yielded ++ (found.map Except.ok).toList =
      (Log.selected selection (events.drop lower)).reverse.map .ok
    rw [hdrop, Log.selected_append, hpassed, List.reverse_append, List.map_append, hyielded]
    cases found <;> rfl

/-- A read backwards never counts beyond the end of the log. -/
theorem Receded.within {read : Reading W} (h : Receded place events selection read) (start : Nat) :
    read.Within place start := by
  obtain ⟨hkept, left, hle, hcursor, -⟩ := h
  unfold Within
  rw [hcursor]
  exact Nat.le_trans hle hkept.length_le

/-- A read backwards stays one under all deeds. -/
theorem Receded.deeds (hplace : place.Lawful) {read : Reading W} (h : Receded place events selection read)
    (ds : List Deed) : Receded place events selection (read.deeds place ds) :=
  deeds_keep hplace (fun _ _ hread hlater => hread.grow hlater) (fun _ hread => hread.next.2) h ds

end Behind

end Reading

variable {place}

/-- Whatever others write while a read is open, and whenever it is asked for its next event, a read forwards
stands somewhere among the events that its scope covers after its start in the log as it is now: it yielded
those before, and answers with the next of them or, if there is none, with nothing. A read backwards stands
likewise among the events that its scope covered before its start when it was opened, from the last to the
first. Neither reaches beyond the log. Only a stream without events is not opened. -/
theorem open_reads_follow_log (hplace : place.Lawful) {w : W} (hw : (place.get w).Reached) (scope : Scope)
    (ds : List Deed) :
    (match scope.forwards place w with
      | .ok cursor =>
        let read := Reading.deeds place ⟨w, cursor, []⟩ ds
        read.Follows place (scope.ahead (read.log place)) ∧ read.Within place scope.origin
      | .error error => scope.Refused (place.get w).log error) ∧
    (match scope.backwards place w with
      | .ok cursor =>
        let read := Reading.deeds place ⟨w, cursor, []⟩ ds
        read.Follows place (scope.behind (place.get w).log).reverse ∧ read.Within place scope.origin
      | .error error => scope.Refused (place.get w).log error) := by
  constructor
  · rcases scope.forwards_cases hw with ⟨selection, hopen, hahead⟩ | ⟨error, hopen, hrefused⟩
    · rw [hopen]
      have hopened : Reading.Advanced place scope.origin selection
          ⟨w, .forwards scope.origin selection, []⟩ := .opened w
      have hkept := hopened.deeds hplace ds
      have hcoherent : (Reading.log place
          (Reading.deeds place ⟨w, .forwards scope.origin selection, []⟩ ds)).Coherent :=
        ((Reading.deeds_leadsTo hplace _ ds).reached hw).coherent
      refine ⟨?_, hkept.within⟩
      have hfollows := hkept.next.1
      rw [← hahead _ hcoherent] at hfollows
      exact hfollows
    · rw [hopen]
      exact hrefused
  · rcases scope.backwards_cases hw with
      ⟨count, selection, hopen, hcount, hbehind⟩ | ⟨error, hopen, hrefused⟩
    · rw [hopen]
      have hopened : Reading.Receded place ((place.get w).log.events.take count) selection
          ⟨w, .backwards count selection, []⟩ := .opened hcount
      have hkept := hopened.deeds hplace ds
      refine ⟨?_, hkept.within _⟩
      have hfollows := hkept.next.1
      rw [← hbehind] at hfollows
      exact hfollows
    · rw [hopen]
      exact hrefused

/-- A read of a category from a position has ended, and goes on with what is appended then. A read backwards
from there has ended too, and stays so. -/
theorem open_reads_follow_log_after_end :
    let orders : StreamId := ⟨"orders", "1", by decide⟩
    let place := Place.whole Store
    let store := (withClock fun _ => .epoch).append orders
      [⟨"Placed", [1], []⟩, ⟨"Paid", [2], []⟩, ⟨"Packed", [3], []⟩]
    let scope := Scope.category "orders" (some 2)
    let ds : List Deed := [.next, .next, .append orders [⟨"Sent", [4], []⟩]]
    let ahead := Reading.deeds place ⟨store, .forwards 2 (.category "orders"), []⟩ ds
    let behind := Reading.deeds place ⟨store, .backwards 1 (.category "orders"), []⟩ ds
    place.Lawful ∧ (place.get store).Reached ∧
      scope.forwards place store = .ok (.forwards 2 (.category "orders")) ∧
      scope.backwards place store = .ok (.backwards 1 (.category "orders")) ∧
      (scope.ahead (ahead.log place)).map (·.record.data) = [[3], [4]] ∧ ahead.yielded.length = 1 ∧
      ahead.Follows place (scope.ahead (ahead.log place)) ∧
      (scope.behind store.log).map (·.record.data) = [[1]] ∧ behind.yielded.length = 1 ∧
      behind.Follows place (scope.behind store.log).reverse := by
  intro orders place store scope ds ahead behind
  have hplace : place.Lawful := Place.whole_lawful Store
  have hw : (place.get store).Reached := .append _ _ (.start _)
  have hfollows := open_reads_follow_log hplace hw scope ds
  exact ⟨hplace, hw, rfl, rfl, by decide +kernel, by decide +kernel, hfollows.1.1, by decide +kernel,
    by decide +kernel, hfollows.2.1⟩

end Interleavings

end Store

end Chronicle
