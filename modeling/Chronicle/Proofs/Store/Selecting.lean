import Chronicle.Proofs.Lists
import Chronicle.Proofs.Store.Mirroring
import Chronicle.Rehearsal.FaultyReader

/-!
# Narrowed readers select

A store is read by category in two ways: it chooses the events of one category itself, or a reader of the whole
store is narrowed to several. Both keep the positions of the log. So the categories of a set, read one by one and
merged by position, are the set read at once, and a consumer that goes from one view of a store to another keeps
its position: it has seen what its old view shows up to there, and goes on with what the new one shows beyond.

A narrowed reader passes on the failures of the other, each in its place among the events that are kept.
-/

namespace Chronicle

section Directions

variable {W : Type}

/-- Which way a read goes. -/
inductive Direction where
  /-- Oldest first. -/
  | forwards
  /-- Newest first. -/
  | backwards
  deriving DecidableEq, Repr

/-- Opens a read in a direction, from a start if one is given. -/
def EventReader.opened (r : EventReader W Nat) (w : W) : Direction → Option Nat → Except StoreError r.Cursor
  | .forwards, none => r.forwards w
  | .forwards, some start => r.forwardsFrom w start
  | .backwards, none => r.backwards w
  | .backwards, some start => r.backwardsFrom w start

namespace Direction

variable (d : Direction)

/-- Ascending events as they come in a direction. -/
def arrange (events : List (Placed Nat)) : List (Placed Nat) :=
  match d with
  | forwards => events
  | backwards => events.reverse

/-- Whether one position comes before another in a direction. -/
def precedes (p q : Nat) : Bool :=
  match d with
  | forwards => p < q
  | backwards => q < p

/-- Whether one event may come before another where reads in a direction are merged. -/
def atMost (e f : Placed Nat) : Bool := !d.precedes f.position e.position

/-- Reads in a direction, merged by the positions of their events. -/
def merged (reads : List (List (Placed Nat))) : List (Placed Nat) :=
  reads.foldr (fun xs ys => xs.merge ys d.atMost) []

variable {d} {p q s : Nat}

/-- What comes before something comes before what comes after that. -/
theorem precedes_trans (hpq : d.precedes p q = true) (hqs : d.precedes q s = true) : d.precedes p s = true := by
  cases d <;> simp only [precedes, decide_eq_true_eq] at * <;> omega

/-- What may come before something may come before what that may come before. -/
theorem atMost_trans (e f g : Placed Nat) (hef : d.atMost e f = true) (hfg : d.atMost f g = true) :
    d.atMost e g = true := by
  cases d <;> simp only [atMost, precedes, Bool.not_eq_true', decide_eq_false_iff_not] at * <;> omega

/-- Of two events one may come before the other. -/
theorem atMost_total (e f : Placed Nat) : (d.atMost e f || d.atMost f e) = true := by
  cases d <;> simp only [atMost, precedes, Bool.or_eq_true, Bool.not_eq_true', decide_eq_false_iff_not] <;> omega

/-- Events that may come before each other are at one position. -/
theorem position_eq_of_atMost {e f : Placed Nat} (hef : d.atMost e f = true) (hfe : d.atMost f e = true) :
    e.position = f.position := by
  cases d <;> simp only [atMost, precedes, Bool.not_eq_true', decide_eq_false_iff_not] at * <;> omega

/-- What comes before an event may do so. -/
theorem atMost_of_precedes {e f : Placed Nat} (h : d.precedes e.position f.position = true) :
    d.atMost e f = true := by
  cases d <;> simp only [atMost, precedes, Bool.not_eq_true', decide_eq_false_iff_not, decide_eq_true_eq] at * <;>
    omega

/-- Choosing among events and arranging them can be done in either order. -/
theorem arrange_filter (keep : Placed Nat → Bool) (events : List (Placed Nat)) :
    d.arrange (events.filter keep) = (d.arrange events).filter keep := by
  cases d with
  | forwards => rfl
  | backwards => exact List.filter_reverse.symm

/-- Ascending events, arranged, come in order. -/
theorem arrange_pairwise {events : List (Placed Nat)} (h : events.Pairwise (·.position < ·.position)) :
    (d.arrange events).Pairwise fun e f => d.precedes e.position f.position = true := by
  cases d with
  | forwards => exact h.imp decide_eq_true
  | backwards => exact List.pairwise_reverse.2 (h.imp decide_eq_true)

/-- Events in order are those that are not beyond a position, and then those that are. -/
theorem split_at {events : List (Placed Nat)}
    (h : events.Pairwise fun e f => d.precedes e.position f.position = true) (p : Nat) :
    events = events.filter (fun e => !d.precedes p e.position) ++ events.filter fun e => d.precedes p e.position := by
  induction events with
  | nil => rfl
  | cons e rest ih =>
    obtain ⟨hfirst, hrest⟩ := List.pairwise_cons.1 h
    cases hbeyond : d.precedes p e.position with
    | false =>
      rw [List.filter_cons_of_pos (by rw [hbeyond]; rfl), List.filter_cons_of_neg (by rw [hbeyond]; nofun),
        List.cons_append, ← ih hrest]
    | true =>
      -- everything behind an event beyond a position is beyond it
      have hall : ∀ f ∈ e :: rest, d.precedes p f.position = true :=
        List.forall_mem_cons.2 ⟨hbeyond, fun f hf => precedes_trans hbeyond (hfirst f hf)⟩
      have hnone : (e :: rest).filter (fun f => !d.precedes p f.position) = [] := by
        refine List.filter_eq_nil_iff.2 fun f hf => ?_
        rw [hall f hf]
        exact Bool.false_ne_true
      rw [hnone, List.filter_eq_self.2 hall, List.nil_append]

end Direction

end Directions

section Failing

variable {W P : Type} {r : Reads W P} {left : W → r.Cursor → List (Placed P)}

/-- Under a plan, a read that hands out a list shows a failure and stays where it is, or hands out the list. -/
theorem FaultPlan.pull_cases (plan : FaultPlan) (h : r.HandsOut left) (w : W) (c : Nat × r.Cursor) :
    (∃ error, (plan.reads r).pull w c = (w, (c.1 + 1, c.2), .failure error)) ∨
      ∃ next, (plan.reads r).pull w c = (w, (c.1 + 1, next), (left w c.2).head?.elim .finished .event) ∧
        left w next = (left w c.2).tail := by
  unfold FaultPlan.reads
  dsimp only
  cases plan.items.lookup c.1 with
  | some error => exact .inl ⟨error, rfl⟩
  | none =>
    obtain ⟨next, hpull, hleft⟩ := h.pull w c.2
    refine .inr ⟨next, ?_, hleft⟩
    dsimp only
    rw [hpull]
    cases (left w c.2).head? <;> rfl

/-- Under a plan, a read that hands out a list never skips, so it is prompt. -/
theorem FaultPlan.prompt (plan : FaultPlan) (h : r.HandsOut left) : (plan.reads r).Prompt fun _ => True := by
  refine Reads.prompt_of_skips (fun _ _ => 0) (fun _ _ => Nat.zero_le _) fun {w c later next} hpull => ?_
  rcases plan.pull_cases h w c with ⟨error, hfailure⟩ | ⟨cursor, hout, -⟩
  · nomatch hfailure.symm.trans hpull
  · cases hlist : left w c.2 with
    | nil =>
      rw [hlist] at hout
      nomatch hout.symm.trans hpull
    | cons e rest =>
      rw [hlist] at hout
      nomatch hout.symm.trans hpull

/-- So it is when it is narrowed: it skips at most what is left of the list. -/
theorem FaultPlan.prompt_keeping (plan : FaultPlan) (h : r.HandsOut left) (keep : Placed P → Bool) :
    ((plan.reads r).keeping keep).Prompt fun _ => True := by
  refine Reads.prompt_of_skips (fun w (c : Nat × r.Cursor) => (left w c.2).length)
    (fun w c => Nat.le_trans (h.length_le w _) (Nat.le_add_left _ _)) fun {w c later next} hpull => ?_
  obtain ⟨what, hinner, hskip⟩ := Reads.of_pull_keeping hpull
  rcases plan.pull_cases h w c with ⟨error, hfailure⟩ | ⟨cursor, hout, hleft⟩
  · cases hfailure.symm.trans hinner
    nomatch hskip
  · cases hlist : left w c.2 with
    | nil =>
      rw [hlist] at hout
      cases hout.symm.trans hinner
      nomatch hskip
    | cons e rest =>
      rw [hlist] at hout hleft
      cases hout.symm.trans hinner
      show (left w cursor).length < (e :: rest).length
      rw [hleft]
      exact Nat.lt_succ_self _

end Failing

namespace Store

variable {W : Type} {place : Place W Store} {w : W} {d : Direction}

/-- The events of a store beyond a start, if one is given, as they come in a direction. -/
def fromStart (place : Place W Store) (w : W) (d : Direction) (start : Option Nat) : List (Placed Nat) :=
  (d.arrange (place.get w).log.events).filter fun e => start.all (d.precedes · e.position)

/-- They come in order. -/
theorem fromStart_pairwise (hw : (place.get w).Reached) (start : Option Nat) :
    (fromStart place w d start).Pairwise fun e f => d.precedes e.position f.position = true :=
  (Direction.arrange_pairwise hw.coherent.pairwise_position).filter _

/-- They are events of the store. -/
theorem mem_of_fromStart {start : Option Nat} {e : Placed Nat} (h : e ∈ fromStart place w d start) :
    e ∈ (place.get w).log.events := by
  have harranged : e ∈ d.arrange (place.get w).log.events := (List.mem_filter.1 h).1
  cases d with
  | forwards => exact harranged
  | backwards => exact List.mem_reverse.1 harranged

/-- A view yields, from any start in either direction, the events beyond it that it shows. -/
theorem View.returns (hw : (place.get w).Reached) (view : View) (d : Direction) (start : Option Nat) :
    (view.reader place).Returns w ((view.reader place).opened w d start)
      ((fromStart place w d start).filter view.shows) := by
  have hmirrors := view.mirrors hw
  have hshown : (fromStart place w d start).filter view.shows =
      (d.arrange ((place.get w).log.events.filter view.shows)).filter
        fun e => start.all (d.precedes · e.position) := by
    unfold fromStart
    rw [d.arrange_filter, List.filter_comm]
  rw [hshown]
  cases d with
  | forwards =>
    cases start with
    | none => exact (List.filter_true _).symm ▸ hmirrors.forwards
    | some start => exact hmirrors.forwardsFrom start
  | backwards =>
    cases start with
    | none => exact (List.filter_true _).symm ▸ hmirrors.backwards
    | some start =>
      have hback := hmirrors.backwardsFrom start
      rw [← List.filter_reverse] at hback
      exact hback

/-- A set of categories has the members of the list that it comes from. -/
theorem contains_categorySet {categories names : List String} (h : ∀ name, name ∈ names ↔ name ∈ categories)
    (name : String) : names.contains name = (categorySet categories).contains name := by
  unfold categorySet
  rw [Bool.eq_iff_iff, List.contains_iff_mem, List.contains_iff_mem, List.mem_eraseDups, List.mem_mergeSort, h]

/-- The categories of a set, each read alone and then merged by position, are the set read at once. -/
theorem merged_categories (hw : (place.get w).Reached) (d : Direction) (start : Option Nat)
    {categories names : List String} (hnodup : names.Nodup) (h : ∀ name, name ∈ names ↔ name ∈ categories) :
    d.merged (names.map fun name => (fromStart place w d start).filter fun e => e.record.stream.category = name) =
      (fromStart place w d start).filter
        fun e => (categorySet categories).contains e.record.stream.category := by
  have hpairwise := fromStart_pairwise hw (d := d) start
  have hanti : ∀ e f, e ∈ fromStart place w d start → f ∈ fromStart place w d start →
      d.atMost e f = true → d.atMost f e = true → e = f := fun _ _ he hf hef hfe =>
    hw.coherent.eq_of_position_eq (mem_of_fromStart he) (mem_of_fromStart hf) (d.position_eq_of_atMost hef hfe)
  refine (foldr_merge_filter Direction.atMost_trans Direction.atMost_total
    (hpairwise.imp Direction.atMost_of_precedes) hanti (·.record.stream.category) hnodup).trans ?_
  exact List.filter_congr fun e _ => contains_categorySet h _

/-- A view read from a position yields what lies beyond it of the view read as a whole. -/
theorem View.splits (hw : (place.get w).Reached) (view : View) (d : Direction) (position : Nat) :
    ∃ passed ahead,
      (view.reader place).Returns w ((view.reader place).opened w d none) (passed ++ ahead) ∧
      (view.reader place).Returns w ((view.reader place).opened w d (some position)) ahead ∧
      (∀ f ∈ passed, d.precedes position f.position = false) ∧
      ∀ f ∈ ahead, d.precedes position f.position = true := by
  have hsplit := Direction.split_at ((fromStart_pairwise hw (d := d) none).filter view.shows) position
  have hahead : ((fromStart place w d none).filter view.shows).filter
      (fun f => d.precedes position f.position) = (fromStart place w d (some position)).filter view.shows := by
    unfold fromStart
    rw [List.filter_comm]
    exact congrArg _ (congrArg _ (List.filter_true _))
  refine ⟨_, _, hsplit ▸ view.returns hw d none, hahead ▸ view.returns hw d (some position), ?_, ?_⟩
  · intro f hf
    have hnot := (List.mem_filter.1 hf).2
    rwa [Bool.not_eq_true'] at hnot
  · exact fun f hf => (List.mem_filter.1 hf).2

/-- What a view shows up to an event comes in order, and before anything that lies beyond the event. -/
theorem View.pairwise_append (hw : (place.get w).Reached) {view : View} {start : Option Nat}
    {xs ys ahead : List (Placed Nat)} {e : Placed Nat}
    (hseen : (view.reader place).Returns w ((view.reader place).opened w d start) (xs ++ e :: ys))
    (hahead : ahead.Pairwise fun f g => d.precedes f.position g.position = true)
    (hbeyond : ∀ f ∈ ahead, d.precedes e.position f.position = true) :
    (xs ++ e :: ahead).Pairwise fun f g => d.precedes f.position g.position = true := by
  have hordered := (fromStart_pairwise hw (d := d) start).filter view.shows
  rw [← hseen.unique (view.returns hw d start)] at hordered
  obtain ⟨hxs, -, hbefore⟩ := List.pairwise_append.1 hordered
  refine List.pairwise_append.2 ⟨hxs, List.pairwise_cons.2 ⟨hbeyond, hahead⟩, fun f hf g hg => ?_⟩
  have hfirst := hbefore f hf e List.mem_cons_self
  rcases List.mem_cons.1 hg with rfl | hg
  · exact hfirst
  · exact Direction.precedes_trans hfirst (hbeyond g hg)

/-- A view goes on in some direction behind an event, which may be one that another view yielded. -/
structure GoesOn (place : Place W Store) (w : W) (view : View) (d : Direction) (position : Nat)
    (passed ahead : List (Placed Nat)) : Prop where
  /-- These are all the events that it shows. -/
  whole : (view.reader place).Returns w ((view.reader place).opened w d none) (passed ++ ahead)
  /-- From the position of the event it yields those that lie ahead. -/
  resumed : (view.reader place).Returns w ((view.reader place).opened w d (some position)) ahead
  /-- None of the others lies beyond the event, so nothing is missed. -/
  passed : ∀ f ∈ passed, d.precedes position f.position = false
  /-- Those that lie ahead all lie beyond it, so nothing is met again. -/
  ahead : ∀ f ∈ ahead, d.precedes position f.position = true

/-- A narrowed reader passes on what the reader yields that it narrows. -/
structure PassesOn {P : Type} (r : EventReader W P) (keep : Placed P → Bool) (world : W) : Prop where
  /-- A read forwards is the other's, narrowed. -/
  forwardsFrom : ∀ position, (r.filtering keep).forwardsFrom world position = r.forwardsFrom world position
  /-- So is a read backwards. -/
  backwards : (r.filtering keep).backwards world = r.backwards world
  /-- So is a read backwards from a position. -/
  backwardsFrom : ∀ position, (r.filtering keep).backwardsFrom world position = r.backwardsFrom world position
  /-- Its answers are the other's in turn, failures and ends among them, without the events that are not kept, up to
  one that is passed on. -/
  answers : ∀ (c : r.Cursor) answers later next, (r.filtering keep).Answers world c answers later next ↔
    ∃ all, r.Answers world c all later next ∧ answers = all.filter (passes keep) ∧
      all.getLast?.all (passes keep) = true

/-- What narrowing makes of a reader of a store. -/
structure Selects (place : Place W Store) (w : W) : Prop where
  /-- In either direction and from every start, several categories read at once are the same categories read one
  by one and merged by position. -/
  merges : ∀ (d : Direction) (start : Option Nat) (categories names : List String), names.Nodup →
    (∀ name, name ∈ names ↔ name ∈ categories) →
    ∃ reads : String → List (Placed Nat),
      (∀ name, ((categoryReader place).asSource name).Returns w
        (((categoryReader place).asSource name).opened w d start) (reads name)) ∧
      ((eventReader place).inCategories categories).Returns w
        (((eventReader place).inCategories categories).opened w d start) (d.merged (names.map reads))
  /-- In which order narrowings are stacked makes no difference. -/
  commutes : ∀ (category : Option String) (stack other : List (Narrowing Nat)), stack.Perm other →
    View.reader place ⟨category, stack⟩ = View.reader place ⟨category, other⟩
  /-- From the position of any event that one view yielded, every other one goes on behind it. In the direction of
  the first, the events of both follow each other in the order of the log. -/
  resumes : ∀ (view other : View) (d : Direction) (start : Option Nat) (xs : List (Placed Nat)) (e : Placed Nat)
    (ys : List (Placed Nat)),
    (view.reader place).Returns w ((view.reader place).opened w d start) (xs ++ e :: ys) →
    ∀ d' : Direction, ∃ passed ahead, GoesOn place w other d' e.position passed ahead ∧
      (d' = d → (xs ++ e :: ahead).Pairwise fun f g => d.precedes f.position g.position = true)
  /-- Whatever reader is narrowed, its answers are passed on. -/
  passesOn : ∀ {P : Type} (r : EventReader W P) (keep : Placed P → Bool) (world : W), PassesOn r keep world
  /-- The pulls that are tried suffice for that over a store that is made to fail. -/
  tried : ∀ (plan : FaultPlan) (keep : Placed Nat → Bool) (count : Nat) (world : W) (c : Nat × Log.Cursor),
    ∃ more, (((plan.eventReader (eventReader place)).filtering keep).ask count world c).2.2 =
      ((plan.eventReader (eventReader place)).ask more world c).2.2.filter (passes keep)

/-- Several categories read at once are merged from single ones. -/
theorem merges_categories (hw : (place.get w).Reached) (d : Direction) (start : Option Nat)
    {categories names : List String} (hnodup : names.Nodup) (hmembers : ∀ name, name ∈ names ↔ name ∈ categories) :
    ∃ reads : String → List (Placed Nat),
      (∀ name, ((categoryReader place).asSource name).Returns w
        (((categoryReader place).asSource name).opened w d start) (reads name)) ∧
      ((eventReader place).inCategories categories).Returns w
        (((eventReader place).inCategories categories).opened w d start) (d.merged (names.map reads)) := by
  have hsingle : ∀ name, (View.mk (some name) []).shows = fun e => decide (e.record.stream.category = name) :=
    fun name => funext fun e => Bool.and_true _
  have hset : (View.mk none [.categories categories]).shows =
      fun e => (categorySet categories).contains e.record.stream.category := funext fun e => Bool.and_true _
  refine ⟨fun name => (fromStart place w d start).filter fun e => e.record.stream.category = name,
    fun name => ?_, ?_⟩
  · have hreturns := View.returns hw ⟨some name, []⟩ d start
    rw [hsingle name] at hreturns
    exact hreturns
  · rw [merged_categories hw d start hnodup hmembers, ← hset]
    exact View.returns hw ⟨none, [.categories categories]⟩ d start

/-- The order of narrowings does not matter. -/
theorem View.reader_perm (category : Option String) {stack other : List (Narrowing Nat)} (h : stack.Perm other) :
    View.reader place ⟨category, stack⟩ = View.reader place ⟨category, other⟩ := by
  cases category with
  | none => exact (eventReader place).narrowed_perm h
  | some name => exact ((categoryReader place).asSource name).narrowed_perm h

/-- A narrowed reader passes on the answers of the other. -/
theorem passesOn_filtering {P : Type} (r : EventReader W P) (keep : Placed P → Bool) (world : W) :
    PassesOn r keep world where
  forwardsFrom _ := rfl
  backwards := rfl
  backwardsFrom _ := rfl
  answers c answers later next := by
    refine ⟨Reads.Answers.of_keeping, ?_⟩
    rintro ⟨all, hall, rfl, hlast⟩
    exact hall.keeping hlast

/-- Narrowing a reader of a store selects among what it yields: several categories are merged, narrowings may be
stacked in any order, a consumer who changes from one view to another at any event misses nothing and meets nothing
again, and failures are where they were. -/
theorem narrowing_selects (hw : (place.get w).Reached) : Selects place w where
  merges d start _ _ hnodup hmembers := merges_categories hw d start hnodup hmembers
  commutes category _ _ hperm := View.reader_perm category hperm
  resumes view other d start xs e ys hseen d' := by
    obtain ⟨passed, ahead, hall, hresumed, hpassed, hahead⟩ := other.splits hw d' e.position
    refine ⟨passed, ahead, ⟨hall, hresumed, hpassed, hahead⟩, ?_⟩
    rintro rfl
    have hordered := (fromStart_pairwise hw (d := d') (some e.position)).filter other.shows
    rw [← hresumed.unique (other.returns hw d' (some e.position))] at hordered
    exact View.pairwise_append hw hseen hordered hahead
  passesOn r keep world := passesOn_filtering r keep world
  tried plan keep count world c := by
    have hout := reads_handsOut place
    exact (plan.prompt hout).ask_keeping (plan.prompt_keeping hout keep) trivial trivial count world

/-- A consumer of some events of one category goes on with all events of two, behind the first of its own. -/
theorem narrowing_selects_widened :
    let orders : StreamId := ⟨"orders", "1", by decide⟩
    let users : StreamId := ⟨"users", "1", by decide⟩
    let place := Place.whole Store
    let store := (((withClock fun _ => .epoch).append orders [⟨"Placed", [1], []⟩]).append users
      [⟨"Joined", [2], []⟩]).append orders [⟨"Paid", [3], []⟩]
    let narrow : View := ⟨some "orders", [.test fun e => e.record.eventType == "Placed"]⟩
    let wide : View := ⟨none, [.categories ["users", "orders", "users"]]⟩
    (place.get store).Reached ∧
      (∃ reads : String → List (Placed Nat), (wide.reader place).Returns store ((wide.reader place).backwards store)
        (Direction.backwards.merged [reads "orders", reads "users"])) ∧
      ∃ e, (narrow.reader place).Returns store ((narrow.reader place).forwards store) [e] ∧ e.position = 1 ∧
        ∃ passed ahead,
          (wide.reader place).Returns store ((wide.reader place).forwards store) (passed ++ ahead) ∧
          (wide.reader place).Returns store ((wide.reader place).forwardsFrom store 1) ahead ∧
          (∀ f ∈ passed, f.position ≤ 1) ∧ ∀ f ∈ ahead, 1 < f.position := by
  intro orders users place store narrow wide
  have hw : (place.get store).Reached := .append _ _ (.append _ _ (.append _ _ (.start _)))
  have hselects := narrowing_selects hw
  obtain ⟨reads, -, hwide⟩ := hselects.merges .backwards none ["users", "orders", "users"] ["orders", "users"]
    (by decide) (fun name => by simp only [List.mem_cons, List.not_mem_nil]; tauto)
  have hseen := View.returns hw narrow .forwards none
  have hshown : ((fromStart place store .forwards none).filter narrow.shows).map (·.position) = [1] := by
    decide
  obtain ⟨e, heq, hposition⟩ := List.map_eq_singleton_iff.1 hshown
  rw [heq] at hseen
  obtain ⟨passed, ahead, ⟨hall, hahead, hpassed, hbeyond⟩, -⟩ :=
    hselects.resumes narrow wide .forwards none [] e [] hseen .forwards
  rw [hposition] at hahead hpassed hbeyond
  refine ⟨hw, ⟨reads, hwide⟩, e, hseen, hposition, passed, ahead, hall, hahead, fun f hf => ?_, fun f hf => ?_⟩
  · exact Nat.le_of_not_lt (of_decide_eq_false (hpassed f hf))
  · exact of_decide_eq_true (hbeyond f hf)

end Store

end Chronicle
