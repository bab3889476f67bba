import Chronicle.Narrow.Category
import Chronicle.Narrow.Filter
import Chronicle.Proofs.Access.Finding
import Chronicle.Proofs.Access.HandingOut

/-!
# What a narrowed read keeps

Narrowed readers are stacked: a reader that was narrowed is narrowed again. Each pull still is one pull of the
reader below all of them, and what is found there is kept if every test keeps it. So a stack of narrowings is
one narrowing by all of its tests, and the order of the stack shows nowhere.

A narrowed read is asked less often than the other. Whoever asks it is answered what the other answers in turn,
without the events that are not kept; a failure is answered where it occurs, and so is an end.
-/

namespace Chronicle

variable {W P : Type}

section Tests

variable (keep also : Placed P → Bool)

/-- An event that is not kept is skipped. -/
theorem Found.keeping_event (e : Placed P) :
    (Found.event e).keeping keep = if keep e then .event e else .skipped := rfl

/-- What is kept by one test and then by another is kept by both. -/
theorem Found.keeping_keeping (found : Found P) :
    (found.keeping keep).keeping also = found.keeping fun e => keep e && also e := by
  cases found with
  | event e =>
    rw [keeping_event, keeping_event]
    cases hkeep : keep e with
    | false => rfl
    | true => exact keeping_event also e
  | _ => rfl

/-- A test that keeps everything changes nothing. -/
theorem Found.keeping_true (found : Found P) : found.keeping (fun _ => true) = found := by
  cases found <;> rfl

end Tests

/-- A pull of a narrowed read is one of the other, and what is found there is kept or passed over. -/
theorem Reads.pull_keeping (r : Reads W P) (keep : Placed P → Bool) (w : W) (c : r.Cursor) :
    (r.keeping keep).pull w c = ((r.pull w c).1, (r.pull w c).2.1, (r.pull w c).2.2.keeping keep) := rfl

section Stacks

variable (r : EventReader W P)

/-- The same reader with other pulls, and with the newest event that they find. -/
def EventReader.pulling (pull : W → r.Cursor → W × r.Cursor × Found P) : EventReader W P where
  Cursor := r.Cursor
  pull := pull
  close := r.close
  extent := r.extent
  growths := r.growths
  codec := r.codec
  emptyPosition := r.emptyPosition
  forwardsFrom := r.forwardsFrom
  backwards := r.backwards
  backwardsFrom := r.backwardsFrom

/-- A reader that is narrowed twice is narrowed by both tests. -/
theorem EventReader.filtering_filtering (keep also : Placed P → Bool) :
    (r.filtering keep).filtering also = r.filtering fun e => keep e && also e :=
  congrArg r.pulling (funext fun w => funext fun c =>
    congrArg (fun found => ((r.pull w c).1, (r.pull w c).2.1, found)) (Found.keeping_keeping keep also _))

/-- A reader that is narrowed by a test which keeps everything. -/
theorem EventReader.filtering_true : r.filtering (fun _ => true) = r.pulling r.pull :=
  congrArg r.pulling (funext fun w => funext fun c =>
    congrArg (fun found => ((r.pull w c).1, (r.pull w c).2.1, found)) (Found.keeping_true _))

/-- One way to narrow a reader. -/
inductive Narrowing (P : Type) where
  /-- To the events that a test keeps. -/
  | test (keep : Placed P → Bool)
  /-- To the events of some categories. -/
  | categories (names : List String)

/-- Whether a narrowing keeps an event. -/
def Narrowing.keeps : Narrowing P → Placed P → Bool
  | test keep, e => keep e
  | categories names, e => (categorySet names).contains e.record.stream.category

/-- Whether every narrowing of a stack keeps an event. -/
def Narrowing.allKeep (stack : List (Narrowing P)) (e : Placed P) : Bool := stack.all (·.keeps e)

/-- A reader that is narrowed. -/
def EventReader.narrow : Narrowing P → EventReader W P
  | .test keep => r.filtering keep
  | .categories names => r.inCategories names

/-- A reader that is narrowed by one after the other. -/
def EventReader.narrowed (stack : List (Narrowing P)) : EventReader W P := stack.foldl narrow r

/-- Each narrowing is one by a test. -/
theorem EventReader.narrow_eq (narrowing : Narrowing P) : r.narrow narrowing = r.filtering narrowing.keeps := by
  cases narrowing <;> rfl

/-- Narrowings on top of one by a test are, all together, one by a test. -/
theorem EventReader.narrowed_filtering (keep : Placed P → Bool) (stack : List (Narrowing P)) :
    (r.filtering keep).narrowed stack = r.filtering fun e => keep e && Narrowing.allKeep stack e := by
  induction stack generalizing keep with
  | nil =>
    have hall : (fun e => keep e && Narrowing.allKeep [] e) = keep := funext fun e => Bool.and_true _
    rw [hall]
    rfl
  | cons narrowing rest ih =>
    have hall : (fun e => keep e && Narrowing.allKeep (narrowing :: rest) e) =
        fun e => (keep e && narrowing.keeps e) && Narrowing.allKeep rest e :=
      funext fun e => (Bool.and_assoc _ _ _).symm
    show ((r.filtering keep).narrow narrowing).narrowed rest = _
    rw [narrow_eq, filtering_filtering, ih, hall]

/-- A stack of narrowings is one narrowing by all of its tests. -/
theorem EventReader.narrowed_cons (narrowing : Narrowing P) (stack : List (Narrowing P)) :
    r.narrowed (narrowing :: stack) = r.filtering (Narrowing.allKeep (narrowing :: stack)) := by
  show (r.narrow narrowing).narrowed stack = _
  rw [narrow_eq, narrowed_filtering]
  rfl

/-- A stack of narrowings, even without any, is one narrowing of a reader whose newest event is that of its
reads backwards. -/
theorem EventReader.narrowed_eq (hlast : r.pulling r.pull = r) (stack : List (Narrowing P)) :
    r.narrowed stack = r.filtering (Narrowing.allKeep stack) := by
  cases stack with
  | nil => exact hlast.symm.trans r.filtering_true.symm
  | cons narrowing rest => exact r.narrowed_cons narrowing rest

/-- The order of a stack shows nowhere. -/
theorem EventReader.narrowed_perm {stack other : List (Narrowing P)} (h : stack.Perm other) :
    r.narrowed stack = r.narrowed other := by
  have hall : Narrowing.allKeep stack = Narrowing.allKeep other := funext fun e => h.all_eq
  cases stack with
  | nil => rw [h.nil_eq]
  | cons narrowing rest =>
    cases other with
    | nil => exact absurd h.symm.nil_eq (List.cons_ne_nil _ _).symm
    | cons first more => rw [narrowed_cons, narrowed_cons, hall]

end Stacks

section Answers

variable {r : Reads W P} {keep : Placed P → Bool} {w later : W} {c next : r.Cursor} {found : Found P}
  {answers : List (Option (Item P))}

/-- Whether a narrowed read gives an answer of the other: events are given if they are kept, failures and ends in
any case. -/
def passes (keep : Placed P → Bool) : Option (Item P) → Bool
  | some (.ok e) => keep e
  | _ => true

/-- What is found is given, or skipped. -/
theorem Found.keeping_eq (found : Found P) (keep : Placed P → Bool) :
    found.keeping keep = if passes keep found.item? then found else .skipped := by
  cases found <;> rfl

namespace Reads

/-- A pull finds what one of the other finds, if it is given. -/
theorem pull_keeping_of (h : r.pull w c = (later, next, found)) (keep : Placed P → Bool) :
    (r.keeping keep).pull w c = (later, next, if passes keep found.item? then found else .skipped) := by
  rw [pull_keeping, h, ← Found.keeping_eq]

/-- A pull is one of the other, and finds what that finds, if it is given. -/
theorem of_pull_keeping {c next : (r.keeping keep).Cursor}
    (h : (r.keeping keep).pull w c = (later, next, found)) :
    ∃ what, r.pull w c = (later, next, what) ∧ found = if passes keep what.item? then what else .skipped := by
  refine ⟨(r.pull w c).2.2, ?_, ?_⟩
  · exact congrArg (fun result => (result.1, result.2.1, (r.pull w c).2.2)) h
  · rw [← Found.keeping_eq]
    exact (congrArg (·.2.2) h).symm

/-- What the other read finds is found if it is given. -/
theorem Finds.keeping (h : r.Finds w c later next found) (hpasses : passes keep found.item? = true) :
    (r.keeping keep).Finds w c later next found := by
  induction h with
  | here hpull hne =>
    have hfound := pull_keeping_of hpull keep
    rw [if_pos hpasses] at hfound
    exact .here hfound hne
  | skip hpull _ ih => exact .skip (pull_keeping_of hpull keep) (ih hpasses)

/-- What the other read finds is passed over if it is not given. -/
theorem Finds.skips_keeping (h : r.Finds w c later next found) (hpasses : ¬ passes keep found.item? = true) :
    (r.keeping keep).Skips w c later next := by
  induction h with
  | here hpull _ =>
    have hskip := pull_keeping_of hpull keep
    rw [if_neg hpasses] at hskip
    exact .step .refl hskip
  | skip hpull _ ih => exact (Skips.step .refl (pull_keeping_of hpull keep)).trans (ih hpasses)

/-- What a narrowed read finds is the first that is given of what the other answers. -/
theorem Finds.of_keeping {c next : (r.keeping keep).Cursor} (h : (r.keeping keep).Finds w c later next found) :
    ∃ dropped, r.Answers w c (dropped ++ [found.item?]) later next ∧
      (∀ answer ∈ dropped, ¬ passes keep answer = true) ∧ passes keep found.item? = true := by
  induction h with
  | here hpull hne =>
    obtain ⟨what, hinner, rfl⟩ := of_pull_keeping hpull
    by_cases hpasses : passes keep what.item? = true
    · rw [if_pos hpasses] at hne ⊢
      exact ⟨[], Answers.cons (.here hinner hne) (Answers.nil (r := r) _ _), List.forall_mem_nil _, hpasses⟩
    · exact absurd (if_neg hpasses) hne
  | skip hpull _ ih =>
    obtain ⟨dropped, hanswers, hdropped, hlast⟩ := ih
    obtain ⟨what, hinner, hskip⟩ := of_pull_keeping hpull
    by_cases hpasses : passes keep what.item? = true
    · -- only a skip of the other read passes as one
      rw [if_pos hpasses] at hskip
      rw [← hskip] at hinner
      exact ⟨dropped, .after (.step .refl hinner) hanswers (List.concat_ne_nil _ _), hdropped, hlast⟩
    · have hne : what ≠ .skipped := by
        rintro rfl
        exact hpasses rfl
      refine ⟨what.item? :: dropped, .cons (.here hinner hne) hanswers, ?_, hlast⟩
      exact List.forall_mem_cons.2 ⟨hpasses, hdropped⟩

/-- What the other read answers is answered, without the events that are not kept, if the last of it is. -/
theorem Answers.keeping (h : r.Answers w c answers later next)
    (hlast : answers.getLast?.all (passes keep) = true) :
    (r.keeping keep).Answers w c (answers.filter (passes keep)) later next := by
  induction h with
  | nil w c => exact Answers.nil (r := r.keeping keep) w c
  | @cons w later last c next cursor found answers hfinds _ ih =>
    have hrest : answers.getLast?.all (passes keep) = true := by
      cases answers with
      | nil => rfl
      | cons answer answers => rwa [List.getLast?_cons_cons] at hlast
    by_cases hpasses : passes keep found.item? = true
    · rw [List.filter_cons_of_pos hpasses]
      exact .cons (hfinds.keeping hpasses) (ih hrest)
    · -- the last answer is given, so it is still to come
      rw [List.filter_cons_of_neg hpasses]
      refine .after (hfinds.skips_keeping hpasses) (ih hrest) ?_
      cases hend : answers.getLast? with
      | none =>
        rw [List.getLast?_eq_none_iff.1 hend] at hlast
        exact absurd hlast hpasses
      | some answer =>
        rw [hend] at hrest
        exact List.ne_nil_of_mem (List.mem_filter.2 ⟨List.mem_of_getLast? hend, hrest⟩)

/-- A narrowed read asks the other no further than for its own last answer. -/
theorem Answers.of_keeping {c next : (r.keeping keep).Cursor}
    (h : (r.keeping keep).Answers w c answers later next) :
    ∃ all, r.Answers w c all later next ∧ answers = all.filter (passes keep) ∧
      all.getLast?.all (passes keep) = true := by
  induction h with
  | nil w c => exact ⟨[], Answers.nil (r := r) w c, rfl, rfl⟩
  | cons hfinds _ ih =>
    obtain ⟨all, hall, rfl, hlast⟩ := ih
    obtain ⟨dropped, hfirst, hdropped, hpasses⟩ := hfinds.of_keeping
    refine ⟨_, hfirst.append hall, ?_, ?_⟩
    · rw [List.filter_append, List.filter_append, List.filter_eq_nil_iff.2 hdropped,
        List.filter_cons_of_pos hpasses]
      rfl
    · rw [List.getLast?_append]
      cases hend : all.getLast? with
      | none => rwa [List.getLast?_concat]
      | some answer => rwa [hend] at hlast

/-- A narrowed read that is prompt, asked some number of times, answers as another prompt read does, asked often
enough, without the events that are not kept. -/
theorem Prompt.ask_keeping {held : r.Cursor → Prop} {kept : (r.keeping keep).Cursor → Prop} (h : r.Prompt held)
    (hkept : (r.keeping keep).Prompt kept) (hc : held c) (hk : kept c) (count : Nat) (w : W) :
    ∃ more, ((r.keeping keep).ask count w c).2.2 = (r.ask more w c).2.2.filter (passes keep) := by
  obtain ⟨all, hall, hanswers, -⟩ := (hkept.answers_ask hk count w).1.of_keeping
  obtain ⟨hasked, hlength⟩ := h.answers_ask hc all.length w
  have hsame := (hall.unique hasked hlength.symm).1
  exact ⟨all.length, hanswers.trans (congrArg (List.filter (passes keep)) hsame)⟩

end Reads

end Answers

namespace Reads.HandsOut

variable {r : Reads W P} {left : W → r.Cursor → List (Placed P)}

/-- A narrowed read ends where the other does. -/
theorem keeping_finished (h : r.HandsOut left) (keep : Placed P → Bool) {w : W} {c : r.Cursor}
    (hlist : left w c = []) :
    ∃ next : r.Cursor, (r.keeping keep).pull w c = (w, next, .finished) ∧ left w next = [] := by
  obtain ⟨next, hpull, hleft⟩ := h.pull w c
  rw [hlist] at hpull hleft
  refine ⟨next, ?_, hleft⟩
  rw [pull_keeping, hpull]
  rfl

/-- A narrowed read passes over an event that is not kept. -/
theorem keeping_event (h : r.HandsOut left) (keep : Placed P → Bool) {w : W} {c : r.Cursor} {e : Placed P}
    {rest : List (Placed P)} (hlist : left w c = e :: rest) :
    ∃ next : r.Cursor,
      (r.keeping keep).pull w c = (w, next, if keep e then .event e else .skipped) ∧ left w next = rest := by
  obtain ⟨next, hpull, hleft⟩ := h.pull w c
  rw [hlist] at hpull hleft
  refine ⟨next, ?_, hleft⟩
  rw [pull_keeping, hpull]
  rfl

/-- A narrowed read has yet to yield the events of the list that are kept. -/
theorem forecast_keeping (h : r.HandsOut left) (keep : Placed P → Bool) (w : W) :
    (r.keeping keep).Forecast (fun world _ => world = w) (fun _ _ => True)
      (fun w c => ((left w c).filter keep).map .ok) fun w c => (left w c).length := by
  refine ⟨fun _ => h.length_le _ _, ?_, ?_, ?_⟩
  · rintro w (c : r.Cursor) later next found rfl hpull
    obtain ⟨cursor, hout, -⟩ := h.pull w c
    obtain ⟨what, hinner, -⟩ := of_pull_keeping hpull
    exact congrArg (·.1) (hinner.symm.trans hout)
  · rintro w (c : r.Cursor) later next rfl hpull
    show ((left w c).filter keep).map Except.ok = _ ∧ _ < (left w c).length
    cases hlist : left w c with
    | nil =>
      obtain ⟨cursor, hend, -⟩ := h.keeping_finished keep hlist
      nomatch hend.symm.trans hpull
    | cons e rest =>
      obtain ⟨cursor, hevent, rfl⟩ := h.keeping_event keep hlist
      by_cases hkeep : keep e = true
      · rw [if_pos hkeep] at hevent
        nomatch hevent.symm.trans hpull
      · rw [if_neg hkeep] at hevent
        cases hevent.symm.trans hpull
        rw [List.filter_cons_of_neg hkeep]
        exact ⟨rfl, Nat.lt_succ_self _⟩
  · rintro w (c : r.Cursor) later next found rfl hpull hne
    cases hlist : left w c with
    | nil =>
      obtain ⟨cursor, hend, hrest⟩ := h.keeping_finished keep hlist
      cases hend.symm.trans hpull
      have hnone : ∀ {c : r.Cursor}, left w c = [] →
          ((left w c).filter keep).map (Except.ok : Placed P → Item P) = [] := by
        intro c hc
        rw [hc]
        rfl
      exact ⟨hnone hlist, hnone hrest, trivial⟩
    | cons e rest =>
      obtain ⟨cursor, hevent, rfl⟩ := h.keeping_event keep hlist
      by_cases hkeep : keep e = true
      · rw [if_pos hkeep] at hevent
        cases hevent.symm.trans hpull
        show ((left w c).filter keep).map Except.ok = _
        rw [hlist, List.filter_cons_of_pos hkeep]
        rfl
      · rw [if_neg hkeep] at hevent
        cases hevent.symm.trans hpull
        exact absurd rfl hne

end Reads.HandsOut

end Chronicle
