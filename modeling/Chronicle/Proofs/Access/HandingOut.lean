import Chronicle.Access.Reader
import Chronicle.Proofs.Access.Pulls

/-!
# Reads that hand out lists

The simplest reads hand out a list, event by event, and leave the world as it is. What such a read returns is
the list, and its first event is the newest or the oldest of what it covers. The same is said of reads that
skip, as soon as it is known what they are still to yield.
-/

namespace Chronicle

variable {W P : Type}

namespace Reads

variable {r : Reads W P} {inv ended : W → r.Cursor → Prop} {owes : W → r.Cursor → List (Item P)}
  {skips : W → r.Cursor → Nat} {w : W} {c : r.Cursor} {events : List (Placed P)}

variable (r w) in
/-- What was opened returns some events and then ends, and the world stays as it is. -/
def Returns (opened : Except StoreError r.Cursor) (events : List (Placed P)) : Prop :=
  ∃ c, opened = .ok c ∧ ∀ limit, ∃ next, r.take limit w c = (w, next, (events.take limit).map .ok)

/-- What was opened returns one list of events. -/
theorem Returns.unique {opened : Except StoreError r.Cursor} {others : List (Placed P)}
    (h : r.Returns w opened events) (ho : r.Returns w opened others) : events = others := by
  obtain ⟨c, rfl, htake⟩ := h
  obtain ⟨d, hopen, htaken⟩ := ho
  cases hopen
  obtain ⟨next, hevents⟩ := htake (max events.length others.length)
  obtain ⟨next', hothers⟩ := htaken (max events.length others.length)
  have hsame := congrArg (·.2.2) (hevents.symm.trans hothers)
  dsimp only at hsame
  rw [List.take_of_length_le (Nat.le_max_left _ _), List.take_of_length_le (Nat.le_max_right _ _)] at hsame
  exact (List.map_inj_right fun _ _ => Except.ok.inj).1 hsame

/-- A read returns the events that are foretold. -/
theorem Forecast.returns (h : Forecast r inv ended owes skips) (hworld : ∀ {world c}, inv world c → world = w)
    (hinv : inv w c) (howes : owes w c = events.map .ok) : r.Returns w (.ok c) events := by
  refine ⟨c, rfl, fun limit => ?_⟩
  rcases htake : r.take limit w c with ⟨later, next, items⟩
  obtain ⟨hitems, hlater, -⟩ := h.of_take hinv htake
  rw [hworld hlater, hitems, howes, List.map_take]
  exact ⟨next, rfl⟩

/-- The first result of a read that is opened for it is the first event that is foretold. -/
theorem Forecast.first_eq (h : Forecast r inv ended owes skips)
    (hworld : ∀ {world c}, inv world c → world = w) (hclose : ∀ c, r.close w c = w) (hinv : inv w c)
    (howes : owes w c = events.map .ok) : r.first w (.ok c) = (w, .ok events.head?) := by
  rcases hnext : r.next w c with ⟨later, next, item⟩
  obtain ⟨hlater, htold⟩ := h.of_next hinv hnext
  obtain rfl := hworld hlater
  unfold first
  dsimp only
  rw [hnext]
  cases item with
  | none =>
    have hnil := htold.1
    rw [howes, List.map_eq_nil_iff] at hnil
    dsimp only
    rw [hclose, hnil]
    rfl
  | some item =>
    have hcons : owes later c = item :: owes later next := htold
    rw [howes] at hcons
    obtain ⟨e, rest, rfl, rfl, -⟩ := List.map_eq_cons_iff.1 hcons
    dsimp only
    rw [hclose]
    rfl

/-- The pulls of a read hand out a list, event by event, and leave the world as it is. -/
structure HandsOut (r : Reads W P) (left : W → r.Cursor → List (Placed P)) : Prop where
  /-- A pull hands out the next event, or finds the end. -/
  pull : ∀ w c, ∃ next, r.pull w c = (w, next, (left w c).head?.elim .finished .event) ∧
    left w next = (left w c).tail
  /-- The list is within the extent of the read. -/
  length_le : ∀ w c, (left w c).length ≤ r.extent w c

namespace HandsOut

variable {left : W → r.Cursor → List (Placed P)}

/-- A read that hands out a list is to yield it. -/
theorem forecast (h : r.HandsOut left) (w : W) :
    r.Forecast (fun world _ => world = w) (fun _ _ => True) (fun w c => (left w c).map .ok) fun _ _ => 0 := by
  refine ⟨fun _ => Nat.zero_le _, ?_, ?_, ?_⟩
  · rintro w c later next found rfl hpull
    obtain ⟨cursor, hout, -⟩ := h.pull w c
    exact congrArg (·.1) (hpull.symm.trans hout)
  · rintro w c later next rfl hpull
    obtain ⟨cursor, hout, -⟩ := h.pull w c
    have hskip := congrArg (·.2.2) (hpull.symm.trans hout)
    cases hlist : left w c with
    | nil =>
      rw [hlist] at hskip
      nomatch hskip
    | cons e rest =>
      rw [hlist] at hskip
      nomatch hskip
  · rintro w c later next found rfl hpull -
    obtain ⟨cursor, hout, hleft⟩ := h.pull w c
    cases hpull.symm.trans hout
    cases hlist : left w c with
    | nil =>
      rw [hlist] at hleft
      show (left w c).map Except.ok = [] ∧ (left w next).map Except.ok = [] ∧ True
      rw [hlist, hleft]
      exact ⟨rfl, rfl, trivial⟩
    | cons e rest =>
      rw [hlist] at hleft
      show (left w c).map Except.ok = Except.ok e :: (left w next).map Except.ok
      rw [hlist, hleft]
      rfl

/-- The results of a read that hands out a list are its events. -/
theorem take_eq (h : r.HandsOut left) (w : W) (c : r.Cursor) (limit : Nat) :
    (r.take limit w c).2.2 = ((left w c).take limit).map .ok := by
  rw [List.map_take]
  exact ((h.forecast w).of_take rfl rfl).1

end HandsOut

end Reads

end Chronicle
