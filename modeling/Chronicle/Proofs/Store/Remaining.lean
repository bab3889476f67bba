import Chronicle.Proofs.Access.HandingOut
import Chronicle.Proofs.Store.Following

/-!
# What is left of a read of a log

If nothing is written, what an open read of a log has yet to yield is a list: forwards the selected events
behind those it has passed, and backwards those ahead of it, the newest first. The reads of a store hand it out.
-/

namespace Chronicle

namespace Log

/-- What an open read of a log has yet to yield if nothing is written, in its own order. -/
def left (log : Log) : Cursor → List (Placed Nat)
  | .forwards passed selection => selected selection (log.events.drop passed)
  | .backwards remaining selection => (selected selection (log.events.take remaining)).reverse

variable {log : Log} {selection : Selection}

/-- A search backwards from above the log starts at its end. -/
theorem lastSelected_of_le {events : List (Placed Nat)} {remaining : Nat} (h : events.length ≤ remaining) :
    lastSelected selection events remaining = lastSelected selection events events.length := by
  induction remaining with
  | zero => rw [Nat.le_zero.1 h]
  | succ remaining ih =>
    rcases Nat.eq_or_lt_of_le h with heq | hlt
    · rw [heq]
    · rw [lastSelected, List.getElem?_eq_none (Nat.le_of_lt_succ hlt)]
      exact ih (Nat.le_of_lt_succ hlt)

/-- What is behind a first event is the rest of a list. -/
theorem eq_tail_of_head {events rest : List (Placed Nat)} {found : Option (Placed Nat)}
    (hsplit : events = found.toList ++ rest) (hhead : found = events.head?) : rest = events.tail := by
  cases found with
  | some e =>
    rw [hsplit]
    rfl
  | none =>
    obtain rfl := List.head?_eq_none_iff.1 hhead.symm
    exact hsplit.symm

/-- A pull finds the first event that is left, and leaves the others. -/
theorem pull_left (log : Log) (c : Cursor) :
    ∃ next, log.pull c = (next, foundOf (log.left c).head?) ∧ log.left next = (log.left c).tail := by
  cases c with
  | forwards passed selection =>
    rcases hfirst : firstSelected selection passed (log.events.drop passed) with ⟨stop, found⟩
    obtain ⟨more, -, rfl, hpassed, hhead⟩ := firstSelected_passes hfirst
    have hsplit : selected selection _ = _ :=
      selected_append ((log.events.drop passed).take more) ((log.events.drop passed).drop more)
    rw [List.take_append_drop, hpassed, List.drop_drop] at hsplit
    exact ⟨.forwards (passed + more) selection, hhead ▸ pull_forwards hfirst, eq_tail_of_head hsplit hhead⟩
  | backwards remaining selection =>
    -- a search from above the log is one from its end
    have hbelow : lastSelected selection log.events remaining =
          lastSelected selection log.events (min remaining log.events.length) ∧
        log.events.take remaining = log.events.take (min remaining log.events.length) := by
      rcases Nat.le_total remaining log.events.length with hle | hle
      · rw [Nat.min_eq_left hle]
        exact ⟨rfl, rfl⟩
      · rw [Nat.min_eq_right hle]
        exact ⟨lastSelected_of_le hle, (List.take_of_length_le hle).trans List.take_length.symm⟩
    rcases hlast : lastSelected selection log.events (min remaining log.events.length) with ⟨lower, found⟩
    obtain ⟨hlower, hpassed, hfound⟩ := lastSelected_passes (Nat.min_le_right _ _) hlast
    have hleft : log.left (.backwards remaining selection) =
        (selected selection (log.events.take (min remaining log.events.length))).reverse :=
      congrArg (fun events => (selected selection events).reverse) hbelow.2
    rw [hleft]
    have hsplit : selected selection _ = _ := selected_append
      ((log.events.take (min remaining log.events.length)).take lower)
      ((log.events.take (min remaining log.events.length)).drop lower)
    rw [List.take_append_drop, hpassed, List.take_take, Nat.min_eq_left hlower] at hsplit
    rw [← List.head?_reverse] at hfound
    refine ⟨.backwards lower selection, hfound ▸ pull_backwards (hbelow.1.trans hlast), ?_⟩
    refine eq_tail_of_head ?_ hfound
    rw [hsplit, List.reverse_append]
    cases found <;> rfl

/-- What is left of a read is within its extent. -/
theorem length_left_le (log : Log) (c : Cursor) : (log.left c).length ≤ log.extent c := by
  cases c with
  | forwards passed selection =>
    refine Nat.le_trans (List.length_filter_le _ _) ?_
    rw [List.length_drop]
    exact Nat.le_refl _
  | backwards remaining selection =>
    unfold left
    rw [List.length_reverse]
    refine Nat.le_trans (List.length_filter_le _ _) ?_
    rw [List.length_take]
    exact Nat.min_le_left _ _

end Log

/-- The reads of a store hand out what is left of its log. -/
theorem Store.reads_handsOut {W : Type} (place : Place W Store) :
    (Store.reads place).HandsOut fun w c => (place.get w).log.left c := by
  refine ⟨fun w c => ?_, fun w c => (place.get w).log.length_left_le c⟩
  obtain ⟨next, hpull, hleft⟩ := (place.get w).log.pull_left c
  refine ⟨next, ?_, hleft⟩
  show (w, (place.get w).log.pull c) = _
  rw [hpull]
  cases ((place.get w).log.left c).head? <;> rfl

end Chronicle
