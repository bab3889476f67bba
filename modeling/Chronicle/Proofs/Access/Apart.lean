import Chronicle.Proofs.Access.Finding
import Chronicle.Proofs.Access.Pulls
import Chronicle.Rehearsal.FaultyReader
import Chronicle.Store.Basic

/-!
# Sources that stand apart from files

Somebody who reads a source may change files between two results. What the source yields then is told by a
relation, since the files may be any. A source that stands apart from the files yields what it yields when it
is read alone. Stores do, and what fails on purpose does so as much as what it is made of.
-/

namespace Chronicle

variable {W P : Type}

section Yielding

/-- The results of an open read up to its first end, at most some number of them, while other files are put
in the world after each. -/
inductive Reads.Yields (files : Place W FileSystem) (r : Reads W P) :
    Nat → W → r.Cursor → List (Item P) → Prop where
  /-- No more results are asked for. -/
  | limit (w : W) (c : r.Cursor) : Yields files r 0 w c []
  /-- It has ended. -/
  | ended {limit : Nat} {w later : W} {c next : r.Cursor} (h : r.next w c = (later, next, none)) :
    Yields files r (limit + 1) w c []
  /-- It yields a result, and the files change. -/
  | item {limit : Nat} {w later : W} {c next : r.Cursor} {item : Item P} {items : List (Item P)}
    (h : r.next w c = (later, next, some item)) (fs : FileSystem)
    (rest : Yields files r limit (files.set later fs) next items) :
    Yields files r (limit + 1) w c (item :: items)

/-- The pulls of a source neither look at the files nor change them. -/
def EventReader.Apart (files : Place W FileSystem) (r : EventReader W P) : Prop :=
  ∀ w fs c, r.Held c → r.pull (files.set w fs) c = (files.set (r.pull w c).1 fs, (r.pull w c).2)

/-- Neither the pulls of a source nor giving up its reads change the files. -/
structure EventReader.Leaves (files : Place W FileSystem) (r : EventReader W P) : Prop where
  /-- A pull leaves them. -/
  pull : ∀ w c, r.Held c → files.get (r.pull w c).1 = files.get w
  /-- Giving up a read leaves them. -/
  close : ∀ w c, r.Held c → files.get (r.close w c) = files.get w

variable {files : Place W FileSystem} {r : EventReader W P} {w later : W} {c next : r.Cursor}
  {found : Found P}

/-- A source that stands apart from the files finds the same whatever they are. -/
theorem EventReader.Apart.finds (h : r.Apart files) (hc : r.Held c) (hf : r.Finds w c later next found)
    (fs : FileSystem) : r.Finds (files.set w fs) c (files.set later fs) next found := by
  have hpulled : ∀ {w later c next found}, r.Held c → r.pull w c = (later, next, found) →
      r.pull (files.set w fs) c = (files.set later fs, next, found) ∧ r.Held next := by
    intro w later c next found hc hpull
    have hsame := h w fs c hc
    have hnext := hc.pulled (w := w)
    rw [hpull] at hsame hnext
    exact ⟨hsame, hnext⟩
  induction hf with
  | here hpull hne => exact .here (hpulled hc hpull).1 hne
  | skip hpull _ ih => exact .skip (hpulled hc hpull).1 (ih (hpulled hc hpull).2)

/-- A source that stands apart from the files yields what it yields when it is read alone. -/
theorem EventReader.Apart.take_eq (h : r.Apart files) (hplace : files.Lawful) (hprompt : r.Prompt)
    {limit : Nat} (hc : r.Held c) {fs : FileSystem} {items : List (Item P)}
    (hy : r.Yields files limit (files.set w fs) c items) : items = (r.take limit w c).2.2 := by
  induction limit generalizing w c fs items with
  | zero =>
    cases hy
    rfl
  | succ limit ih =>
    obtain ⟨later, next, found, hf⟩ := hprompt.exists_finds hc w
    have hnext := hprompt.next_eq hc (h.finds hc hf fs)
    have halone : r.next w c = (later, next, found.item?) := hprompt.next_eq hc hf
    cases hy with
    | ended hend =>
      rw [hend] at hnext
      have hnone : found.item? = none := (congrArg (·.2.2) hnext).symm
      rw [hnone] at halone
      exact (Reads.take_of_end halone (limit + 1)).symm
    | @item _ _ world _ cursor item items hitem fs' rest =>
      rw [hitem] at hnext
      obtain ⟨rfl, rfl, hsome⟩ : world = files.set later fs ∧ cursor = next ∧ some item = found.item? :=
        ⟨congrArg (·.1) hnext, congrArg (·.2.1) hnext, congrArg (·.2.2) hnext⟩
      rw [← hsome] at halone
      rw [hplace.set_set] at rest
      rw [Reads.take_of_next halone, ih (hprompt.kept hc hf) rest]

/-- However often a read of a source is asked before it is given up, the files are left as they are. -/
theorem EventReader.Leaves.ask (h : r.Leaves files) (hprompt : r.Prompt) (hc : r.Held c) (count : Nat) :
    files.get (r.close (r.ask count w c).1 (r.ask count w c).2.1) = files.get w := by
  have hkept : files.get (r.ask count w c).1 = files.get w ∧ r.Held (r.ask count w c).2.1 := by
    refine hprompt.ask_keeps (fun world _ _ => files.get world = files.get w) ?_ [] hc rfl count
    intro world c later next found _ hc hsame hpull
    have hpulled := h.pull world c hc
    rw [hpull] at hpulled
    exact hpulled.trans hsame
  rw [h.close _ _ hkept.2, hkept.1]

end Yielding

namespace Log

/-- The next event of a log is found at once. -/
theorem pull_ne_skipped (log : Log) (c : Cursor) : (log.pull c).2 ≠ .skipped := by
  have hfound : ∀ event : Option (Placed Nat), foundOf event ≠ .skipped := by
    intro event
    cases event <;> exact nofun
  cases c with
  | forwards passed selection => exact hfound _
  | backwards remaining selection => exact hfound _

end Log

namespace FaultPlan

variable {files : Place W FileSystem} {r : EventReader W P}

/-- A pull is a failure, or that of the source. -/
theorem pull_eq (plan : FaultPlan) (r : EventReader W P) (w : W) (call : Nat) (below : r.Cursor) :
    (plan.eventReader r).pull w (call, below) =
      match plan.items.lookup call with
      | some e => (w, (call + 1, below), .failure e)
      | none => ((r.pull w below).1,
          (if (r.pull w below).2.2 matches .skipped then call else call + 1, (r.pull w below).2.1),
          (r.pull w below).2.2) := by
  change (plan.reads r.toReads).pull w (call, below) = _
  unfold FaultPlan.reads
  dsimp only
  cases plan.items.lookup call with
  | some e => rfl
  | none =>
    rcases r.pull w below with ⟨later, next, found⟩
    cases found <;> rfl

/-- A source that never skips does not skip when it fails on purpose. -/
theorem pull_ne_skipped (plan : FaultPlan) (h : ∀ w c, (r.pull w c).2.2 ≠ .skipped) (w : W)
    (c : (plan.eventReader r).Cursor) : ((plan.eventReader r).pull w c).2.2 ≠ .skipped := by
  obtain ⟨call, below⟩ := c
  rw [plan.pull_eq r w call below]
  cases plan.items.lookup call with
  | some e => exact nofun
  | none => exact h w below

/-- A read that fails on purpose holds a read that was opened, and pulled since. -/
theorem held (plan : FaultPlan) {c : (plan.eventReader r).Cursor} (h : (plan.eventReader r).Held c) :
    r.Held c.2 := by
  induction h with
  | @opened w position c hopened =>
    change plan.opens (r.forwardsFrom w position) = .ok c at hopened
    unfold opens at hopened
    cases hplan : plan.opening with
    | some e =>
      rw [hplan] at hopened
      nomatch hopened
    | none =>
      rw [hplan] at hopened
      cases hbelow : r.forwardsFrom w position with
      | error e =>
        rw [hbelow] at hopened
        nomatch hopened
      | ok below =>
        rw [hbelow] at hopened
        cases hopened
        exact .opened hbelow
  | @pulled w c _ ih =>
    obtain ⟨call, below⟩ := c
    rw [plan.pull_eq r w call below]
    cases plan.items.lookup call with
    | some e => exact ih
    | none => exact ih.pulled

/-- A source stands as much apart from files when it fails on purpose. -/
theorem apart (plan : FaultPlan) (h : r.Apart files) : (plan.eventReader r).Apart files := by
  intro w fs ⟨call, below⟩ hc
  rw [plan.pull_eq r _ call below, plan.pull_eq r w call below, h w fs below (plan.held hc)]
  cases plan.items.lookup call <;> rfl

end FaultPlan

end Chronicle
