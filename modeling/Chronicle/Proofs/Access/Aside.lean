import Chronicle.Access.Reader
import Chronicle.Proofs.Files.Sparing

/-!
# Readers that overlook files

A reader stands aside of somebody's files if everything that can be done with it overlooks them: opening a
read, pulling it and giving it up. Others may change the world between two steps of a read, so this is asked
of every read that was opened in some world and pulled in others. Whatever is made of pulls then overlooks the
files, too: the next result, and the results up to an end.
-/

namespace Chronicle

variable {W P : Type}

/-- A read that was opened in some world, and pulled in some worlds since. -/
inductive EventReader.Held (r : EventReader W P) : r.Cursor → Prop where
  /-- It was opened. -/
  | opened {w : W} {position : P} {c : r.Cursor} (h : r.forwardsFrom w position = .ok c) : r.Held c
  /-- It was pulled. -/
  | pulled {w : W} {c : r.Cursor} (h : r.Held c) : r.Held (r.pull w c).2.1

/-- Whatever is done with a reader overlooks owned files. -/
structure EventReader.Aside (share : Share W) (r : EventReader W P) : Prop where
  /-- Reads are opened as they are without the owned files. -/
  opens : ∀ w position, share.Ready w →
    r.forwardsFrom (share.hide w) position = r.forwardsFrom w position
  /-- What is left of a read is measured as it is without them. -/
  extent : ∀ w c, r.Held c → share.Ready w → r.extent (share.hide w) c = r.extent w c
  /-- A pull overlooks them. -/
  pull : ∀ c, r.Held c → share.Overlooks fun w => r.pull w c
  /-- Giving a read up overlooks them. -/
  close : ∀ c, r.Held c → share.Overlooks fun w => (r.close w c, ())

section Proceeding

variable {C A : Type}

/-- Goes on with a read after a skip, and reports anything else. -/
def Reads.proceed (again : C → W → W × C × A) (report : Found P → A) : W × C × Found P → W × C × A
  | (w, c, .skipped) => again c w
  | (w, c, found) => (w, c, report found)

/-- Puts a result before those that are yet to come, unless a read has ended. -/
def Reads.collect (rest : C → W → W × C × List A) : W × C × Option A → W × C × List A
  | (w, c, none) => (w, c, [])
  | (w, c, some item) =>
    let (w, c, items) := rest c w
    (w, c, item :: items)

variable (r : Reads W P)

/-- Seeking with one more step. -/
theorem Reads.seek_succ (steps : Nat) (w : W) (c : r.Cursor) :
    r.seek (steps + 1) w c = proceed (fun c w => r.seek steps w c) id (r.pull w c) := by
  rw [seek]
  rcases r.pull w c with ⟨w, c, found⟩
  cases found <;> rfl

/-- Searching with one more round. -/
theorem Reads.search_succ (rounds : Nat) (w : W) (c : r.Cursor) : r.search (rounds + 1) w c =
    proceed (fun c w => r.search rounds w c) id (r.seek (r.extent w c + 1) w c) := by
  rw [search]
  rcases r.seek (r.extent w c + 1) w c with ⟨w, c, found⟩
  cases found <;> rfl

/-- The next result is sought, and then searched for. -/
theorem Reads.next_eq (w : W) (c : r.Cursor) : r.next w c =
    proceed
      (fun c w =>
        let (w, c, found) := r.search (r.growths + 1) w c
        (w, c, found.item?))
      Found.item? (r.seek glance w c) := by
  rw [next]
  rcases r.seek glance w c with ⟨w, c, found⟩
  cases found <;> rfl

/-- Results are taken one after the other. -/
theorem Reads.take_succ (limit : Nat) (w : W) (c : r.Cursor) :
    r.take (limit + 1) w c = collect (fun c w => r.take limit w c) (r.next w c) := by
  rw [take]
  rcases r.next w c with ⟨w, c, item⟩
  cases item <;> rfl

end Proceeding

namespace EventReader.Aside

variable {share : Share W} {r : EventReader W P}

/-- A pull overlooks owned files, and leaves a read that was opened and pulled. -/
theorem pull_held (h : r.Aside share) {c : r.Cursor} (hc : r.Held c) :
    share.Overlooks (fun w => r.pull w c) fun answer => r.Held answer.1 :=
  ⟨(h.pull c hc).spared, (h.pull c hc).same, fun _ => hc.pulled⟩

/-- Going on after a skip overlooks owned files if each part does. -/
theorem proceed {A : Type} {op : W → W × r.Cursor × Found P} {again : r.Cursor → W → W × r.Cursor × A}
    {report : Found P → A} (h : share.Overlooks op fun answer => r.Held answer.1)
    (hagain : ∀ c, r.Held c → share.Overlooks (again c) fun answer => r.Held answer.1) :
    share.Overlooks (fun w => Reads.proceed again report (op w)) fun answer => r.Held answer.1 := by
  refine h.bind (fun answer w => Reads.proceed again report (w, answer)) ?_
  rintro ⟨c, found⟩ hc
  cases found with
  | skipped => exact hagain c hc
  | _ => exact .pure hc

/-- Seeking something other than a skip overlooks owned files. -/
theorem seek (h : r.Aside share) (steps : Nat) {c : r.Cursor} (hc : r.Held c) :
    share.Overlooks (fun w => r.seek steps w c) fun answer => r.Held answer.1 := by
  induction steps generalizing c with
  | zero => exact .pure hc
  | succ steps ih =>
    rw [funext fun w => r.seek_succ steps w c]
    exact proceed (h.pull_held hc) fun _ hc => ih hc

/-- Searching for something other than a skip overlooks owned files. -/
theorem search (h : r.Aside share) (rounds : Nat) {c : r.Cursor} (hc : r.Held c) :
    share.Overlooks (fun w => r.search rounds w c) fun answer => r.Held answer.1 := by
  induction rounds generalizing c with
  | zero => exact .pure hc
  | succ rounds ih =>
    rw [funext fun w => r.search_succ rounds w c]
    have hround : share.Overlooks (fun w => r.seek (r.extent w c + 1) w c) fun answer => r.Held answer.1 :=
      .look_bind (fun w hr => h.extent w c hc hr) (fun extent w => r.seek (extent + 1) w c)
        fun extent => h.seek (extent + 1) hc
    exact proceed hround fun _ hc => ih hc

/-- The next result is had in a way that overlooks owned files. -/
theorem next (h : r.Aside share) {c : r.Cursor} (hc : r.Held c) :
    share.Overlooks (fun w => r.next w c) fun answer => r.Held answer.1 := by
  rw [funext fun w => r.next_eq w c]
  exact proceed (h.seek Reads.glance hc) fun _ hc =>
    (h.search (r.growths + 1) hc).map (fun answer => (answer.1, answer.2.item?)) fun _ ha => ha

/-- The results up to an end are had in a way that overlooks owned files. -/
theorem take (h : r.Aside share) (limit : Nat) {c : r.Cursor} (hc : r.Held c) :
    share.Overlooks (fun w => r.take limit w c) fun answer => r.Held answer.1 := by
  induction limit generalizing c with
  | zero => exact .pure hc
  | succ limit ih =>
    rw [funext fun w => r.take_succ limit w c]
    refine (h.next hc).bind (fun answer w => Reads.collect (fun c w => r.take limit w c) (w, answer)) ?_
    rintro ⟨c, item⟩ hc
    cases item with
    | none => exact .pure hc
    | some item => exact (ih hc).map (fun answer => (answer.1, item :: answer.2)) fun _ ha => ha

end EventReader.Aside

end Chronicle
