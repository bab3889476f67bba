import Chronicle.Access.Shared
import Chronicle.Cache.Reader
import Chronicle.Narrow.Category
import Chronicle.Narrow.Filter
import Chronicle.Rehearsal.FaultyReader
import Chronicle.Stitch.Source
import Chronicle.Store.Basic
import Mathlib.Logic.Function.Iterate

/-!
# Lending readers and writers

Whoever was lent a reader or a writer may lend it on, by reference or by a counted pointer, to any depth. A
writer passes on everything. A reader passes on what its source has to provide and its reads backwards, and
derives two things anew: a read from the start begins at the empty position, and the newest event is the first of
the read backwards. A source that has ways of its own for these is not asked for them.

So lending changes those two operations at most, it changes them once and for all, and it changes nothing exactly
when the source keeps their defaults. What the library builds on a reader keeps them, and asks the reader for
nothing but what is passed on: within an assembly of readers it does not show which of them are lent.
-/

namespace Chronicle

variable {W P : Type}

section Defaults

/-- A reader of a whole source that keeps the defaults. -/
structure EventReader.KeepsDefaults (r : EventReader W P) : Prop where
  /-- A read from the start begins at the empty position. -/
  forwards : ∀ w, r.forwards w = r.forwardsFrom w r.emptyPosition
  /-- The newest event is the first of the read backwards. -/
  lastEvent : ∀ w, r.lastEvent w = r.first w (r.backwards w)

/-- A reader of categories that keeps the defaults. -/
structure CategoryReader.KeepsDefaults (r : CategoryReader W P) : Prop where
  /-- A read from the start begins at the empty position of the category. -/
  forwards : ∀ w category, r.forwards w category = r.forwardsFrom w category (r.emptyPosition category)
  /-- The newest event is the first of the read backwards. -/
  lastEvent : ∀ w category, r.lastEvent w category = r.first w (r.backwards w category)

/-- A reader of streams that keeps the defaults. -/
structure StreamReader.KeepsDefaults (r : StreamReader W P) : Prop where
  /-- A read from the start begins below the first number. -/
  forwards : ∀ w stream, r.forwards w stream = r.forwardsFrom w stream noVersion
  /-- The newest event is the first of the read backwards. -/
  lastEvent : ∀ w stream, r.lastEvent w stream = r.first w (r.backwards w stream)

/-- A reader that is lent on passes on what it was lent with. -/
theorem EventReader.shared_shared (r : EventReader W P) : r.shared.shared = r.shared := rfl

/-- A reader of categories that is lent on passes on what it was lent with. -/
theorem CategoryReader.shared_shared (r : CategoryReader W P) : r.shared.shared = r.shared := rfl

/-- A reader of streams that is lent on passes on what it was lent with. -/
theorem StreamReader.shared_shared (r : StreamReader W P) : r.shared.shared = r.shared := rfl

/-- A reader is the same when it is lent exactly if it keeps the defaults. -/
theorem EventReader.shared_eq_self_iff (r : EventReader W P) : r.shared = r ↔ r.KeepsDefaults := by
  constructor
  · intro h
    rw [← h]
    exact ⟨fun _ => rfl, fun _ => rfl⟩
  · intro h
    have hforwards : (fun w => r.forwardsFrom w r.emptyPosition) = r.forwards :=
      (funext h.forwards).symm
    have hlast : (fun w => r.first w (r.backwards w)) = r.lastEvent := (funext h.lastEvent).symm
    calc r.shared
      _ = { r with
            forwards := fun w => r.forwardsFrom w r.emptyPosition
            lastEvent := fun w => r.first w (r.backwards w) } := rfl
      _ = r := by rw [hforwards, hlast]

/-- A reader of categories is the same when it is lent exactly if it keeps the defaults. -/
theorem CategoryReader.shared_eq_self_iff (r : CategoryReader W P) : r.shared = r ↔ r.KeepsDefaults := by
  constructor
  · intro h
    rw [← h]
    exact ⟨fun _ _ => rfl, fun _ _ => rfl⟩
  · intro h
    have hforwards : (fun w category => r.forwardsFrom w category (r.emptyPosition category)) = r.forwards :=
      (funext₂ h.forwards).symm
    have hlast : (fun w category => r.first w (r.backwards w category)) = r.lastEvent :=
      (funext₂ h.lastEvent).symm
    calc r.shared
      _ = { r with
            forwards := fun w category => r.forwardsFrom w category (r.emptyPosition category)
            lastEvent := fun w category => r.first w (r.backwards w category) } := rfl
      _ = r := by rw [hforwards, hlast]

/-- A reader of streams is the same when it is lent exactly if it keeps the defaults. -/
theorem StreamReader.shared_eq_self_iff (r : StreamReader W P) : r.shared = r ↔ r.KeepsDefaults := by
  constructor
  · intro h
    rw [← h]
    exact ⟨fun _ _ => rfl, fun _ _ => rfl⟩
  · intro h
    have hforwards : (fun w stream => r.forwardsFrom w stream noVersion) = r.forwards :=
      (funext₂ h.forwards).symm
    have hlast : (fun w stream => r.first w (r.backwards w stream)) = r.lastEvent :=
      (funext₂ h.lastEvent).symm
    calc r.shared
      _ = { r with
            forwards := fun w stream => r.forwardsFrom w stream noVersion
            lastEvent := fun w stream => r.first w (r.backwards w stream) } := rfl
      _ = r := by rw [hforwards, hlast]

end Defaults

section Assemblies

/-- How a reader of a whole source is put together. Any part may be lent. -/
inductive Assembly (W : Type) : Type → Type 1 where
  /-- A source that keeps the defaults. -/
  | source {P : Type} (r : EventReader W P) (keeps : r.KeepsDefaults) : Assembly W P
  /-- A store. -/
  | store (place : Place W Store) : Assembly W Nat
  /-- The source without events. -/
  | empty : Assembly W Unit
  /-- A category of a source. -/
  | category {P : Type} (r : CategoryReader W P) (name : String) : Assembly W P
  /-- A part that is lent. -/
  | shared {P : Type} (part : Assembly W P) : Assembly W P
  /-- A part narrowed by a test. -/
  | filtering {P : Type} (part : Assembly W P) (keep : Placed P → Bool) : Assembly W P
  /-- Two parts stitched at a cutoff. -/
  | stitched {B L : Type} [DecidableEq L] (backfill : Assembly W B) (live : Assembly W L) (cutoff : L) :
    Assembly W (StitchedPosition B L)
  /-- A part read through a cache. -/
  | cached {P : Type} [DecidableEq P] (files : Place W FileSystem) (options : Cache.Options)
    (part : Assembly W P) : Assembly W P
  /-- A part that fails on purpose. -/
  | faulty {P : Type} (plan : FaultPlan) (part : Assembly W P) : Assembly W P

namespace Assembly

/-- The reader that is put together. -/
def reader : {P : Type} → Assembly W P → EventReader W P
  | _, source r _ => r
  | _, store place => Store.eventReader place
  | _, empty => EmptySource.eventReader
  | _, category r name => r.asSource name
  | _, shared part => part.reader.shared
  | _, filtering part keep => part.reader.filtering keep
  | _, stitched backfill live cutoff => backfill.reader.stitched live.reader cutoff
  | _, cached files options part => Cache.eventReader files options part.reader
  | _, faulty plan part => plan.eventReader part.reader

/-- The same assembly with nothing lent. -/
def bare : {P : Type} → Assembly W P → Assembly W P
  | _, shared part => part.bare
  | _, filtering part keep => filtering part.bare keep
  | _, stitched backfill live cutoff => stitched backfill.bare live.bare cutoff
  | _, cached files options part => cached files options part.bare
  | _, faulty plan part => faulty plan part.bare
  | _, assembly => assembly

/-- However a reader is put together, it keeps the defaults. -/
theorem reader_keepsDefaults (assembly : Assembly W P) : assembly.reader.KeepsDefaults := by
  cases assembly with
  | source r keeps => exact keeps
  | _ => exact ⟨fun _ => rfl, fun _ => rfl⟩

/-- A reader does not show which of its parts are lent. -/
theorem reader_bare (assembly : Assembly W P) : assembly.bare.reader = assembly.reader := by
  induction assembly with
  | shared part ih => exact ih.trans ((EventReader.shared_eq_self_iff _).2 part.reader_keepsDefaults).symm
  | filtering part keep ih => exact congrArg (EventReader.filtering · keep) ih
  | stitched backfill live cutoff ihb ihl =>
    exact congrArg₂ (fun old new => EventReader.stitched old new cutoff) ihb ihl
  | cached files options part ih =>
    show Cache.eventReader files options part.bare.reader = Cache.eventReader files options part.reader
    rw [ih]
  | faulty plan part ih => exact congrArg plan.eventReader ih
  | _ => rfl

end Assembly

end Assemblies

section Lending

/-- A step that changes nothing a second time changes nothing after the first. -/
theorem iterate_succ_of_idempotent {α : Type*} {step : α → α} (h : ∀ a, step (step a) = step a) (a : α)
    (count : Nat) : step^[count + 1] a = step a := by
  rw [Function.iterate_succ_apply]
  exact Function.iterate_fixed (h a) count

/-- What is lent to any depth passes on all its operations but two: a reader derives a read from the start and
the newest event by the defaults, whatever its source does for them. So a reader is the same at every depth
exactly if it keeps the defaults, and a writer always is. Within an assembly it does not show which parts are
lent. -/
theorem lending_derives_defaults (W P : Type) (depth : Nat) :
    (∀ r : EventReader W P,
      EventReader.shared^[depth + 1] r =
        { r with
          forwards := fun w => r.forwardsFrom w r.emptyPosition
          lastEvent := fun w => r.first w (r.backwards w) } ∧
      (EventReader.shared^[depth + 1] r = r ↔ r.KeepsDefaults)) ∧
    (∀ r : CategoryReader W P,
      CategoryReader.shared^[depth + 1] r =
        { r with
          forwards := fun w category => r.forwardsFrom w category (r.emptyPosition category)
          lastEvent := fun w category => r.first w (r.backwards w category) } ∧
      (CategoryReader.shared^[depth + 1] r = r ↔ r.KeepsDefaults)) ∧
    (∀ r : StreamReader W P,
      StreamReader.shared^[depth + 1] r =
        { r with
          forwards := fun w stream => r.forwardsFrom w stream noVersion
          lastEvent := fun w stream => r.first w (r.backwards w stream) } ∧
      (StreamReader.shared^[depth + 1] r = r ↔ r.KeepsDefaults)) ∧
    (∀ writer : EventWriter W, EventWriter.shared^[depth + 1] writer = writer) ∧
    ∀ assembly : Assembly W P, assembly.bare.reader = assembly.reader := by
  refine ⟨fun r => ?_, fun r => ?_, fun r => ?_, fun writer => ?_, fun assembly => assembly.reader_bare⟩
  · rw [iterate_succ_of_idempotent EventReader.shared_shared]
    exact ⟨rfl, r.shared_eq_self_iff⟩
  · rw [iterate_succ_of_idempotent CategoryReader.shared_shared]
    exact ⟨rfl, r.shared_eq_self_iff⟩
  · rw [iterate_succ_of_idempotent StreamReader.shared_shared]
    exact ⟨rfl, r.shared_eq_self_iff⟩
  · exact Function.iterate_fixed rfl (depth + 1)

/-- A store that is read forwards alone and has its newest event at hand. -/
def Store.forwardReader (place : Place W Store) : EventReader W Nat where
  toReads := Store.reads place
  codec := .log
  emptyPosition := 0
  forwardsFrom _ position := .ok (Log.readAfter position .all)
  lastEvent w := (w, .ok (place.get w).log.events.getLast?)

/-- A reader that has its newest event at hand answers with it; when it is lent, it is asked for a read
backwards, and refuses. -/
theorem newest_at_hand_refused_when_lent :
    let orders : StreamId := ⟨"orders", "1", by decide⟩
    let store := (Store.withClock fun _ => .epoch).append orders [⟨"Placed", [1], []⟩]
    let reader := Store.forwardReader (Place.whole Store)
    (reader.lastEvent store).2 = .ok (some ⟨1, ⟨.epoch, orders, 0, "Placed", [1], []⟩⟩) ∧
      (reader.shared.lastEvent store).2 = .error backwardsUnsupported ∧
        (reader.shared.shared.lastEvent store).2 = .error backwardsUnsupported := by
  intro orders store reader
  exact ⟨rfl, rfl, rfl⟩

end Lending

end Chronicle
