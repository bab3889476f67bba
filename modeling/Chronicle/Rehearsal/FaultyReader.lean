import Chronicle.Access.Reader

/-!
# Readers that fail on purpose

To rehearse how a consumer takes failures, a reader can be made to refuse every opening, or to yield a
failure at chosen calls of each read. A failure takes the place of a step and does not move the read.
-/

namespace Chronicle

/-- Which failures a reader is to show. -/
structure FaultPlan where
  /-- The refusal of every opening. -/
  opening : Option StoreError := none
  /-- The failures of a read by the number of the call, from 0. -/
  items : List (Nat × StoreError) := []

namespace FaultPlan

variable {W P : Type} (plan : FaultPlan)

/-- Reads that show the planned failures. A skip does not count as a call. -/
def reads (r : Reads W P) : Reads W P where
  Cursor := Nat × r.Cursor
  pull w c :=
    match plan.items.lookup c.1 with
    | some e => (w, (c.1 + 1, c.2), .failure e)
    | none =>
      match r.pull w c.2 with
      | (w, inner, .skipped) => (w, (c.1, inner), .skipped)
      | (w, inner, found) => (w, (c.1 + 1, inner), found)
  close w c := r.close w c.2
  extent w c := plan.items.length + r.extent w c.2
  growths := r.growths

/-- An opening under the plan. -/
def opens {Cursor : Type} (opened : Except StoreError Cursor) : Except StoreError (Nat × Cursor) :=
  match plan.opening with
  | some e => .error e
  | none => (0, ·) <$> opened

/-- A whole source under the plan. -/
def eventReader (r : EventReader W P) : EventReader W P where
  toReads := plan.reads r.toReads
  codec := r.codec
  emptyPosition := r.emptyPosition
  forwardsFrom w position := plan.opens (r.forwardsFrom w position)
  backwards w := plan.opens (r.backwards w)
  backwardsFrom w position := plan.opens (r.backwardsFrom w position)

/-- A source by category under the plan. -/
def categoryReader (r : CategoryReader W P) : CategoryReader W P where
  toReads := plan.reads r.toReads
  codec := r.codec
  emptyPosition := r.emptyPosition
  forwardsFrom w category position := plan.opens (r.forwardsFrom w category position)
  backwards w category := plan.opens (r.backwards w category)
  backwardsFrom w category position := plan.opens (r.backwardsFrom w category position)

/-- A source by stream under the plan. -/
def streamReader (r : StreamReader W P) : StreamReader W P where
  toReads := plan.reads r.toReads
  codec := r.codec
  forwardsFrom w stream number := plan.opens (r.forwardsFrom w stream number)
  backwards w stream := plan.opens (r.backwards w stream)
  backwardsFrom w stream number := plan.opens (r.backwardsFrom w stream number)

end FaultPlan

end Chronicle
