import Chronicle.Store.Basic

/-!
# Writers that follow a script

To rehearse races, a writer can be given a script: what happens before or instead of each of its writes.
The script is part of the world and keeps its place; when it is used up the writer only writes.
-/

namespace Chronicle

/-- What happens at one write. -/
inductive ScriptAction where
  /-- Nothing but the write. -/
  | plain
  /-- Another writer appends to the same stream first. -/
  | race (events : List NewEvent)
  /-- The write is refused for its version: the current one, and the expected one if it is not to be
  the one that was tried. -/
  | conflict (current : Int) (expected : Option Int)
  /-- The write is refused. -/
  | fail (error : StoreError)

namespace ScriptedWriter

variable {W : Type} (store : Place W Store) (script : Place W (List ScriptAction))

/-- Takes the next action off the script. -/
def nextAction (w : W) : W × ScriptAction :=
  match script.get w with
  | [] => (w, .plain)
  | action :: rest => (script.set w rest, action)

/-- Writes to a store under a script. Appending is not scripted. -/
def writer : EventWriter W where
  write w stream events expected :=
    match nextAction script w with
    | (w, .plain) => (Store.writer store).write w stream events expected
    | (w, .race others) =>
      let w := store.set w ((store.get w).append stream others)
      (Store.writer store).write w stream events expected
    | (w, .conflict current tried) =>
      (w, .refused (.wrongExpectedVersion current (tried.getD expected)))
    | (w, .fail error) => (w, .refused error)
  append := (Store.writer store).append

end ScriptedWriter

end Chronicle
