import Chronicle.Event
import Chronicle.Text.Quoted

/-!
# Failures of event stores

Every way in which a read, a write or a position can be refused, and its wording. Streams and
positions appear in a message by their texts. Failures of the machine below a store carry the
text that they came with.
-/

namespace Chronicle

/-- One stream of a batch that was at another version than expected. -/
structure StreamConflict where
  /-- The stream of the refused request. -/
  stream : StreamId
  /-- The version the stream had. -/
  current : Int
  /-- The version the request named. -/
  expected : Int
  deriving DecidableEq, Repr

/-- Why a store refused. -/
inductive StoreError where
  /-- Nothing was ever written to the stream. -/
  | noSuchStream (stream : StreamId)
  /-- The stream is at another version than the writer expects. -/
  | wrongExpectedVersion (current expected : Int)
  /-- A retried write differs from what the stream already holds. -/
  | incompatibleWrite (position reason : String) (current : EventRecord) (new : NewEvent)
  /-- The reader or writer does not offer the operation. -/
  | unsupportedOperation (what : String)
  /-- A text is no position. -/
  | invalidPosition (what : String)
  /-- The request contradicts itself or its moment. -/
  | illegalState (what : String)
  /-- A category or a text is no part of a stream name. -/
  | invalidStreamId (category reason : String)
  /-- Some requests of a batch were refused for their expected version. -/
  | batchWriteConflict (conflicts : List StreamConflict)
  /-- A retrying writer reached its limit. -/
  | retriesExhausted (stream : StreamId) (attempts : Nat)
  /-- The machine failed. -/
  | io (what : String)
  /-- The store's own machinery failed. -/
  | backend (what : String)
  deriving DecidableEq, Repr

/-- The wording of two versions that differ. -/
def versionsText (current expected : Int) : String :=
  "current version: " ++ toString current ++ ", expected version: " ++ toString expected

/-- The wording of one stream's conflict. -/
def StreamConflict.message (c : StreamConflict) : String :=
  c.stream.text ++ ": " ++ versionsText c.current c.expected

namespace StoreError

/-- The wording of a failure. -/
def message : StoreError → String
  | noSuchStream stream => "stream does not exist: " ++ stream.text
  | wrongExpectedVersion current expected => versionsText current expected
  | incompatibleWrite position reason _ _ => "at position " ++ position ++ ": " ++ reason
  | unsupportedOperation what => "unsupported operation: " ++ what
  | invalidPosition what => "invalid position: " ++ what
  | illegalState what => "illegal state: " ++ what
  | invalidStreamId category reason =>
    "invalid stream id (category " ++ Quoted.encode category ++ "): " ++ reason
  | batchWriteConflict conflicts =>
    "wrong expected version in batch: " ++ ",".intercalate (conflicts.map StreamConflict.message)
  | retriesExhausted stream attempts =>
    "gave up writing to " ++ stream.text ++ " after " ++ toString attempts ++ " attempts"
  | io what => "I/O error: " ++ what
  | backend what => "backend error: " ++ what

/-- Whether a failure is a conflict of versions, which a writer may answer by retrying. -/
def isWrongExpectedVersion : StoreError → Bool
  | wrongExpectedVersion .. => true
  | _ => false

end StoreError

/-- The stream of a category and an id. -/
def StreamId.ofParts (category id : String) : Except StoreError StreamId :=
  match StreamId.ofParts? category id with
  | some stream => .ok stream
  | none => .error (.invalidStreamId category "event category cannot contain -")

/-- A category without a dash and an id make the stream with these parts. -/
theorem StreamId.ofParts_eq_ok_iff {category id : String} {stream : StreamId} :
    StreamId.ofParts category id = .ok stream ↔ stream.category = category ∧ stream.id = id := by
  unfold StreamId.ofParts StreamId.ofParts?
  constructor
  · intro h
    by_cases hdash : '-' ∈ category.toList
    · rw [dif_pos hdash] at h
      nomatch h
    · rw [dif_neg hdash] at h
      cases h
      exact ⟨rfl, rfl⟩
  · rintro ⟨rfl, rfl⟩
    rw [dif_neg stream.category_undashed]

/-- The parts of a stream make it again. -/
@[simp] theorem StreamId.ofParts_parts (stream : StreamId) :
    StreamId.ofParts stream.category stream.id = .ok stream :=
  StreamId.ofParts_eq_ok_iff.2 ⟨rfl, rfl⟩

/-- The stream that a text names: the category ends at the first dash. -/
def StreamId.parse (text : String) : Except StoreError StreamId :=
  match StreamId.halves? text.toList with
  | some (category, id) => StreamId.ofParts (String.ofList category) (String.ofList id)
  | none => .error (.invalidStreamId text "missing - between category and id")

end Chronicle
