import Chronicle.Event
import Chronicle.Text.Utf8

/-!
# Compatibility of a stored and a new event

A retried write meets events that are already in the stream. Whether such an event is the same as the
one being written is judged by a compatibility: a test on types, on payloads, on notes, or of the
caller's own, and any conjunction of those. A conjunction is judged from the left, and the reason of
the first test that rejects is the reason given.
-/

namespace Chronicle

/-- When a stored event and a new one count as the same. -/
inductive Compatibility where
  /-- The types satisfy a comparison of old and new. -/
  | types (accept : String → String → Bool)
  /-- The payloads satisfy a comparison of old and new. -/
  | data (accept : List UInt8 → List UInt8 → Bool)
  /-- The notes satisfy a comparison of old and new. -/
  | metadata (accept : List UInt8 → List UInt8 → Bool)
  /-- A test of the caller's own, which gives a reason if it rejects. -/
  | judged (reason? : EventRecord → NewEvent → Option String)
  /-- Two compatibilities at once. -/
  | both (first second : Compatibility)

namespace Compatibility

/-- The reason for rejecting a pair with different types. -/
def typesReason (current : EventRecord) (new : NewEvent) : String :=
  "Event types don't match -- old: " ++ current.eventType ++ ", new: " ++ new.eventType ++
    " (bodies old: " ++ Utf8.lossy current.data ++ ", new " ++ Utf8.lossy new.data ++ ")"

/-- The reason for rejecting a pair with different payloads. -/
def dataReason (current : EventRecord) (new : NewEvent) : String :=
  "Event bodies don't match -- old: " ++ Utf8.lossy current.data ++ ", new: " ++
    Utf8.lossy new.data ++ " (type " ++ current.eventType ++ ")"

/-- The reason for rejecting a pair with different notes. -/
def metadataReason (current : EventRecord) (new : NewEvent) : String :=
  "Event metadata doesn't match -- old: " ++ Utf8.lossy current.metadata ++ ", new: " ++
    Utf8.lossy new.metadata

/-- A reason unless a comparison holds. -/
def reasonUnless (holds : Bool) (reason : String) : Option String := if holds then none else some reason

/-- The reason for rejecting a pair, none if it is accepted. -/
def reason? (current : EventRecord) (new : NewEvent) : Compatibility → Option String
  | types accept => reasonUnless (accept current.eventType new.eventType) (typesReason current new)
  | data accept => reasonUnless (accept current.data new.data) (dataReason current new)
  | metadata accept => reasonUnless (accept current.metadata new.metadata) (metadataReason current new)
  | judged judge => judge current new
  | both first second => (first.reason? current new).or (second.reason? current new)

/-- Equal types. -/
def sameType : Compatibility := types (· == ·)

/-- Equal payloads. -/
def sameData : Compatibility := data (· == ·)

/-- Equal notes. -/
def sameMetadata : Compatibility := metadata (· == ·)

/-- Equal types and payloads: what a writer uses unless told otherwise. -/
def basic : Compatibility := both sameType sameData

/-- Equal types, payloads and notes. -/
def withMetadata : Compatibility := both basic sameMetadata

/-- Accepts every pair. -/
def always : Compatibility := judged fun _ _ => none

/-- Rejects every pair. -/
def never : Compatibility := judged fun _ _ => some "never"

end Compatibility

end Chronicle
