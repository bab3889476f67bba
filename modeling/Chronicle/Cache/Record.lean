import Chronicle.Bytes.Digits
import Chronicle.Bytes.Source
import Chronicle.Cache.Failure
import Chronicle.Text.Utf8

/-!
# Records as bytes

A record is its fields one after the other: texts with a length of two bytes, payloads with a signed
length of four, and signed numbers of eight, all with the most significant byte first. Records follow
each other without anything between them, so the bytes end cleanly exactly where a record ends.
Timestamps are kept in whole milliseconds.
-/

namespace Chronicle.Cache

/-- A record with the text of its position. -/
structure CachedRecord where
  /-- The position's text, which the reader's codec understands. -/
  position : String
  /-- The event itself. -/
  record : EventRecord
  deriving DecidableEq, Repr

/-- The value of a field. -/
inductive FieldValue where
  /-- A text, by its bytes. -/
  | text (bytes : List UInt8)
  /-- A payload. -/
  | payload (bytes : List UInt8)
  /-- A number. -/
  | number (n : Int)
  deriving DecidableEq, Repr

/-- The longest text in bytes. -/
def maxText : Nat := 65535

/-- The longest payload in bytes. -/
def maxPayload : Nat := 2147483647

/-- Why a field cannot be written, if so. -/
def FieldValue.excess? (field : Field) : FieldValue → Option CacheError
  | text bytes =>
    if maxText < bytes.length then some (.fieldTooLarge field bytes.length maxText) else none
  | payload bytes =>
    if maxPayload < bytes.length then some (.fieldTooLarge field bytes.length maxPayload) else none
  | number _ => none

/-- The bytes of a field. -/
def FieldValue.encode : FieldValue → List UInt8
  | text bytes => Bytes.bigEndian 2 bytes.length ++ bytes
  | payload bytes => Bytes.bigEndian 4 bytes.length ++ bytes
  | number n => Bytes.bigEndian 8 (Bytes.toWord Bytes.modulus64 n)

/-- The fields of a record in their order. -/
def CachedRecord.fields (r : CachedRecord) : List (Field × FieldValue) :=
  [(.position, .text (Utf8.encode r.position)),
    (.timestamp, .number r.record.timestamp.millis),
    (.category, .text (Utf8.encode r.record.stream.category)),
    (.streamId, .text (Utf8.encode r.record.stream.id)),
    (.eventNumber, .number r.record.number),
    (.eventType, .text (Utf8.encode r.record.eventType)),
    (.data, .payload r.record.data),
    (.metadata, .payload r.record.metadata)]

/-- The bytes of a record, whatever the lengths of its fields. -/
def CachedRecord.encode (r : CachedRecord) : List UInt8 := r.fields.flatMap (·.2.encode)

/-- What was written, and what stopped it. -/
structure Written where
  /-- The bytes that reached the output. -/
  bytes : List UInt8
  /-- The failure that ended the writing, if one did. -/
  failure : Option CacheError
  deriving DecidableEq, Repr

/-- The failure of an output that is full. -/
def fullOutput : CacheError := .io "failed to write whole buffer"

/-- Writes fields one after the other to an output with room for some number of bytes, or any number. A
field over its limit stops the writing before its first byte; a full output takes what fits. -/
def writeFields (room : Option Nat) : List (Field × FieldValue) → Written
  | [] => ⟨[], none⟩
  | (field, value) :: rest =>
    match value.excess? field with
    | some e => ⟨[], some e⟩
    | none =>
      if room.any (· < value.encode.length) then
        ⟨value.encode.take (room.getD 0), some fullOutput⟩
      else
        let written := writeFields (room.map (· - value.encode.length)) rest
        ⟨value.encode ++ written.bytes, written.failure⟩

/-- Writes a record to an output with room for some number of bytes, or any number. -/
def CachedRecord.write (room : Option Nat) (r : CachedRecord) : Written :=
  writeFields room r.fields

/-- Reads a number of bytes that belong to a field. -/
def readBytes (field : Field) (count : Nat) (source : ByteSource) :
    Except CacheError (List UInt8 × ByteSource) :=
  match source.take count with
  | .whole bytes source => .ok (bytes, source)
  | .short _ => .error (.truncated field)
  | .failed e => .error (if e.endsEarly then .truncated field else .io e.text)

/-- Reads a payload after its length. It is taken as it comes, in a buffer that grows, so that a false
length costs nothing and a failure under it is reported as such. -/
def readBody (field : Field) (count : Nat) (source : ByteSource) :
    Except CacheError (List UInt8 × ByteSource) :=
  match source.take count (.into {}) with
  | .whole bytes source => .ok (bytes, source)
  | .short _ => .error (.truncated field)
  | .failed e => .error (.io e.text)

/-- Reads a number. -/
def readNumber (field : Field) (source : ByteSource) : Except CacheError (Int × ByteSource) := do
  let (bytes, source) ← readBytes field 8 source
  return (Bytes.ofWord Bytes.modulus64 (Bytes.ofBigEndian bytes), source)

/-- Reads a text of a known length. -/
def readTextBody (field : Field) (length : Nat) (source : ByteSource) :
    Except CacheError (String × ByteSource) := do
  let (bytes, source) ← readBytes field length source
  match Utf8.decode? bytes with
  | some text => return (text, source)
  | none => throw (.invalidUtf8 field)

/-- Reads a text. -/
def readText (field : Field) (source : ByteSource) : Except CacheError (String × ByteSource) := do
  let (length, source) ← readBytes field 2 source
  readTextBody field (Bytes.ofBigEndian length) source

/-- Reads a payload. -/
def readPayload (field : Field) (source : ByteSource) :
    Except CacheError (List UInt8 × ByteSource) := do
  let (prefixBytes, source) ← readBytes field 4 source
  let length := Bytes.ofWord Bytes.modulus32 (Bytes.ofBigEndian prefixBytes)
  if length < 0 then throw (.negativeLength field length)
  readBody field length.toNat source

/-- Reads the two bytes that begin a record, none if the bytes end before them. -/
def readStart (source : ByteSource) : Except CacheError (Option (Nat × ByteSource)) :=
  match source.take 2 with
  | .whole bytes source => .ok (some (Bytes.ofBigEndian bytes, source))
  | .short [] => .ok none
  | .short _ => .error (.truncated .position)
  | .failed e => .error (.io e.text)

/-- Reads what follows the beginning of a record. -/
def readRest (length : Nat) (source : ByteSource) :
    Except CacheError (CachedRecord × ByteSource) := do
  let (position, source) ← readTextBody .position length source
  let (ms, source) ← readNumber .timestamp source
  let timestamp ←
    match Timestamp.ofMillis? ms with
    | some t => pure t
    | none => throw (.invalidTimestamp ms)
  let (category, source) ← readText .category source
  let (id, source) ← readText .streamId source
  let stream ←
    match StreamId.ofParts category id with
    | .ok s => pure s
    | .error e => throw (.invalidStreamId e.message)
  let (number, source) ← readNumber .eventNumber source
  let (eventType, source) ← readText .eventType source
  let (data, source) ← readPayload .data source
  let (metadata, source) ← readPayload .metadata source
  return (⟨position, ⟨timestamp, stream, number, eventType, data, metadata⟩⟩, source)

/-- Reads the next record, none if the bytes end before it. -/
def readRecord (source : ByteSource) : Except CacheError (Option (CachedRecord × ByteSource)) := do
  match ← readStart source with
  | none => return none
  | some (length, source) => return some (← readRest length source)

/-- Reads records until the bytes end or a failure, at most `steps` of them. -/
def readAllWithin : Nat → ByteSource → List CachedRecord × Option CacheError
  | 0, _ => ([], none)
  | steps + 1, source =>
    match readRecord source with
    | .error e => ([], some e)
    | .ok none => ([], none)
    | .ok (some (record, source)) =>
      let (records, failure) := readAllWithin steps source
      (record :: records, failure)

/-- All records of some bytes, up to the end or the failure that stopped the reading. Each record takes
at least one byte, so the length bounds their number. -/
def readAll (source : ByteSource) : List CachedRecord × Option CacheError :=
  readAllWithin (source.bytes.length + 1) source

end Chronicle.Cache
