import Chronicle.Bytes.Source
import Chronicle.Gzip.Crc
import Chronicle.Gzip.Inflate

/-!
# Gzip files

A gzip file is a header, compressed data, and a trailer with a check and the size of what was
compressed. Reading it yields the bytes of the first such member and then the end, or the failure that
stands in its place: the bytes come first, and the trailer is looked at after them. What follows the
first member is ignored. Files are written as stored blocks.
-/

namespace Chronicle.Gzip

/-- The file stops inside the header or the trailer. -/
def endOfFile : IoError := ⟨"unexpected end of file", true⟩

/-- The file does not begin as a gzip file. -/
def badHeader : IoError := ⟨"invalid gzip header", false⟩

/-- A field of the header does not end. -/
def longHeader : IoError := ⟨"gzip header field too long", false⟩

/-- A check does not fit what it checks. -/
def badChecksum : IoError := ⟨"corrupt gzip stream does not have a matching checksum", false⟩

/-- The compressed data stops before its end. -/
def incompleteData : IoError := ⟨"incomplete deflate stream", true⟩

/-- The compressed data contradicts itself. -/
def corruptData : IoError := ⟨"corrupt deflate stream", false⟩

/-- The longest text that a header may hold. -/
def maxHeaderText : Nat := 65535

/-- Splits off a given number of bytes. -/
def splitBytes (count : Nat) (bytes : List UInt8) : Except IoError (List UInt8 × List UInt8) :=
  if bytes.length < count then .error endOfFile else .ok (bytes.take count, bytes.drop count)

/-- Splits off a text that ends with a zero, of which `room` bytes may be before it. -/
def splitText : Nat → List UInt8 → Except IoError (List UInt8 × List UInt8)
  | _, [] => .error endOfFile
  | room, b :: rest =>
    if b = 0 then .ok ([0], rest)
    else
      match room with
      | 0 => .error longHeader
      | room + 1 => do
        let (text, rest) ← splitText room rest
        return (b :: text, rest)

/-- What follows an optional field of the header, and the bytes of the field. -/
def optionalField (present : Bool) (field : List UInt8 → Except IoError (List UInt8 × List UInt8))
    (bytes : List UInt8) : Except IoError (List UInt8 × List UInt8) :=
  if present then field bytes else .ok ([], bytes)

/-- The field of extra data: its length and its bytes. -/
def splitExtra (bytes : List UInt8) : Except IoError (List UInt8 × List UInt8) := do
  let (length, rest) ← splitBytes 2 bytes
  let (extra, rest) ← splitBytes (Bytes.ofLittleEndian length) rest
  return (length ++ extra, rest)

/-- What follows the header. -/
def afterHeader (bytes : List UInt8) : Except IoError (List UInt8) := do
  let (start, rest) ← splitBytes 10 bytes
  let flags := (start.getD 3 0).toNat
  if start.take 3 ≠ [0x1f, 0x8b, 8] || 32 ≤ flags then throw badHeader
  let (extra, rest) ← optionalField (flags.testBit 2) splitExtra rest
  let (name, rest) ← optionalField (flags.testBit 3) (splitText maxHeaderText) rest
  let (comment, rest) ← optionalField (flags.testBit 4) (splitText maxHeaderText) rest
  let (check, rest) ← optionalField (flags.testBit 1) (splitBytes 2) rest
  if flags.testBit 1 &&
      Bytes.ofLittleEndian check ≠ (crc32 (start ++ extra ++ name ++ comment)).toNat % 65536 then
    throw badChecksum
  return rest

/-- What reading meets after all bytes of a member. -/
def trailerFailure (bytes rest : List UInt8) : Option IoError :=
  if rest.length < 8 then some endOfFile
  else if Bytes.ofLittleEndian (rest.take 4) ≠ (crc32 bytes).toNat ||
      Bytes.ofLittleEndian ((rest.drop 4).take 4) ≠ bytes.length % Bytes.modulus32 then some badChecksum
  else none

/-- What reading a file yields: its bytes, and what is met after them. -/
def unpack (file : List UInt8) : ByteSource :=
  match afterHeader file with
  | .error e => .ofBytes [] (some e)
  | .ok rest =>
    match inflate (file.length - rest.length) rest with
    | .corrupt bytes => .ofBytes bytes (some corruptData)
    | .incomplete arrivals => ⟨arrivals, some incompleteData⟩
    | .complete bytes rest => .ofBytes bytes (trailerFailure bytes rest)

/-- The header that files are written with. -/
def plainHeader : List UInt8 := [0x1f, 0x8b, 8, 0, 0, 0, 0, 0, 0, 0xff]

/-- The greatest number of bytes in a stored block. -/
def maxStored : Nat := 65535

/-- One stored block. -/
def storedBlock (isLast : Bool) (bytes : List UInt8) : List UInt8 :=
  (if isLast then 1 else 0) :: Bytes.littleEndian 2 bytes.length ++
    Bytes.littleEndian 2 (65535 - bytes.length) ++ bytes

/-- Stored blocks of some bytes: at most `more` full ones and then the rest. -/
def storedBlocks : Nat → List UInt8 → List UInt8
  | 0, bytes => storedBlock true bytes
  | more + 1, bytes =>
    if bytes.length ≤ maxStored then storedBlock true bytes
    else storedBlock false (bytes.take maxStored) ++ storedBlocks more (bytes.drop maxStored)

/-- The file that holds some bytes. -/
def pack (bytes : List UInt8) : List UInt8 :=
  plainHeader ++ storedBlocks (bytes.length / maxStored) bytes ++ Bytes.littleEndian 4 (crc32 bytes).toNat ++
    Bytes.littleEndian 4 bytes.length

end Chronicle.Gzip
