/-!
# Texts as bytes

Bytes are lists. The bytes of a text are its UTF-8 encoding, and `decode?` reads exactly the
encodings of texts. `lossy` reads any bytes at all: every maximal piece that is no start of a
well-formed character becomes one replacement character.
-/

namespace Chronicle.Utf8

/-- The bytes of a text. -/
def encode (text : String) : List UInt8 := text.toByteArray.data.toList

/-- The text with the given bytes, if they are well-formed. -/
def decode? (bytes : List UInt8) : Option String :=
  if h : (ByteArray.mk bytes.toArray).validateUTF8 = true then
    some (String.ofByteArray ⟨bytes.toArray⟩ (ByteArray.validateUTF8_eq_true_iff.1 h))
  else none

theorem decode?_encode (text : String) : decode? (encode text) = some text := by
  have h : (ByteArray.mk (encode text).toArray) = text.toByteArray := by simp [encode]
  simp [decode?, h, ByteArray.validateUTF8_eq_true_iff, text.isValidUTF8]

theorem encode_of_decode? {bytes : List UInt8} {text : String} (h : decode? bytes = some text) :
    encode text = bytes := by
  unfold decode? at h
  split at h
  · cases h
    simp [encode]
  · cases h

/-- The character shown for bytes that are no text. -/
def replacement : Char := '\uFFFD'

/-- A character of which some bytes have been read. -/
structure Partial where
  /-- Continuation bytes still to come. -/
  missing : Nat
  /-- Payload bits read so far. -/
  value : Nat
  /-- Least admissible next byte. -/
  least : UInt8
  /-- Greatest admissible next byte. -/
  greatest : UInt8

/-- What a byte means where a character may start. -/
inductive Lead where
  /-- A whole character. -/
  | single (c : Char)
  /-- The first byte of a longer character. -/
  | opens (rest : Partial)
  /-- No character starts so. -/
  | illFormed

/-- The well-formed first bytes, with the range that each leaves to the second byte: overlong
forms, surrogates and values past the last code point are excluded there. -/
def Lead.ofByte (b : UInt8) : Lead :=
  let n := b.toNat
  if b < 0x80 then .single (Char.ofNat n)
  else if b < 0xC2 then .illFormed
  else if b < 0xE0 then .opens ⟨1, n - 0xC0, 0x80, 0xBF⟩
  else if b == 0xE0 then .opens ⟨2, 0, 0xA0, 0xBF⟩
  else if b == 0xED then .opens ⟨2, 0xD, 0x80, 0x9F⟩
  else if b < 0xF0 then .opens ⟨2, n - 0xE0, 0x80, 0xBF⟩
  else if b == 0xF0 then .opens ⟨3, 0, 0x90, 0xBF⟩
  else if b < 0xF4 then .opens ⟨3, n - 0xF0, 0x80, 0xBF⟩
  else if b == 0xF4 then .opens ⟨3, 4, 0x80, 0x8F⟩
  else .illFormed

/-- Reads on from a byte at which a character may start: what it shows, and what is then open. -/
def start (b : UInt8) : List Char × Option Partial :=
  match Lead.ofByte b with
  | .single c => ([c], none)
  | .opens rest => ([], some rest)
  | .illFormed => ([replacement], none)

/-- Reads one byte. A byte that cannot continue the open character ends it as ill-formed and is
read again as a start. -/
def advance (pending : Option Partial) (b : UInt8) : List Char × Option Partial :=
  match pending with
  | none => start b
  | some p =>
    if p.least ≤ b && b ≤ p.greatest then
      let value := p.value * 64 + (b.toNat - 0x80)
      if p.missing ≤ 1 then ([Char.ofNat value], none)
      else ([], some ⟨p.missing - 1, value, 0x80, 0xBF⟩)
    else
      let (shown, rest) := start b
      (replacement :: shown, rest)

/-- The characters shown for bytes, given what was open before them. -/
def lossyChars (pending : Option Partial) : List UInt8 → List Char
  | [] => if pending.isSome then [replacement] else []
  | b :: rest =>
    let (shown, next) := advance pending b
    shown ++ lossyChars next rest

/-- The text of any bytes, with a replacement character for each ill-formed piece. -/
def lossy (bytes : List UInt8) : String := String.ofList (lossyChars none bytes)

end Chronicle.Utf8
