import Chronicle.Bytes.Source

/-!
# State of a decompressor

A decompressor reads a file bit by bit, the least significant bit of each byte first, and writes bytes.
It works in stretches. A stretch ends when a byte is to be written and the window of output is full,
and when a bit is asked for and the piece of the file that was read in is used up. Only at the end of a
stretch is its output handed on, so what a stretch wrote before it met a contradiction is lost.

A stretch that begins when no byte of the file is left is starved: it has only the bits left of a byte
that was begun and what is left to write of a symbol. If the file turns out to end too early in a
starved stretch, only the first read in it gets anything, and what that does not take is lost.
-/

namespace Chronicle.Gzip

/-- The bytes that are read in from a file at a time. -/
def pieceSize : Nat := 32768

/-- The bytes of output that are kept to refer back to. -/
def windowSize : Nat := 32768

/-- A decompressor at work. -/
structure Decoder where
  /-- The bits left of a byte that was begun. -/
  held : List Bool := []
  /-- The bytes after it. -/
  input : List UInt8
  /-- How many bytes of the file come before those. -/
  taken : Nat := 0
  /-- What was written. -/
  output : Array UInt8 := #[]
  /-- How much was written when each stretch ended, the last stretch first. -/
  marks : List Nat := []
  /-- Whether no byte was left when the last stretch ended. -/
  starved : Bool := false

/-- Why decompressing stops before its end. -/
inductive Stop where
  /-- The file ends. -/
  | ended
  /-- The file contradicts itself. -/
  | corrupt
  deriving DecidableEq, Repr

/-- A step of a decompressor. What it has done stays when it stops. -/
abbrev Decode (α : Type) : Type := EStateM Stop Decoder α

namespace Decoder

/-- No fewer than the bits still to come. -/
def extent (d : Decoder) : Nat := d.held.length + 8 * d.input.length

/-- How much was written when the last stretch ended. -/
def handedOver (d : Decoder) : Nat := d.marks.headD 0

/-- Ends a stretch. -/
def endStretch (d : Decoder) : Decoder :=
  { d with marks := d.output.size :: d.marks, starved := d.input.isEmpty }

/-- The decompressor before it takes the next byte of the file. -/
def beforeByte (d : Decoder) : Decoder :=
  if d.taken % pieceSize = 0 then d.endStretch else d

/-- The decompressor before it writes the next byte. -/
def beforeWrite (d : Decoder) : Decoder :=
  if d.output.size % windowSize = 0 && d.output.size != d.handedOver then d.endStretch else d

/-- The output of the stretches that have ended. -/
def handedOn (d : Decoder) : List UInt8 := d.output.toList.take d.handedOver

/-- The output since then. -/
def unfinished (d : Decoder) : List UInt8 := d.output.toList.drop d.handedOver

/-- Some output cut at marks, of which the last comes first, the last piece first. -/
def cutBack (output : Array UInt8) : List Nat → List (List UInt8)
  | [] => []
  | stop :: earlier => (output.extract (earlier.headD 0) stop).toList :: cutBack output earlier

/-- What reads yield of a decompressor that met the end of its file too early. -/
def arrivals (d : Decoder) : List Arrival :=
  (cutBack d.output d.marks).reverse.flatMap Arrival.ofBytes ++
    if d.starved then Arrival.fleetingOfBytes d.unfinished else Arrival.ofBytes d.unfinished

end Decoder

/-- The bits of a byte, the least significant first. -/
def bitsOf (b : UInt8) : List Bool := [0, 1, 2, 3, 4, 5, 6, 7].map b.toNat.testBit

/-- Takes one byte of the file. -/
def byte : Decode UInt8 := fun d =>
  match d.input with
  | [] => .error .ended d
  | b :: rest => .ok b { d.beforeByte with input := rest, taken := d.taken + 1 }

/-- Reads one bit. -/
def bit : Decode Bool := fun d =>
  match d.held with
  | b :: rest => .ok b { d with held := rest }
  | [] =>
    match byte d with
    | .error stop d => .error stop d
    | .ok b d => .ok (b.toNat.testBit 0) { d with held := (bitsOf b).tail }

/-- Reads a number of the given width, its least significant bit first. -/
def number : Nat → Decode Nat
  | 0 => pure 0
  | width + 1 => do
    let b ← bit
    let n ← number width
    return b.toNat + 2 * n

/-- Gives up the bits left of a byte that was begun. -/
def align : Decode Unit := modify fun d => { d with held := [] }

/-- Has room for one byte. -/
def makeRoom : Decode Unit := modify (·.beforeWrite)

/-- Writes one byte. -/
def write (b : UInt8) : Decode Unit := do
  makeRoom
  modify fun d => { d with output := d.output.push b }

/-- Copies bytes of the file as they are. There must be room for a byte before it is taken. -/
def copyBytes : Nat → Decode Unit
  | 0 => pure ()
  | count + 1 => do
    makeRoom
    write (← byte)
    copyBytes count

/-- The byte at a distance before the end of some output. Before the beginning lie zeros. -/
def byteBack (output : Array UInt8) (distance : Nat) : UInt8 :=
  if distance ≤ output.size then output.getD (output.size - distance) 0 else 0

/-- Repeats bytes from a distance back, which may overlap what they add. -/
def copyBack (distance : Nat) : Nat → Decode Unit
  | 0 => pure ()
  | length + 1 => do
    write (byteBack (← get).output distance)
    copyBack distance length

end Chronicle.Gzip
