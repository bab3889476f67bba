import Chronicle.Bytes.Buffer

/-!
# Bytes as they arrive

What is read from a file arrives in pieces, and a read may be interrupted, in which case it is tried
again. After the last piece every read either finds the end or fails. A reader that wants some number
of bytes asks for more until it has them, so it sees neither the pieces nor the interruptions, and it
does not ask when it wants none. Only a fleeting piece shows how much a read asks for: what the first
read of it does not take is lost.
-/

namespace Chronicle

/-- A failure of the machine while reading or writing. -/
structure IoError where
  /-- What the machine says. -/
  text : String
  /-- Whether it says that there are fewer bytes than there should be. -/
  endsEarly : Bool := false
  deriving DecidableEq, Repr

/-- One answer to a read. -/
inductive Arrival where
  /-- Some bytes, at least one. -/
  | piece (first : UInt8) (rest : List UInt8)
  /-- Some bytes, at least one, of which those that the read does not ask for are lost. -/
  | fleeting (first : UInt8) (rest : List UInt8)
  /-- None, but the read may be tried again. -/
  | interrupted
  deriving DecidableEq, Repr

/-- The arrival of some bytes, nothing if there are none. -/
def Arrival.ofBytes : List UInt8 → List Arrival
  | [] => []
  | b :: rest => [.piece b rest]

/-- The fleeting arrival of some bytes, nothing if there are none. -/
def Arrival.fleetingOfBytes : List UInt8 → List Arrival
  | [] => []
  | b :: rest => [.fleeting b rest]

/-- How a reader asks for the bytes that it wants. -/
inductive Asking where
  /-- For all of them at once. -/
  | whole
  /-- For as many as a buffer takes. -/
  | into (buffer : Buffer)
  deriving DecidableEq, Repr

/-- How many bytes a read asks for when `wanted` are wanted. -/
def Asking.count (wanted : Nat) : Asking → Nat
  | .whole => wanted
  | .into buffer => min buffer.asks wanted

/-- How a reader asks after it got `count` bytes that were there. -/
def Asking.after (count : Nat) : Asking → Asking
  | .whole => .whole
  | .into buffer => .into (buffer.receiveAll count count)

/-- The bytes still to come and what is met after them. -/
structure ByteSource where
  /-- The answers to the next reads. -/
  arrivals : List Arrival
  /-- The failure of every read after those, none if the bytes simply end. -/
  failure : Option IoError := none
  deriving DecidableEq, Repr

namespace ByteSource

/-- Bytes that are all there at once. -/
def ofBytes (bytes : List UInt8) (failure : Option IoError := none) : ByteSource :=
  ⟨Arrival.ofBytes bytes, failure⟩

/-- All bytes that are still to come. -/
def bytes (source : ByteSource) : List UInt8 :=
  source.arrivals.flatMap fun
    | .piece b rest => b :: rest
    | .fleeting b rest => b :: rest
    | .interrupted => []

/-- The next `count` bytes, or all that reads get if they are fewer, and the arrivals after them. -/
def collect (asking : Asking) : Nat → List Arrival → List UInt8 × List Arrival
  | 0, arrivals => ([], arrivals)
  | _ + 1, [] => ([], [])
  | count + 1, .interrupted :: later => collect asking (count + 1) later
  | count + 1, .fleeting b rest :: later =>
    let got := (b :: rest).take (asking.count (count + 1))
    let (more, later) := collect (asking.after got.length) (count + 1 - got.length) later
    (got ++ more, later)
  | count + 1, .piece b rest :: later =>
    match rest.drop count with
    | [] =>
      let (more, later) := collect (asking.after (rest.length + 1)) (count - rest.length) later
      (b :: rest ++ more, later)
    | c :: left => (b :: rest.take count, .piece c left :: later)

/-- What came of reading a number of bytes. -/
inductive Taken where
  /-- All of them, and the source after them. -/
  | whole (bytes : List UInt8) (later : ByteSource)
  /-- Fewer, because they ended. -/
  | short (bytes : List UInt8)
  /-- Fewer, because reading failed. -/
  | failed (error : IoError)

/-- Reads a number of bytes. -/
def take (source : ByteSource) (count : Nat) (asking : Asking := .whole) : Taken :=
  let (bytes, later) := collect asking count source.arrivals
  if bytes.length = count then .whole bytes ⟨later, source.failure⟩
  else
    match source.failure with
    | none => .short bytes
    | some e => .failed e

end ByteSource

end Chronicle
