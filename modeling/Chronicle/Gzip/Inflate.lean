import Chronicle.Bytes.Digits
import Chronicle.Gzip.Huffman

/-!
# Decompression

Compressed data is a sequence of blocks: stored ones, which hold their bytes as they are, and coded
ones, whose symbols are single bytes and references back into what was already produced. Data that
contradicts itself is corrupt; data that stops before its last block is complete is told apart from
that.
-/

namespace Chronicle.Gzip

/-- What came of decompressing. -/
inductive Inflated where
  /-- The bytes, and the input after the last block. -/
  | complete (bytes : List UInt8) (rest : List UInt8)
  /-- What reads yield before they notice that the input ended. -/
  | incomplete (arrivals : List Arrival)
  /-- The bytes handed on before the input contradicted itself. -/
  | corrupt (bytes : List UInt8)
  deriving DecidableEq, Repr

namespace Inflate

/-- Copies a stored block: its length, the complement of that, and its bytes. -/
def stored : Decode Unit := do
  align
  let lengthBytes := [← byte, ← byte]
  let complementBytes := [← byte, ← byte]
  let length := Bytes.ofLittleEndian lengthBytes
  if length + Bytes.ofLittleEndian complementBytes ≠ 65535 then throw .corrupt
  copyBytes length

/-- Base and number of extra bits of the length symbols, from symbol 257. -/
def lengthTable : Array (Nat × Nat) := #[
  (3, 0), (4, 0), (5, 0), (6, 0), (7, 0), (8, 0), (9, 0), (10, 0), (11, 1), (13, 1), (15, 1),
  (17, 1), (19, 2), (23, 2), (27, 2), (31, 2), (35, 3), (43, 3), (51, 3), (59, 3), (67, 4), (83, 4),
  (99, 4), (115, 4), (131, 5), (163, 5), (195, 5), (227, 5), (258, 0)]

/-- Base and number of extra bits of the distance symbols. -/
def distanceTable : Array (Nat × Nat) := #[
  (1, 0), (2, 0), (3, 0), (4, 0), (5, 1), (7, 1), (9, 2), (13, 2), (17, 3), (25, 3), (33, 4), (49, 4),
  (65, 5), (97, 5), (129, 6), (193, 6), (257, 7), (385, 7), (513, 8), (769, 8), (1025, 9), (1537, 9),
  (2049, 10), (3073, 10), (4097, 11), (6145, 11), (8193, 12), (12289, 12), (16385, 13), (24577, 13)]

/-- Reads the number that a symbol of a table stands for: its base and its extra bits. -/
def tabled (table : Array (Nat × Nat)) (symbol : Nat) : Decode Nat :=
  match table[symbol]? with
  | none => throw .corrupt
  | some (base, width) => do return base + (← number width)

/-- Follows one reference back, of which the symbol of its length was read. -/
def reference (distances : Huffman) (lengthSymbol : Nat) : Decode Unit := do
  let length ← tabled lengthTable lengthSymbol
  let distance ← tabled distanceTable (← distances.symbol)
  copyBack distance length

/-- The symbol that ends a block. -/
def endOfBlock : Nat := 256

/-- Reads symbols up to the end of a block; each takes at least one bit of the `fuel` there are. -/
def coded (literals distances : Huffman) : Nat → Decode Unit
  | 0 => throw .ended
  | fuel + 1 => do
    let symbol ← literals.symbol
    if symbol < endOfBlock then
      write (UInt8.ofNat symbol)
      coded literals distances fuel
    else if symbol = endOfBlock then return
    else
      reference distances (symbol - (endOfBlock + 1))
      coded literals distances fuel

/-- The code of literals that a block with fixed codes uses. -/
def fixedLiterals : Huffman :=
  .ofLengths (List.replicate 144 8 ++ List.replicate 112 9 ++ List.replicate 24 7 ++
    List.replicate 8 8)

/-- The code of distances that a block with fixed codes uses. -/
def fixedDistances : Huffman := .ofLengths (List.replicate 32 5)

/-- The order in which the lengths of the code of code lengths are stored. -/
def lengthOrder : List Nat := [16, 17, 18, 0, 8, 7, 9, 6, 10, 5, 11, 4, 12, 3, 13, 2, 14, 1, 15]

/-- Reads `count` numbers of three bits. -/
def shortNumbers : Nat → Decode (List Nat)
  | 0 => pure []
  | count + 1 => do
    let n ← number 3
    let rest ← shortNumbers count
    return n :: rest

/-- Reads one code length or a run of them, given those before it in reverse. -/
def codeLengthRun (code : Huffman) (reversed : List Nat) : Decode (List Nat) := do
  let symbol ← code.symbol
  if symbol < 16 then return [symbol]
  else if symbol = 16 then
    match reversed with
    | [] => throw .corrupt
    | last :: _ => return List.replicate (3 + (← number 2)) last
  else if symbol = 17 then return List.replicate (3 + (← number 3)) 0
  else return List.replicate (11 + (← number 7)) 0

/-- Reads code lengths until `wanted` are there; each step of the `fuel` adds at least one. -/
def codeLengths (code : Huffman) (wanted : Nat) : Nat → List Nat → Decode (List Nat)
  | 0, _ => throw .ended
  | fuel + 1, reversed =>
    if reversed.length = wanted then return reversed.reverse
    else if wanted < reversed.length then throw .corrupt
    else do
      let run ← codeLengthRun code reversed
      codeLengths code wanted fuel (run ++ reversed)

/-- Reads the two codes that a block brings along. -/
def ownCodes : Decode (Huffman × Huffman) := do
  let literals := (← number 5) + 257
  let distances := (← number 5) + 1
  let widthCount := (← number 4) + 4
  if 286 < literals || 30 < distances then throw .corrupt
  let widths ← shortNumbers widthCount
  let code := Huffman.ofLengths ((List.range 19).map fun symbol =>
    ((lengthOrder.zip widths).lookup symbol).getD 0)
  if !code.complete then throw .corrupt
  let lengths ← codeLengths code (literals + distances) (literals + distances + 1) []
  let literalCode := Huffman.ofLengths (lengths.take literals)
  let distanceCode := Huffman.ofLengths (lengths.drop literals)
  if !(literalCode.usable && distanceCode.usable) then throw .corrupt
  return (literalCode, distanceCode)

/-- Reads one block after its header; `fuel` bounds the symbols in it. -/
def block (fuel kind : Nat) : Decode Unit :=
  match kind with
  | 0 => stored
  | 1 => coded fixedLiterals fixedDistances fuel
  | 2 => do
    let (literals, distances) ← ownCodes
    coded literals distances fuel
  | _ => throw .corrupt

/-- Reads blocks up to the last; each takes at least one bit of the second `fuel`. -/
def blocks (fuel : Nat) : Nat → Decode Unit
  | 0 => throw .ended
  | more + 1 => do
    let isLast ← bit
    let kind ← number 2
    block fuel kind
    if isLast then return
    blocks fuel more

end Inflate

/-- Decompresses data that stands in a file after `taken` other bytes. -/
def inflate (taken : Nat) (input : List UInt8) : Inflated :=
  let start : Decoder := { input := input, taken := taken }
  let fuel := start.extent + 1
  match Inflate.blocks fuel fuel start with
  | .ok () d => .complete d.output.toList d.input
  | .error .ended d => .incomplete d.arrivals
  | .error .corrupt d => .corrupt d.handedOn

end Chronicle.Gzip
