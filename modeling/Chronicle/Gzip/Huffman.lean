import Chronicle.Gzip.Decoder

/-!
# Canonical prefix codes

A canonical code is determined by the code length of every symbol: shorter codes come first, and codes
of one length follow each other in the order of their symbols. The words of a complete code fill the
tree. A code with one word, of a single bit, and a code without words are usable all the same; reading
what is no word of theirs is a contradiction, which shows at the first bit.
-/

namespace Chronicle.Gzip

/-- The greatest length of a code word. -/
def maxCodeLength : Nat := 15

/-- A canonical code. -/
structure Huffman where
  /-- How many words there are of each length, from length 1 to the longest. -/
  counts : List Nat
  /-- The symbols in the order of their words. -/
  symbols : Array Nat

namespace Huffman

/-- The code with the given length for every symbol, 0 for a symbol without a word. -/
def ofLengths (lengths : List Nat) : Huffman :=
  let widths := (List.range (lengths.foldl max 1)).map (· + 1)
  { counts := widths.map fun width => lengths.count width
    symbols := (widths.flatMap fun width =>
      lengths.zipIdx.filterMap fun (length, symbol) =>
        if length = width then some symbol else none).toArray }

/-- The part of the tree that words of the given lengths take up, in units of the longest words. -/
def weight : Nat → List Nat → Nat
  | _, [] => 0
  | width, count :: rest => count <<< (maxCodeLength - width) + weight (width + 1) rest

/-- Whether the words fill the tree. -/
def complete (code : Huffman) : Bool := weight 1 code.counts == 1 <<< maxCodeLength

/-- Whether the code is complete or has at most one word, of a single bit. -/
def usable (code : Huffman) : Bool :=
  code.complete || code.symbols.size ≤ 1 && code.counts.length ≤ 1

/-- Reads a word bit by bit. `value` is what was read of it, `first` the least word of its length and
`index` the number of shorter words. -/
def read (code : Huffman) (value first index : Nat) : List Nat → Decode Nat
  | [] => throw .corrupt
  | count :: rest => do
    let b ← bit
    let value := 2 * value + b.toNat
    let first := 2 * first
    if value < first + count then
      match code.symbols[index + (value - first)]? with
      | some symbol => return symbol
      | none => throw .corrupt
    else read code value (first + count) (index + count) rest

/-- Reads a symbol. -/
def symbol (code : Huffman) : Decode Nat := code.read 0 0 0 code.counts

end Huffman

end Chronicle.Gzip
