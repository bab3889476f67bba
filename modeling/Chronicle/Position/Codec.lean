import Chronicle.Failure
import Chronicle.Text.Numeral

/-!
# Position texts

A position is a reader's own kind of value. A consumer keeps it as a text and asks which of two it
met first, both through the codec of the scope it read. The codec of a log counts events; the codec
of a source without events has one position, which every text denotes.
-/

namespace Chronicle

/-- The texts of positions and their order. -/
structure PositionCodec (P : Type) where
  /-- The text a consumer keeps. -/
  serialize : P → String
  /-- The position a kept text denotes. -/
  deserialize : String → Except StoreError P
  /-- Which of two positions a consumer meets first. -/
  order : P → P → Except StoreError Ordering

/-- Positions of a log: the number of events up to and including one, in decimal. -/
def PositionCodec.log : PositionCodec Nat where
  serialize n := toString n
  deserialize text :=
    match Numeral.parse Numeral.wordLimit text.toList with
    | .ok n => .ok n
    | .error fault => .error (.invalidPosition (Quoted.encode text ++ ": " ++ fault.message))
  order a b := .ok (compare a b)

/-- The only position of a source without events. -/
def PositionCodec.empty : PositionCodec Unit where
  serialize _ := "Empty"
  deserialize _ := .ok ()
  order _ _ := .ok .eq

end Chronicle
