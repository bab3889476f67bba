/-!
# Decimal numerals

Reading a natural number below a limit: an optional plus sign, then one or more digits. The
digits are read from the left, and at each the question whether it is a digit comes before the
question whether the value still fits, so the first defect met is the one reported.
-/

namespace Chronicle.Numeral

/-- Why a text is no numeral below the limit. -/
inductive Fault where
  /-- There is nothing to read. -/
  | empty
  /-- A character other than a digit, or a sign alone. -/
  | invalidDigit
  /-- The value reaches the limit. -/
  | tooLarge
  deriving DecidableEq, Repr

/-- The wording of a fault. -/
def Fault.message : Fault → String
  | .empty => "cannot parse integer from empty string"
  | .invalidDigit => "invalid digit found in string"
  | .tooLarge => "number too large to fit in target type"

/-- The value of a decimal digit. -/
def digit? (c : Char) : Option Nat :=
  if c.isDigit then some (c.toNat - '0'.toNat) else none

/-- Reads digits after those that gave `value`. -/
def readDigits (limit value : Nat) : List Char → Except Fault Nat
  | [] => .ok value
  | c :: rest =>
    match digit? c with
    | none => .error .invalidDigit
    | some d =>
      if value * 10 + d < limit then readDigits limit (value * 10 + d) rest
      else .error .tooLarge

/-- Reads a numeral below `limit`. -/
def parse (limit : Nat) : List Char → Except Fault Nat
  | [] => .error .empty
  | ['+'] => .error .invalidDigit
  | '+' :: digits => readDigits limit 0 digits
  | digits => readDigits limit 0 digits

/-- The number of values of a 64-bit word. -/
def wordLimit : Nat := 18446744073709551616

/-- A number written with at least `width` digits. -/
def zeroPadded (width n : Nat) : List Char :=
  let digits := Nat.toDigits 10 n
  List.replicate (width - digits.length) '0' ++ digits

end Chronicle.Numeral
