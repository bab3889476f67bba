/-!
# Numbers as bytes

Fixed-width numbers, most or least significant byte first, and the two's complement of a signed
number. A number that does not fit is reduced to what does. Digits and the numbers that fit determine
each other, in both orders.
-/

namespace Chronicle.Bytes

/-- The last `width` base-256 digits of a number, the least significant first. -/
def littleEndian : Nat → Nat → List UInt8
  | 0, _ => []
  | width + 1, n => UInt8.ofNat n :: littleEndian width (n / 256)

/-- The number with the given digits, the least significant first. -/
def ofLittleEndian : List UInt8 → Nat
  | [] => 0
  | b :: rest => b.toNat + 256 * ofLittleEndian rest

/-- The last `width` base-256 digits of a number, the most significant first. -/
def bigEndian (width n : Nat) : List UInt8 := (littleEndian width n).reverse

/-- The number with the given digits, the most significant first. -/
def ofBigEndian (bytes : List UInt8) : Nat := ofLittleEndian bytes.reverse

@[simp] theorem length_littleEndian (width n : Nat) : (littleEndian width n).length = width := by
  induction width generalizing n <;> simp [littleEndian, *]

@[simp] theorem length_bigEndian (width n : Nat) : (bigEndian width n).length = width := by
  simp [bigEndian]

/-- How many numbers have a given number of digits. -/
def span : Nat → Nat
  | 0 => 1
  | width + 1 => 256 * span width

theorem ofLittleEndian_lt (bytes : List UInt8) : ofLittleEndian bytes < span bytes.length := by
  induction bytes with
  | nil => exact Nat.one_pos
  | cons b rest ih =>
    have hb := b.toNat_lt
    simp only [ofLittleEndian, List.length_cons, span]
    omega

/-- A number that fits is its digits. -/
theorem ofLittleEndian_littleEndian {width n : Nat} (h : n < span width) :
    ofLittleEndian (littleEndian width n) = n := by
  induction width generalizing n with
  | zero =>
    simp only [span] at h
    simp only [littleEndian, ofLittleEndian]
    omega
  | succ width ih =>
    have hq : n / 256 < span width := by
      simp only [span] at h
      omega
    simp only [littleEndian, ofLittleEndian, ih hq, UInt8.toNat_ofNat']
    omega

/-- Digits are those of the number they stand for. -/
theorem littleEndian_ofLittleEndian (bytes : List UInt8) :
    littleEndian bytes.length (ofLittleEndian bytes) = bytes := by
  induction bytes with
  | nil => rfl
  | cons b rest ih =>
    have hb := b.toNat_lt
    have hq : (b.toNat + 256 * ofLittleEndian rest) / 256 = ofLittleEndian rest := by omega
    have hr : UInt8.ofNat (b.toNat + 256 * ofLittleEndian rest) = b := by
      apply UInt8.toNat_inj.1
      rw [UInt8.toNat_ofNat']
      omega
    simp only [List.length_cons, littleEndian, ofLittleEndian, hq, hr, ih]

theorem ofBigEndian_lt (bytes : List UInt8) : ofBigEndian bytes < span bytes.length := by
  have h := ofLittleEndian_lt bytes.reverse
  rwa [List.length_reverse] at h

/-- A number that fits is its digits, the most significant first. -/
theorem ofBigEndian_bigEndian {width n : Nat} (h : n < span width) :
    ofBigEndian (bigEndian width n) = n := by
  rw [ofBigEndian, bigEndian, List.reverse_reverse, ofLittleEndian_littleEndian h]

/-- Digits are those of the number they stand for, the most significant first. -/
theorem bigEndian_ofBigEndian (bytes : List UInt8) :
    bigEndian bytes.length (ofBigEndian bytes) = bytes := by
  have h := littleEndian_ofLittleEndian bytes.reverse
  rw [List.length_reverse] at h
  rw [bigEndian, ofBigEndian, h, List.reverse_reverse]

/-- The number of values of four bytes. -/
def modulus32 : Nat := 4294967296

/-- The number of values of eight bytes. -/
def modulus64 : Nat := 18446744073709551616

/-- A signed number as the unsigned one that is equal to it up to the modulus. -/
def toWord (modulus : Nat) (n : Int) : Nat := (n % modulus).toNat

/-- The signed number that an unsigned one below the modulus stands for. -/
def ofWord (modulus n : Nat) : Int := if modulus ≤ 2 * n then (n : Int) - modulus else n

theorem span_four : span 4 = modulus32 := rfl

theorem span_eight : span 8 = modulus64 := rfl

theorem toWord_lt {modulus : Nat} (h : 0 < modulus) (n : Int) : toWord modulus n < modulus := by
  have hl := Int.emod_nonneg n (show (modulus : Int) ≠ 0 by omega)
  have hu := Int.emod_lt_of_pos n (show (0 : Int) < modulus by omega)
  unfold toWord
  omega

/-- A signed number in the middle range of the modulus comes back. -/
theorem ofWord_toWord {modulus : Nat} {n : Int} (hl : -(modulus : Int) ≤ 2 * n)
    (hu : 2 * n < modulus) : ofWord modulus (toWord modulus n) = n := by
  unfold ofWord toWord
  by_cases hn : 0 ≤ n
  · rw [Int.emod_eq_of_lt hn (by omega)]
    split <;> omega
  · have he : n % (modulus : Int) = n + modulus := by
      rw [← Int.add_emod_right, Int.emod_eq_of_lt (by omega) (by omega)]
    rw [he]
    split <;> omega

/-- An unsigned number below the modulus comes back. -/
theorem toWord_ofWord {modulus n : Nat} (h : n < modulus) :
    toWord modulus (ofWord modulus n) = n := by
  unfold ofWord toWord
  split
  · rw [Int.sub_emod_right, Int.emod_eq_of_lt (by omega) (by omega)]
    omega
  · rw [Int.emod_eq_of_lt (by omega) (by omega)]
    omega

end Chronicle.Bytes
