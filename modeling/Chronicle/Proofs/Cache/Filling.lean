import Chronicle.Cache.Record
import Mathlib.Data.List.TakeWhile
import Mathlib.Tactic.IntervalCases

/-!
# Outputs that are full

A record is written field by field, each field after all that were written before it. A field over its limit
ends the writing before its first byte, and an output that is full ends it where there is no more room. So what
reaches an output is always the beginning of one encoding, that of the fields before the first one over its
limit, and which of the two ends the writing depends only on whether this encoding has room. An output is
described by its room, none for one that takes any number of bytes.

Which bytes these are is told apart from how they are written: the eight fields of a record are laid out digit by
digit, each with its limit.
-/

namespace Chronicle.Cache

namespace FieldValue

/-- How many bytes the limit of a field is about: those of a text or a payload without their length. A number
has eight. -/
def size : FieldValue → Nat
  | text bytes => bytes.length
  | payload bytes => bytes.length
  | number _ => 8

/-- How many bytes a field may have. -/
def limit : FieldValue → Nat
  | text _ => 65535
  | payload _ => 2147483647
  | number _ => 8

/-- A field cannot be written exactly if it is over its limit. -/
theorem excess?_eq (field : Field) (v : FieldValue) : v.excess? field =
    if v.size ≤ v.limit then none else some (.fieldTooLarge field v.size v.limit) := by
  have hswap (length most : Nat) (e : CacheError) :
      (if most < length then some e else none) = if length ≤ most then none else some e := by
    by_cases h : length ≤ most
    · rw [if_pos h, if_neg (by omega)]
    · rw [if_neg h, if_pos (by omega)]
  cases v with
  | text bytes => exact hswap _ _ _
  | payload bytes => exact hswap _ _ _
  | number n => rfl

end FieldValue

/-- Whether a field keeps its limit. -/
def keepsLimit (entry : Field × FieldValue) : Bool := entry.2.size ≤ entry.2.limit

/-- The bytes of the fields before the first one that is over its limit. -/
def leadingBytes (fields : List (Field × FieldValue)) : List UInt8 :=
  (fields.takeWhile keepsLimit).flatMap (·.2.encode)

/-- The failure that names the first field over its limit, with its length and the most it may have. -/
def refusal? (fields : List (Field × FieldValue)) : Option CacheError :=
  (fields.find? (!keepsLimit ·)).map fun entry => .fieldTooLarge entry.1 entry.2.size entry.2.limit

section Leading

variable (field : Field) {value : FieldValue} (rest : List (Field × FieldValue))

/-- Nothing comes before a first field that is over its limit. -/
theorem leading_of_over (h : ¬ value.size ≤ value.limit) : leadingBytes ((field, value) :: rest) = [] ∧
    refusal? ((field, value) :: rest) = some (.fieldTooLarge field value.size value.limit) := by
  simp [leadingBytes, refusal?, keepsLimit, h]

/-- A first field that keeps its limit comes before what the others begin with. -/
theorem leading_of_keeps (h : value.size ≤ value.limit) :
    leadingBytes ((field, value) :: rest) = value.encode ++ leadingBytes rest ∧
      refusal? ((field, value) :: rest) = refusal? rest := by
  simp [leadingBytes, refusal?, keepsLimit, h]

/-- Fields of which none is over its limit are all leading. -/
theorem leadingBytes_of_none {rest : List (Field × FieldValue)} (h : refusal? rest = none) :
    leadingBytes rest = rest.flatMap (·.2.encode) := by
  have hall : ∀ entry ∈ rest, keepsLimit entry = true := by
    simpa [refusal?] using h
  unfold leadingBytes
  rw [List.takeWhile_eq_self_iff.2 hall]

end Leading

/-- What is written of some fields is what they begin with, as far as there is room for it. -/
theorem writeFields_eq (room : Option Nat) (fields : List (Field × FieldValue)) :
    writeFields room fields =
      if room.any (· < (leadingBytes fields).length) then
        ⟨(leadingBytes fields).take (room.getD 0), some fullOutput⟩
      else ⟨leadingBytes fields, refusal? fields⟩ := by
  induction fields generalizing room with
  | nil => cases room <;> rfl
  | cons entry rest ih =>
    obtain ⟨field, value⟩ := entry
    unfold writeFields
    rw [FieldValue.excess?_eq]
    by_cases hkeeps : value.size ≤ value.limit
    · obtain ⟨hbytes, hrefusal⟩ := leading_of_keeps field rest hkeeps
      rw [if_pos hkeeps, hbytes, hrefusal]
      dsimp only
      rw [ih]
      cases room with
      | none => rfl
      | some capacity =>
        simp only [Option.any_some, Option.map_some, Option.getD_some, decide_eq_true_eq, List.length_append]
        by_cases hfield : capacity < value.encode.length
        · rw [if_pos hfield, if_pos (by omega), List.take_append_of_le_length (by omega)]
        · rw [if_neg hfield]
          by_cases hrest : capacity - value.encode.length < (leadingBytes rest).length
          · have hwhole : value.encode.take capacity = value.encode :=
              List.take_of_length_le (Nat.le_of_not_lt hfield)
            rw [if_pos hrest, if_pos (by omega), List.take_append, hwhole]
          · rw [if_neg hrest, if_neg (by omega)]
    · obtain ⟨hbytes, hrefusal⟩ := leading_of_over field rest hkeeps
      rw [if_neg hkeeps, hbytes, hrefusal]
      cases room <;> rfl

section Layout

/-- The byte at a place of a number in two's complement, the least significant being at place 0. -/
def byteAt (n : Int) (place : Nat) : UInt8 := UInt8.ofNat (n / 256 ^ place % 256).toNat

/-- A field as it is laid out in a record. -/
structure LaidField where
  /-- Which field it is. -/
  field : Field
  /-- How many bytes its limit is about. -/
  size : Nat
  /-- How many these may be. -/
  limit : Nat
  /-- All its bytes, those of a length before it among them. -/
  bytes : List UInt8

/-- A text is laid out as its length in two bytes, so that it has at most 65535, and its UTF-8 encoding. -/
def LaidField.text (field : Field) (text : String) : LaidField :=
  let utf8 := text.toByteArray.data.toList
  ⟨field, utf8.length, 65535, [byteAt utf8.length 1, byteAt utf8.length 0] ++ utf8⟩

/-- A number is laid out in eight bytes. -/
def LaidField.number (field : Field) (n : Int) : LaidField :=
  ⟨field, 8, 8, [byteAt n 7, byteAt n 6, byteAt n 5, byteAt n 4, byteAt n 3, byteAt n 2, byteAt n 1, byteAt n 0]⟩

/-- A payload is laid out as its length in four bytes, of which the sign is not used, and its bytes. -/
def LaidField.payload (field : Field) (payload : List UInt8) : LaidField :=
  ⟨field, payload.length, 2147483647,
    [byteAt payload.length 3, byteAt payload.length 2, byteAt payload.length 1, byteAt payload.length 0] ++ payload⟩

theorem LaidField.size_text (field : Field) (value : String) :
    (LaidField.text field value).size = (Utf8.encode value).length := rfl

/-- The fields of a record in the order in which they are laid out. The timestamp is in milliseconds, rounded
down. -/
def CachedRecord.laidOut (r : CachedRecord) : List LaidField :=
  [.text .position r.position,
    .number .timestamp (r.record.timestamp.nanos / 1000000),
    .text .category r.record.stream.category,
    .text .streamId r.record.stream.id,
    .number .eventNumber r.record.number,
    .text .eventType r.record.eventType,
    .payload .data r.record.data,
    .payload .metadata r.record.metadata]

/-- The bytes of a natural number are its digits. -/
theorem byteAt_natCast (n place : Nat) : byteAt n place = UInt8.ofNat (n / 256 ^ place) := by
  have hcast : ((n : Int) / 256 ^ place % 256).toNat = n / 256 ^ place % 256 := by norm_cast
  unfold byteAt
  rw [hcast]
  apply UInt8.toNat_inj.1
  rw [UInt8.toNat_ofNat', UInt8.toNat_ofNat']
  exact Nat.mod_mod _ _

/-- The first eight bytes of a number do not change if it is reduced to them. -/
theorem byteAt_toWord (n : Int) {place : Nat} (h : place < 8) :
    byteAt (Bytes.toWord Bytes.modulus64 n) place = byteAt n place := by
  have hword : (Bytes.toWord Bytes.modulus64 n : Int) = n % 18446744073709551616 :=
    Int.toNat_of_nonneg (Int.emod_nonneg n (by decide))
  have hplace : (n % 18446744073709551616) / 256 ^ place % 256 = n / 256 ^ place % 256 := by
    interval_cases place <;> omega
  unfold byteAt
  rw [hword, hplace]

/-- Two digits, the most significant first. -/
theorem bigEndian_two (n : Nat) : Bytes.bigEndian 2 n = [byteAt n 1, byteAt n 0] := by
  simp [byteAt_natCast, Bytes.bigEndian, Bytes.littleEndian]

/-- Four digits, the most significant first. -/
theorem bigEndian_four (n : Nat) :
    Bytes.bigEndian 4 n = [byteAt n 3, byteAt n 2, byteAt n 1, byteAt n 0] := by
  simp [byteAt_natCast, Bytes.bigEndian, Bytes.littleEndian, Nat.div_div_eq_div_mul]

/-- Eight digits, the most significant first. -/
theorem bigEndian_eight (n : Nat) : Bytes.bigEndian 8 n =
    [byteAt n 7, byteAt n 6, byteAt n 5, byteAt n 4, byteAt n 3, byteAt n 2, byteAt n 1, byteAt n 0] := by
  simp [byteAt_natCast, Bytes.bigEndian, Bytes.littleEndian, Nat.div_div_eq_div_mul]

/-- A field with its value as it is laid out. -/
def laid (entry : Field × FieldValue) : LaidField :=
  ⟨entry.1, entry.2.size, entry.2.limit, entry.2.encode⟩

theorem laid_text (field : Field) (text : String) : laid (field, .text (Utf8.encode text)) = .text field text :=
  congrArg (fun digits => LaidField.mk field _ 65535 (digits ++ Utf8.encode text)) (bigEndian_two _)

theorem laid_number (field : Field) (n : Int) : laid (field, .number n) = .number field n := by
  have hword : Bytes.bigEndian 8 (Bytes.toWord Bytes.modulus64 n) = (LaidField.number field n).bytes := by
    rw [bigEndian_eight]
    simp (disch := decide) only [byteAt_toWord, LaidField.number]
  exact congrArg (LaidField.mk field 8 8) hword

theorem laid_payload (field : Field) (bytes : List UInt8) : laid (field, .payload bytes) = .payload field bytes :=
  congrArg (fun digits => LaidField.mk field _ 2147483647 (digits ++ bytes)) (bigEndian_four _)

/-- A record is laid out field by field. -/
theorem laidOut_eq (r : CachedRecord) : r.laidOut = r.fields.map laid := by
  unfold CachedRecord.laidOut CachedRecord.fields
  simp only [List.map_cons, List.map_nil, laid_text, laid_number, laid_payload]
  rfl

end Layout

/-- A record is written to an output of any capacity exactly as far as its first field over its limit and the
room of the output let it. With the bytes of all fields before that field, or of the whole record if there is
no such field: if they have room, they are what is written, and the result names the field with its length and
its limit, or is a success if there is none. If they have no room, as many of them are written as there is
room for, and the result is the failure of a full output. -/
theorem write_fills_output (r : CachedRecord) (capacity : Nat) :
    let offender := r.laidOut.find? fun part => part.limit < part.size
    let before := r.laidOut.takeWhile fun part => part.size ≤ part.limit
    let encoding := before.flatMap (·.bytes)
    (offender = none → before = r.laidOut ∧ encoding = r.encode) ∧
      r.write (some capacity) =
        if encoding.length ≤ capacity then
          ⟨encoding, offender.map fun part => .fieldTooLarge part.field part.size part.limit⟩
        else ⟨encoding.take capacity, some (.io "failed to write whole buffer")⟩ := by
  intro offender before encoding
  have hrefusal : refusal? r.fields =
      offender.map fun part => .fieldTooLarge part.field part.size part.limit := by
    have htest : (fun part : LaidField => decide (part.limit < part.size)) ∘ laid = (!keepsLimit ·) := by
      funext entry
      rw [Function.comp_apply, keepsLimit, ← decide_not]
      exact decide_eq_decide.2 Nat.not_le.symm
    change refusal? r.fields = (r.laidOut.find? _).map _
    rw [laidOut_eq, List.find?_map, htest, Option.map_map]
    rfl
  have hleading : leadingBytes r.fields = encoding := by
    change _ = (r.laidOut.takeWhile _).flatMap _
    rw [laidOut_eq, List.takeWhile_map, List.flatMap_map]
    rfl
  constructor
  · intro hnone
    have hkept : before = r.laidOut := by
      refine List.takeWhile_eq_self_iff.2 fun part hp => ?_
      simpa using List.find?_eq_none.1 hnone part hp
    rw [hnone] at hrefusal
    exact ⟨hkept, hleading.symm.trans (leadingBytes_of_none hrefusal)⟩
  · have hwritten := writeFields_eq (some capacity) r.fields
    rw [hrefusal, hleading] at hwritten
    change writeFields (some capacity) r.fields = _
    rw [hwritten]
    simp only [Option.any_some, decide_eq_true_eq, Option.getD_some]
    by_cases hroom : encoding.length ≤ capacity
    · rw [if_pos hroom, if_neg (Nat.not_lt.2 hroom)]
    · rw [if_neg hroom, if_pos (Nat.lt_of_not_le hroom)]
      rfl

/-- A text that has one byte more than is allowed. -/
def overlong : String := String.ofList (List.replicate (maxText + 1) 'x')

/-- A text of one letter has as many bytes as there are letters. -/
theorem length_encode_replicate (n : Nat) :
    (Utf8.encode (String.ofList (List.replicate n 'x'))).length = n := by
  induction n with
  | zero => rfl
  | succ n ih =>
    have hsplit : String.ofList (List.replicate (n + 1) 'x') = "x" ++ String.ofList (List.replicate n 'x') := by
      apply String.toList_injective
      simp [List.replicate_succ]
    have hbytes : (Utf8.encode (String.ofList (List.replicate (n + 1) 'x'))).length =
        (Utf8.encode "x").length + (Utf8.encode (String.ofList (List.replicate n 'x'))).length := by
      rw [hsplit]
      simp [Utf8.encode]
    rw [hbytes, ih, Nat.add_comm]
    rfl

theorem length_overlong : (Utf8.encode overlong).length = 65536 := length_encode_replicate 65536

/-- A record whose type is too long is written up to its type where that much has room, and else as far as there
is room, here into the middle of its time. With another type it is written whole. -/
theorem write_fills_output_up_to_type :
    let cached (eventType : String) : CachedRecord :=
      ⟨"é", ⟨⟨-1500000, by decide⟩, ⟨"orders", "1", by decide⟩, 258, eventType, [7], []⟩⟩
    let before : List UInt8 :=
      [0, 2, 0xC3, 0xA9, 0xFF, 0xFF, 0xFF, 0xFF, 0xFF, 0xFF, 0xFF, 0xFE, 0, 6, 111, 114, 100, 101, 114, 115,
        0, 1, 49, 0, 0, 0, 0, 0, 0, 1, 2]
    let after : List UInt8 := [0, 4, 80, 97, 105, 100, 0, 0, 0, 1, 7, 0, 0, 0, 0]
    (cached overlong).write (some 31) = ⟨before, some (.fieldTooLarge .eventType 65536 65535)⟩ ∧
      (cached overlong).write (some 6) =
        ⟨[0, 2, 0xC3, 0xA9, 0xFF, 0xFF], some (.io "failed to write whole buffer")⟩ ∧
      (cached "Paid").write (some 46) = ⟨before ++ after, none⟩ := by
  intro cached before after
  have hlaid : (cached overlong).laidOut =
      (cached "").laidOut.take 5 ++ .text .eventType overlong :: (cached "").laidOut.drop 6 := rfl
  have hsize : (LaidField.text .eventType overlong).size = 65536 := by
    rw [LaidField.size_text, length_overlong]
  have hover : (LaidField.text .eventType overlong).limit < (LaidField.text .eventType overlong).size := by
    rw [hsize]
    decide
  have hoffender : (cached overlong).laidOut.find? (fun part => part.limit < part.size) =
      some (.text .eventType overlong) := by
    have hnone : ((cached "").laidOut.take 5).find? (fun part => part.limit < part.size) = none := by decide
    rw [hlaid, List.find?_append, hnone, Option.none_or, List.find?_cons_of_pos (by simpa using hover)]
  have hbefore : ((cached overlong).laidOut.takeWhile fun part => part.size ≤ part.limit).flatMap (·.bytes) =
      before := by
    have hkept : ∀ part ∈ (cached "").laidOut.take 5, decide (part.size ≤ part.limit) = true := by decide
    rw [hlaid, List.takeWhile_append_of_pos hkept, List.takeWhile_cons_of_neg (by simpa using hover)]
    decide +kernel
  refine ⟨?_, ?_, ?_⟩
  · have hwritten := (write_fills_output (cached overlong) 31).2
    rw [hoffender, hbefore, Option.map_some, hsize] at hwritten
    exact hwritten
  · have hwritten := (write_fills_output (cached overlong) 6).2
    rw [hbefore] at hwritten
    exact hwritten
  · have hwritten := (write_fills_output (cached "Paid") 46).2
    have hwhole : ((cached "Paid").laidOut.takeWhile fun part => part.size ≤ part.limit).flatMap (·.bytes) =
        before ++ after := by
      decide +kernel
    rw [hwhole] at hwritten
    exact hwritten

end Chronicle.Cache
