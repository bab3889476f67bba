import Chronicle.Proofs.Cache.Records
import Chronicle.Proofs.Files.Trees

/-!
# Records and bytes correspond

Whatever is read as a field stands at the front of the bytes exactly as it is written, and it is within
the limits of the format. So a record that is read is written back to the bytes that it was read from,
and bytes that are read record after record up to a clean end are the bytes of those records and of no
others. Together with the reading of what was written, records and bytes that end cleanly determine each
other, but for the fraction of a millisecond in a timestamp.
-/

namespace Chronicle

namespace ByteSource

variable (failure : Option IoError)

/-- From bytes that are all there, no more are collected than there are. -/
theorem collect_all (asking : Asking) {count : Nat} {bytes : List UInt8} (h : bytes.length ≤ count) :
    collect asking count (Arrival.ofBytes bytes) = (bytes, []) := by
  have hnil (asking : Asking) (count : Nat) : collect asking count [] = ([], []) := by
    cases count <;> rfl
  cases bytes with
  | nil => exact hnil asking count
  | cons b rest =>
    cases count with
    | zero => exact absurd h (Nat.not_succ_le_zero _)
    | succ count =>
      have hd : rest.drop count = [] := List.drop_of_length_le (Nat.le_of_succ_le_succ h)
      simp only [Arrival.ofBytes, collect, hd, hnil, List.append_nil]

/-- More bytes than there are cannot be taken. -/
theorem take_too_many (asking : Asking) {count : Nat} {bytes : List UInt8} (h : bytes.length < count) :
    (ofBytes bytes failure).take count asking =
      match failure with
      | none => .short bytes
      | some e => .failed e := by
  unfold take ofBytes
  dsimp only
  rw [collect_all asking (Nat.le_of_lt h)]
  cases failure with
  | none => exact if_neg (Nat.ne_of_lt h)
  | some e => exact if_neg (Nat.ne_of_lt h)

/-- Bytes that were taken whole stood at the front, and the others are left. -/
theorem of_take_ofBytes {asking : Asking} {count : Nat} {bytes taken : List UInt8} {later : ByteSource}
    (h : (ofBytes bytes failure).take count asking = .whole taken later) :
    taken.length = count ∧ ∃ rest, bytes = taken ++ rest ∧ later = ofBytes rest failure := by
  by_cases hc : count ≤ bytes.length
  · have hl : (bytes.take count).length = count := List.length_take_of_le hc
    have ht := take_ofBytes failure asking hl (bytes.drop count)
    rw [List.take_append_drop, h] at ht
    cases ht
    exact ⟨hl, bytes.drop count, (List.take_append_drop count bytes).symm, rfl⟩
  · rw [take_too_many failure asking (Nat.lt_of_not_le hc)] at h
    cases failure with
    | none => cases h
    | some e => cases h

/-- Bytes that were too few are all that were there. -/
theorem of_take_short {asking : Asking} {count : Nat} {bytes taken : List UInt8}
    (h : (ofBytes bytes failure).take count asking = .short taken) : taken = bytes := by
  by_cases hc : count ≤ bytes.length
  · have hl : (bytes.take count).length = count := List.length_take_of_le hc
    have ht := take_ofBytes failure asking hl (bytes.drop count)
    rw [List.take_append_drop, h] at ht
    cases ht
  · rw [take_too_many failure asking (Nat.lt_of_not_le hc)] at h
    cases failure with
    | none =>
      cases h
      rfl
    | some e => cases h

end ByteSource

namespace Cache

/-- A record within the limits of the format: texts of at most 65535 bytes, payloads of at most 2147483647
bytes, and a number of eight bytes. -/
structure CachedRecord.Storable (r : CachedRecord) : Prop where
  /-- The position's text. -/
  position_le : (Utf8.encode r.position).length ≤ maxText
  /-- The category. -/
  category_le : (Utf8.encode r.record.stream.category).length ≤ maxText
  /-- The stream's name within its category. -/
  id_le : (Utf8.encode r.record.stream.id).length ≤ maxText
  /-- The type of the event. -/
  eventType_le : (Utf8.encode r.record.eventType).length ≤ maxText
  /-- The payload. -/
  data_le : r.record.data.length ≤ maxPayload
  /-- What is noted about the payload. -/
  metadata_le : r.record.metadata.length ≤ maxPayload
  /-- The number in the stream. -/
  number_fits : -(Bytes.modulus64 : Int) ≤ 2 * r.record.number ∧ 2 * r.record.number < Bytes.modulus64

/-- A record within the limits can be written and read back. -/
theorem CachedRecord.Storable.fits {r : CachedRecord} (h : r.Storable) : r.Fits := by
  refine ⟨?_, h.number_fits⟩
  simp only [CachedRecord.fields, List.mem_cons, List.not_mem_nil, or_false, forall_eq_or_imp, forall_eq,
    FieldValue.excess?, ite_eq_right_iff, reduceCtorEq, imp_false, Nat.not_lt, true_and]
  exact ⟨h.position_le, h.category_le, h.id_le, h.eventType_le, h.data_le, h.metadata_le⟩

section Fields

variable {field : Field} {failure : Option IoError} {bytes : List UInt8} {later : ByteSource}

/-- Bytes that are read of a field stood at the front. -/
theorem of_readBytes {count : Nat} {taken : List UInt8}
    (h : readBytes field count (.ofBytes bytes failure) = .ok (taken, later)) :
    taken.length = count ∧ ∃ rest, bytes = taken ++ rest ∧ later = .ofBytes rest failure := by
  unfold readBytes at h
  split at h
  · rename_i ht
    cases h
    exact ByteSource.of_take_ofBytes failure ht
  · cases h
  · cases h

/-- Bytes that are read as a payload stood at the front. -/
theorem of_readBody {count : Nat} {taken : List UInt8}
    (h : readBody field count (.ofBytes bytes failure) = .ok (taken, later)) :
    taken.length = count ∧ ∃ rest, bytes = taken ++ rest ∧ later = .ofBytes rest failure := by
  unfold readBody at h
  split at h
  · rename_i ht
    cases h
    exact ByteSource.of_take_ofBytes failure ht
  · cases h
  · cases h

/-- A number that is read stood at the front as it is written, and has eight bytes. -/
theorem of_readNumber {n : Int} (h : readNumber field (.ofBytes bytes failure) = .ok (n, later)) :
    (-(Bytes.modulus64 : Int) ≤ 2 * n ∧ 2 * n < Bytes.modulus64) ∧
      ∃ rest, bytes = (FieldValue.number n).encode ++ rest ∧ later = .ofBytes rest failure := by
  obtain ⟨⟨digits, source⟩, hb, h⟩ := Except.bind_eq_ok_iff.1 h
  cases h
  obtain ⟨hl, rest, rfl, rfl⟩ := of_readBytes hb
  have hlt : Bytes.ofBigEndian digits < Bytes.modulus64 := by
    have hspan := Bytes.ofBigEndian_lt digits
    rwa [hl, Bytes.span_eight] at hspan
  have hdigits : (FieldValue.number (Bytes.ofWord Bytes.modulus64 (Bytes.ofBigEndian digits))).encode =
      digits := by
    unfold FieldValue.encode
    dsimp only
    rw [Bytes.toWord_ofWord hlt, ← hl, Bytes.bigEndian_ofBigEndian]
  refine ⟨?_, rest, by rw [hdigits], rfl⟩
  unfold Bytes.ofWord
  split <;> omega

/-- A text of a known length that is read stood at the front. -/
theorem of_readTextBody {length : Nat} {text : String}
    (h : readTextBody field length (.ofBytes bytes failure) = .ok (text, later)) :
    (Utf8.encode text).length = length ∧
      ∃ rest, bytes = Utf8.encode text ++ rest ∧ later = .ofBytes rest failure := by
  obtain ⟨⟨taken, source⟩, hb, h⟩ := Except.bind_eq_ok_iff.1 h
  dsimp only at h
  split at h
  · rename_i hd
    cases h
    have he := Utf8.encode_of_decode? hd
    obtain ⟨hl, hrest⟩ := of_readBytes hb
    rw [he]
    exact ⟨hl, hrest⟩
  · cases h

/-- The two bytes before a text are its length. -/
theorem bigEndian_textLength {digits : List UInt8} (hl : digits.length = 2) :
    Bytes.ofBigEndian digits ≤ maxText ∧ Bytes.bigEndian 2 (Bytes.ofBigEndian digits) = digits := by
  have hspan := Bytes.ofBigEndian_lt digits
  rw [hl] at hspan
  refine ⟨by simp only [Bytes.span, maxText] at hspan ⊢; omega, ?_⟩
  rw [← hl, Bytes.bigEndian_ofBigEndian]

/-- A text that is read stood at the front as it is written, and is within the limit. -/
theorem of_readText {text : String} (h : readText field (.ofBytes bytes failure) = .ok (text, later)) :
    (Utf8.encode text).length ≤ maxText ∧ ∃ rest,
      bytes = (FieldValue.text (Utf8.encode text)).encode ++ rest ∧ later = .ofBytes rest failure := by
  obtain ⟨⟨digits, source⟩, hb, h⟩ := Except.bind_eq_ok_iff.1 h
  obtain ⟨hl, rest, rfl, rfl⟩ := of_readBytes hb
  obtain ⟨hlength, rest, rfl, rfl⟩ := of_readTextBody h
  obtain ⟨hle, hdigits⟩ := bigEndian_textLength hl
  rw [← hlength] at hle hdigits
  refine ⟨hle, rest, ?_, rfl⟩
  unfold FieldValue.encode
  dsimp only
  rw [hdigits, List.append_assoc]

/-- A payload that is read stood at the front as it is written, and is within the limit. -/
theorem of_readPayload {payload : List UInt8}
    (h : readPayload field (.ofBytes bytes failure) = .ok (payload, later)) :
    payload.length ≤ maxPayload ∧ ∃ rest,
      bytes = (FieldValue.payload payload).encode ++ rest ∧ later = .ofBytes rest failure := by
  obtain ⟨⟨digits, source⟩, hb, h⟩ := Except.bind_eq_ok_iff.1 h
  obtain ⟨hl, rest, rfl, rfl⟩ := of_readBytes hb
  obtain ⟨hn, h⟩ := Except.refuse_eq_ok_iff.1 h
  obtain ⟨hlength, rest, rfl, rfl⟩ := of_readBody h
  have hspan := Bytes.ofBigEndian_lt digits
  rw [hl, Bytes.span_four] at hspan
  -- a length that is not below zero is the number that its digits are
  have hword : Bytes.ofWord Bytes.modulus32 (Bytes.ofBigEndian digits) = Bytes.ofBigEndian digits := by
    unfold Bytes.ofWord at hn ⊢
    by_cases hhigh : Bytes.modulus32 ≤ 2 * Bytes.ofBigEndian digits
    · rw [if_pos hhigh] at hn
      omega
    · rw [if_neg hhigh]
  have hlow : 2 * Bytes.ofBigEndian digits < Bytes.modulus32 := by
    unfold Bytes.ofWord at hword
    split at hword
    · simp only [Bytes.modulus32] at hword
      omega
    · omega
  rw [hword, Int.toNat_natCast] at hlength
  refine ⟨by simp only [Bytes.modulus32, maxPayload] at hlow ⊢; omega, rest, ?_, rfl⟩
  unfold FieldValue.encode
  dsimp only
  rw [hlength, ← hl, Bytes.bigEndian_ofBigEndian, List.append_assoc]

end Fields

section Records

variable {failure : Option IoError} {bytes : List UInt8} {later : ByteSource}

/-- What is read at the beginning of a record stood at the front. Nothing is read where the bytes end. -/
theorem of_readStart {start : Option (Nat × ByteSource)}
    (h : readStart (.ofBytes bytes failure) = .ok start) :
    match start with
    | none => bytes = []
    | some (length, later) => length ≤ maxText ∧
        ∃ rest, bytes = Bytes.bigEndian 2 length ++ rest ∧ later = .ofBytes rest failure := by
  unfold readStart at h
  cases ht : (ByteSource.ofBytes bytes failure).take 2 with
  | whole digits source =>
    rw [ht] at h
    cases h
    obtain ⟨hl, rest, rfl, rfl⟩ := ByteSource.of_take_ofBytes failure ht
    obtain ⟨hle, hdigits⟩ := bigEndian_textLength hl
    exact ⟨hle, rest, by rw [hdigits], rfl⟩
  | short taken =>
    rw [ht] at h
    cases taken with
    | cons b rest => cases h
    | nil =>
      cases h
      exact (ByteSource.of_take_short failure ht).symm
  | failed e =>
    rw [ht] at h
    cases h

/-- What is read after the length of its position completes a record as it is written, within the limits. -/
theorem of_readRest {length : Nat} (hle : length ≤ maxText) {r : CachedRecord}
    (h : readRest length (.ofBytes bytes failure) = .ok (r, later)) :
    r.Storable ∧ r.floored = r ∧
      ∃ rest, Bytes.bigEndian 2 length ++ bytes = r.encode ++ rest ∧ later = .ofBytes rest failure := by
  unfold readRest at h
  obtain ⟨⟨position, source⟩, hread, h⟩ := Except.bind_eq_ok_iff.1 h
  obtain ⟨hposition, rest, rfl, rfl⟩ := of_readTextBody hread
  obtain ⟨⟨ms, source⟩, hread, h⟩ := Except.bind_eq_ok_iff.1 h
  obtain ⟨-, rest, rfl, rfl⟩ := of_readNumber hread
  dsimp only at h
  cases htime : Timestamp.ofMillis? ms with
  | none =>
    rw [htime] at h
    cases h
  | some timestamp =>
    rw [htime] at h
    dsimp only at h
    rw [pure_bind] at h
    obtain ⟨⟨category, source⟩, hread, h⟩ := Except.bind_eq_ok_iff.1 h
    obtain ⟨hcategory, rest, rfl, rfl⟩ := of_readText hread
    obtain ⟨⟨id, source⟩, hread, h⟩ := Except.bind_eq_ok_iff.1 h
    obtain ⟨hid, rest, rfl, rfl⟩ := of_readText hread
    dsimp only at h
    cases hstream : StreamId.ofParts category id with
    | error e =>
      rw [hstream] at h
      cases h
    | ok stream =>
      rw [hstream] at h
      dsimp only at h
      rw [pure_bind] at h
      obtain ⟨⟨number, source⟩, hread, h⟩ := Except.bind_eq_ok_iff.1 h
      obtain ⟨hnumber, rest, rfl, rfl⟩ := of_readNumber hread
      obtain ⟨⟨eventType, source⟩, hread, h⟩ := Except.bind_eq_ok_iff.1 h
      obtain ⟨htype, rest, rfl, rfl⟩ := of_readText hread
      obtain ⟨⟨data, source⟩, hread, h⟩ := Except.bind_eq_ok_iff.1 h
      obtain ⟨hdata, rest, rfl, rfl⟩ := of_readPayload hread
      obtain ⟨⟨metadata, source⟩, hread, h⟩ := Except.bind_eq_ok_iff.1 h
      obtain ⟨hmetadata, rest, rfl, rfl⟩ := of_readPayload hread
      cases h
      obtain ⟨hms, hfloored⟩ := Timestamp.millis_of_ofMillis? htime
      obtain ⟨rfl, rfl⟩ := StreamId.ofParts_eq_ok_iff.1 hstream
      refine ⟨⟨?_, hcategory, hid, htype, hdata, hmetadata, hnumber⟩, ?_, rest, ?_, rfl⟩
      · rw [hposition]
        exact hle
      · unfold CachedRecord.floored EventRecord.floored
        dsimp only
        rw [hfloored]
      · rw [CachedRecord.encode_eq, hposition, hms]

/-- A record that is read stood at the front as it is written, and is within the limits. -/
theorem of_readRecord {r : CachedRecord}
    (h : readRecord (.ofBytes bytes failure) = .ok (some (r, later))) :
    r.Storable ∧ r.floored = r ∧ ∃ rest, bytes = r.encode ++ rest ∧ later = .ofBytes rest failure := by
  obtain ⟨start, hs, h⟩ := Except.bind_eq_ok_iff.1 h
  have hstart := of_readStart hs
  cases start with
  | none => cases h
  | some begun =>
    obtain ⟨length, source⟩ := begun
    obtain ⟨hle, rest, rfl, rfl⟩ := hstart
    obtain ⟨read, hread, h⟩ := Except.bind_eq_ok_iff.1 h
    cases h
    exact of_readRest hle hread

/-- Nothing is read only where the bytes end. -/
theorem of_readRecord_none (h : readRecord (.ofBytes bytes failure) = .ok none) : bytes = [] := by
  obtain ⟨start, hs, h⟩ := Except.bind_eq_ok_iff.1 h
  have hstart := of_readStart hs
  cases start with
  | none => exact hstart
  | some begun =>
    obtain ⟨read, -, h⟩ := Except.bind_eq_ok_iff.1 h
    cases h

end Records

/-- Reading record after record yields these, and then the bytes end cleanly. -/
inductive ReadsOut : ByteSource → List CachedRecord → Prop where
  /-- There is no further record. -/
  | ended {source : ByteSource} (h : readRecord source = .ok none) : ReadsOut source []
  /-- A record, and those that are read after it. -/
  | record {source later : ByteSource} {r : CachedRecord} {rest : List CachedRecord}
    (h : readRecord source = .ok (some (r, later))) (hrest : ReadsOut later rest) :
    ReadsOut source (r :: rest)

/-- Writes records one after the other, up to a failure, to an output that takes any number of bytes. -/
def writeAll : List CachedRecord → Written
  | [] => ⟨[], none⟩
  | r :: rest =>
    let written := r.write none
    match written.failure with
    | some e => ⟨written.bytes, some e⟩
    | none => ⟨written.bytes ++ (writeAll rest).bytes, (writeAll rest).failure⟩

/-- Fields within their limits are written whole. -/
theorem writeFields_of_no_excess {fields : List (Field × FieldValue)}
    (h : ∀ entry ∈ fields, entry.2.excess? entry.1 = none) :
    writeFields none fields = ⟨fields.flatMap (·.2.encode), none⟩ := by
  induction fields with
  | nil => rfl
  | cons first rest ih =>
    have hfirst := h first List.mem_cons_self
    have hrest := ih fun entry he => h entry (List.mem_cons_of_mem first he)
    unfold writeFields
    rw [hfirst]
    simp only [Option.any_none, Bool.false_eq_true, if_false, Option.map_none, hrest, List.flatMap_cons]

/-- Records within the limits are written whole. -/
theorem writeAll_of_storable {records : List CachedRecord} (h : ∀ r ∈ records, r.Storable) :
    writeAll records = ⟨encodeAll records, none⟩ := by
  induction records with
  | nil => rfl
  | cons r rest ih =>
    have hr : r.write none = ⟨r.encode, none⟩ :=
      writeFields_of_no_excess (h r List.mem_cons_self).fits.no_excess
    have hrest := ih fun other ho => h other (List.mem_cons_of_mem r ho)
    unfold writeAll
    rw [hr, hrest]
    rfl

/-- Records within the limits are read out of their bytes. -/
theorem readsOut_encodeAll {records : List CachedRecord} (h : ∀ r ∈ records, r.Storable) :
    ReadsOut (.ofBytes (encodeAll records)) (records.map (·.floored)) := by
  induction records with
  | nil => exact .ended readRecord_encodeAll_nil
  | cons r rest ih =>
    exact .record (readRecord_encodeAll_cons (h r List.mem_cons_self).fits rest)
      (ih fun other ho => h other (List.mem_cons_of_mem r ho))

/-- Records that are read out of bytes are within the limits, in whole milliseconds, and the bytes are
theirs. -/
theorem ReadsOut.bytes_eq {bytes : List UInt8} {records : List CachedRecord}
    (h : ReadsOut (.ofBytes bytes) records) :
    bytes = encodeAll records ∧ ∀ r ∈ records, r.Storable ∧ r.floored = r := by
  generalize hs : ByteSource.ofBytes bytes = source at h
  induction h generalizing bytes with
  | ended h =>
    subst hs
    exact ⟨of_readRecord_none h, fun r hr => absurd hr List.not_mem_nil⟩
  | record h _ ih =>
    subst hs
    obtain ⟨hstorable, hfloored, rest, rfl, rfl⟩ := of_readRecord h
    obtain ⟨rfl, hall⟩ := ih rfl
    refine ⟨rfl, ?_⟩
    intro other ho
    rcases List.mem_cons.1 ho with rfl | ho
    · exact ⟨hstorable, hfloored⟩
    · exact hall other ho

/-- Reading all records of some bytes without a failure is reading them out. -/
theorem readAll_eq_iff {bytes : List UInt8} {records : List CachedRecord} :
    readAll (.ofBytes bytes) = (records, none) ↔ ReadsOut (.ofBytes bytes) records := by
  have hwithin : ∀ steps bytes records, bytes.length < steps →
      readAllWithin steps (.ofBytes bytes) = (records, none) → ReadsOut (.ofBytes bytes) records := by
    intro steps
    induction steps with
    | zero => exact fun bytes _ hlt => absurd hlt (Nat.not_lt_zero _)
    | succ steps ih =>
      intro bytes records hlt hread
      unfold readAllWithin at hread
      cases h : readRecord (.ofBytes bytes) with
      | error e =>
        rw [h] at hread
        cases hread
      | ok read =>
        rw [h] at hread
        cases read with
        | none =>
          cases hread
          exact .ended h
        | some read =>
          obtain ⟨r, later⟩ := read
          obtain ⟨-, -, rest, rfl, rfl⟩ := of_readRecord h
          have hpos := r.encode_length_pos
          rw [List.length_append] at hlt
          dsimp only at hread
          rw [Prod.mk.injEq] at hread
          obtain ⟨rfl, hnone⟩ := hread
          exact .record h (ih rest _ (by omega) (Prod.ext rfl hnone))
  constructor
  · intro h
    unfold readAll at h
    rw [ByteSource.bytes_ofBytes] at h
    exact hwithin _ bytes records (Nat.lt_succ_self _) h
  · intro h
    obtain ⟨rfl, hall⟩ := h.bytes_eq
    have hread := readAll_encodeAll fun r hr => (hall r hr).1.fits
    rw [hread, List.map_congr_left fun r hr => (hall r hr).2, List.map_id']

/-- Records and bytes correspond. Records within the limits are written without a failure, and reading
record after record gives them back with timestamps in whole milliseconds, then a clean end. Records that
are read up to a clean end are written back to the same bytes, and they are within the limits and in whole
milliseconds. Reading to the end at once finds the same. -/
theorem records_and_bytes_correspond (records : List CachedRecord) (bytes : List UInt8) :
    ((∀ r ∈ records, r.Storable) →
      (writeAll records).failure = none ∧
        ReadsOut (.ofBytes (writeAll records).bytes) (records.map (·.floored))) ∧
    (ReadsOut (.ofBytes bytes) records →
      writeAll records = ⟨bytes, none⟩ ∧ ∀ r ∈ records, r.Storable ∧ r.floored = r) ∧
    (readAll (.ofBytes bytes) = (records, none) ↔ ReadsOut (.ofBytes bytes) records) := by
  refine ⟨?_, ?_, readAll_eq_iff⟩
  · intro h
    rw [writeAll_of_storable h]
    exact ⟨rfl, readsOut_encodeAll h⟩
  · intro h
    obtain ⟨hbytes, hall⟩ := h.bytes_eq
    rw [writeAll_of_storable fun r hr => (hall r hr).1, hbytes]
    exact ⟨rfl, hall⟩

/-- A record before the epoch, with a fraction of a millisecond, the least number and a text of two-byte
characters, between two others. -/
theorem records_and_bytes_correspond_before_epoch :
    let stream : StreamId := ⟨"caf\u00e9", "4-2", by decide⟩
    let early : CachedRecord := ⟨"1~~~2", ⟨⟨-1, by omega⟩, stream, -9223372036854775808, "", [], [0, 255]⟩⟩
    let late : CachedRecord := ⟨"", ⟨⟨1500000, by omega⟩, stream, 9223372036854775807, "Placed", [123], []⟩⟩
    let records := [late, early, late]
    (∀ r ∈ records, r.Storable) ∧ early.floored ≠ early ∧ (writeAll records).failure = none ∧
      ReadsOut (.ofBytes (writeAll records).bytes) (records.map (·.floored)) := by
  intro stream early late records
  have hstorable : ∀ r ∈ records, r.Storable := by
    have hearly : early.Storable := by constructor <;> decide
    have hlate : late.Storable := by constructor <;> decide
    intro r hr
    simp only [records, List.mem_cons, List.not_mem_nil, or_false] at hr
    rcases hr with rfl | rfl | rfl
    · exact hlate
    · exact hearly
    · exact hlate
  obtain ⟨hwritten, hread⟩ := (records_and_bytes_correspond records []).1 hstorable
  exact ⟨hstorable, by decide, hwritten, hread⟩

end Cache

end Chronicle
