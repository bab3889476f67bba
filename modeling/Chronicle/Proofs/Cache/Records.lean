import Chronicle.Cache.Record

/-!
# Records are read back

A record that was written whole is read back as it was, but for the fraction of a millisecond in its
timestamp, and the bytes after it are left. From one record the same follows for any number of them, up
to a clean end.
-/

namespace Chronicle

namespace ByteSource

variable (failure : Option IoError)

/-- From bytes that are all there, as many are collected as are wanted, however they are asked for. -/
theorem collect_ofBytes (asking : Asking) (xs ys : List UInt8) :
    collect asking xs.length (Arrival.ofBytes (xs ++ ys)) = (xs, Arrival.ofBytes ys) := by
  cases xs with
  | nil => simp only [List.length_nil, List.nil_append, collect]
  | cons b xs =>
    have hd : (xs ++ ys).drop xs.length = ys := List.drop_left
    have ht : (xs ++ ys).take xs.length = xs := List.take_left
    cases ys with
    | nil =>
      rw [List.append_nil] at hd
      have hn : xs.length - xs.length = 0 := Nat.sub_self _
      simp only [List.length_cons, List.append_nil, Arrival.ofBytes, collect, hd, hn]
    | cons c ys =>
      simp only [List.length_cons, List.cons_append, Arrival.ofBytes, collect, hd, ht]

/-- Bytes that are all there are taken from the front. -/
theorem take_ofBytes (asking : Asking) {count : Nat} {xs : List UInt8} (h : xs.length = count)
    (ys : List UInt8) :
    (ofBytes (xs ++ ys) failure).take count asking = .whole xs (ofBytes ys failure) := by
  subst h
  have hc := collect_ofBytes asking xs ys
  unfold take ofBytes
  dsimp only
  rw [hc]
  exact if_pos rfl

/-- Bytes that are all there are those still to come. -/
theorem bytes_ofBytes (bytes : List UInt8) : (ofBytes bytes failure).bytes = bytes := by
  cases bytes with
  | nil => rfl
  | cons b rest => exact List.append_nil _

end ByteSource

namespace Cache

/-- A record as it is read back. -/
def CachedRecord.floored (r : CachedRecord) : CachedRecord := ⟨r.position, r.record.floored⟩

/-- A record whose fields can be written, with a number of eight bytes. -/
structure CachedRecord.Fits (r : CachedRecord) : Prop where
  /-- No field is over its limit. -/
  no_excess : ∀ entry ∈ r.fields, entry.2.excess? entry.1 = none
  /-- The number is one of eight bytes. -/
  number_fits : -(Bytes.modulus64 : Int) ≤ 2 * r.record.number ∧ 2 * r.record.number < Bytes.modulus64

/-- Fields that are written without a failure are all within their limits, and written whole. -/
theorem writeFields_whole {fields : List (Field × FieldValue)}
    (h : (writeFields none fields).failure = none) :
    (writeFields none fields).bytes = fields.flatMap (·.2.encode) ∧
      ∀ entry ∈ fields, entry.2.excess? entry.1 = none := by
  induction fields with
  | nil =>
    refine ⟨rfl, ?_⟩
    intro entry he
    cases he
  | cons first rest ih =>
    obtain ⟨field, value⟩ := first
    unfold writeFields at h ⊢
    cases hx : value.excess? field with
    | some e =>
      rw [hx] at h
      cases h
    | none =>
      rw [hx] at h
      have hr := ih h
      refine ⟨?_, ?_⟩
      · simp only [Option.any_none, Bool.false_eq_true, if_false, Option.map_none, hr.1, List.flatMap_cons]
      · intro entry he
        rcases List.mem_cons.1 he with rfl | he
        · exact hx
        · exact hr.2 entry he

section Fields

variable (field : Field) (tail : List UInt8) (failure : Option IoError)

/-- Bytes of a field are read. -/
theorem readBytes_ofBytes {count : Nat} {bytes : List UInt8} (h : bytes.length = count) :
    readBytes field count (.ofBytes (bytes ++ tail) failure) = .ok (bytes, .ofBytes tail failure) := by
  unfold readBytes
  rw [ByteSource.take_ofBytes failure .whole h]

/-- A number is read back. -/
theorem readNumber_encode {n : Int}
    (h : -(Bytes.modulus64 : Int) ≤ 2 * n ∧ 2 * n < Bytes.modulus64) :
    readNumber field (.ofBytes ((FieldValue.number n).encode ++ tail) failure) =
      .ok (n, .ofBytes tail failure) := by
  have hw : Bytes.toWord Bytes.modulus64 n < Bytes.span 8 := Bytes.toWord_lt (by decide) n
  have hb := readBytes_ofBytes field tail failure
    (Bytes.length_bigEndian 8 (Bytes.toWord Bytes.modulus64 n))
  unfold readNumber FieldValue.encode
  rw [hb]
  change Except.ok (Bytes.ofWord Bytes.modulus64 (Bytes.ofBigEndian _), _) = _
  rw [Bytes.ofBigEndian_bigEndian hw, Bytes.ofWord_toWord h.1 h.2]

/-- A text of a known length is read back. -/
theorem readTextBody_encode (text : String) :
    readTextBody field (Utf8.encode text).length (.ofBytes (Utf8.encode text ++ tail) failure) =
      .ok (text, .ofBytes tail failure) := by
  have hb : readBytes field (Utf8.encode text).length (.ofBytes (Utf8.encode text ++ tail) failure) = _ :=
    readBytes_ofBytes field tail failure rfl
  unfold readTextBody
  rw [hb]
  dsimp only [Bind.bind, Except.bind]
  rw [Utf8.decode?_encode]
  rfl

/-- The length of a text within the limit is read back. -/
theorem ofBigEndian_textLength {bytes : List UInt8} (h : bytes.length ≤ maxText) :
    Bytes.ofBigEndian (Bytes.bigEndian 2 bytes.length) = bytes.length :=
  Bytes.ofBigEndian_bigEndian (by simp only [Bytes.span, maxText] at h ⊢; omega)

/-- A text is read back. -/
theorem readText_encode {text : String} (h : (Utf8.encode text).length ≤ maxText) :
    readText field (.ofBytes ((FieldValue.text (Utf8.encode text)).encode ++ tail) failure) =
      .ok (text, .ofBytes tail failure) := by
  have hb := readBytes_ofBytes field (Utf8.encode text ++ tail) failure
    (Bytes.length_bigEndian 2 (Utf8.encode text).length)
  unfold readText FieldValue.encode
  rw [List.append_assoc, hb]
  dsimp only [Bind.bind, Except.bind]
  rw [ofBigEndian_textLength h]
  exact readTextBody_encode field tail failure text

/-- A payload is read back. -/
theorem readPayload_encode {bytes : List UInt8} (h : bytes.length ≤ maxPayload) :
    readPayload field (.ofBytes ((FieldValue.payload bytes).encode ++ tail) failure) =
      .ok (bytes, .ofBytes tail failure) := by
  have hb := readBytes_ofBytes field (bytes ++ tail) failure (Bytes.length_bigEndian 4 bytes.length)
  have hl : Bytes.ofBigEndian (Bytes.bigEndian 4 bytes.length) = bytes.length :=
    Bytes.ofBigEndian_bigEndian (by simp only [Bytes.span, maxPayload] at h ⊢; omega)
  have hw : Bytes.ofWord Bytes.modulus32 bytes.length = bytes.length := by
    unfold Bytes.ofWord
    rw [if_neg (by simp only [Bytes.modulus32, maxPayload] at h ⊢; omega)]
  have hbody : readBody field bytes.length (.ofBytes (bytes ++ tail) failure) =
      .ok (bytes, .ofBytes tail failure) := by
    unfold readBody
    rw [ByteSource.take_ofBytes failure (.into {}) rfl]
  unfold readPayload FieldValue.encode
  rw [List.append_assoc, hb]
  dsimp only [Bind.bind, Except.bind]
  rw [hl, hw, if_neg (by omega)]
  exact hbody

end Fields

/-- The milliseconds of a timestamp are a number of eight bytes. -/
theorem millis_fits (t : Timestamp) :
    -(Bytes.modulus64 : Int) ≤ 2 * t.millis ∧ 2 * t.millis < Bytes.modulus64 := by
  have hc := t.inCalendar
  simp only [Timestamp.millis, Bytes.modulus64]
  omega

namespace CachedRecord

variable {r : CachedRecord}

/-- The bytes of a record are those of its fields. -/
theorem encode_eq (r : CachedRecord) (tail : List UInt8) : r.encode ++ tail =
    Bytes.bigEndian 2 (Utf8.encode r.position).length ++ (Utf8.encode r.position ++
      ((FieldValue.number r.record.timestamp.millis).encode ++
      ((FieldValue.text (Utf8.encode r.record.stream.category)).encode ++
      ((FieldValue.text (Utf8.encode r.record.stream.id)).encode ++
      ((FieldValue.number r.record.number).encode ++
      ((FieldValue.text (Utf8.encode r.record.eventType)).encode ++
      ((FieldValue.payload r.record.data).encode ++
      ((FieldValue.payload r.record.metadata).encode ++ tail)))))))) := by
  have he : r.encode = (FieldValue.text (Utf8.encode r.position)).encode ++
      ((FieldValue.number r.record.timestamp.millis).encode ++
      ((FieldValue.text (Utf8.encode r.record.stream.category)).encode ++
      ((FieldValue.text (Utf8.encode r.record.stream.id)).encode ++
      ((FieldValue.number r.record.number).encode ++
      ((FieldValue.text (Utf8.encode r.record.eventType)).encode ++
      ((FieldValue.payload r.record.data).encode ++
      ((FieldValue.payload r.record.metadata).encode ++ []))))))) := rfl
  have hp : (FieldValue.text (Utf8.encode r.position)).encode =
      Bytes.bigEndian 2 (Utf8.encode r.position).length ++ Utf8.encode r.position := rfl
  rw [he, hp, List.append_nil]
  simp only [List.append_assoc]

/-- A text that can be written is within the limit. -/
theorem text_le {field : Field} {bytes : List UInt8}
    (h : (FieldValue.text bytes).excess? field = none) : bytes.length ≤ maxText := by
  unfold FieldValue.excess? at h
  dsimp only at h
  split at h
  · cases h
  · omega

/-- A payload that can be written is within the limit. -/
theorem payload_le {field : Field} {bytes : List UInt8}
    (h : (FieldValue.payload bytes).excess? field = none) : bytes.length ≤ maxPayload := by
  unfold FieldValue.excess? at h
  dsimp only at h
  split at h
  · cases h
  · omega

/-- A record is read back before what follows it. -/
theorem readRecord_encode (h : r.Fits) (tail : List UInt8) (failure : Option IoError) :
    readRecord (.ofBytes (r.encode ++ tail) failure) =
      .ok (some (r.floored, .ofBytes tail failure)) := by
  have hx := h.no_excess
  simp only [fields, List.mem_cons, List.not_mem_nil, or_false, forall_eq_or_imp, forall_eq] at hx
  obtain ⟨hposition, -, hcategory, hid, -, htype, hdata, hmetadata⟩ := hx
  have hstart (rest : List UInt8) : readStart
      (.ofBytes (Bytes.bigEndian 2 (Utf8.encode r.position).length ++ rest) failure) =
        .ok (some ((Utf8.encode r.position).length, .ofBytes rest failure)) := by
    unfold readStart
    rw [ByteSource.take_ofBytes failure .whole (Bytes.length_bigEndian 2 _)]
    dsimp only
    rw [ofBigEndian_textLength (text_le hposition)]
  rw [encode_eq]
  unfold readRecord
  rw [hstart]
  dsimp only [Bind.bind, Except.bind]
  unfold readRest
  rw [readTextBody_encode]
  dsimp only [Bind.bind, Except.bind]
  rw [readNumber_encode _ _ _ (millis_fits _)]
  dsimp only
  rw [Timestamp.ofMillis?_millis]
  dsimp only [Pure.pure, Except.pure]
  rw [readText_encode _ _ _ (text_le hcategory)]
  dsimp only
  rw [readText_encode _ _ _ (text_le hid)]
  dsimp only
  rw [StreamId.ofParts_parts]
  dsimp only
  rw [readNumber_encode _ _ _ h.number_fits]
  dsimp only
  rw [readText_encode _ _ _ (text_le htype)]
  dsimp only
  rw [readPayload_encode _ _ _ (payload_le hdata)]
  dsimp only
  rw [readPayload_encode _ _ _ (payload_le hmetadata)]
  rfl

/-- A record takes at least one byte. -/
theorem encode_length_pos (r : CachedRecord) : 0 < r.encode.length := by
  have he := encode_eq r []
  rw [List.append_nil] at he
  rw [he, List.length_append, Bytes.length_bigEndian]
  omega

end CachedRecord

/-- The bytes of some records, one after the other. -/
def encodeAll (records : List CachedRecord) : List UInt8 := records.flatMap (·.encode)

/-- Some records take at least as many bytes as they are. -/
theorem length_le_encodeAll (records : List CachedRecord) :
    records.length ≤ (encodeAll records).length := by
  induction records with
  | nil => exact Nat.zero_le _
  | cons r rest ih =>
    have hr := r.encode_length_pos
    unfold encodeAll at ih ⊢
    rw [List.flatMap_cons, List.length_append, List.length_cons]
    omega

/-- The first of some records is read. -/
theorem readRecord_encodeAll_cons {r : CachedRecord} (h : r.Fits) (rest : List CachedRecord) :
    readRecord (.ofBytes (encodeAll (r :: rest)) none) =
      .ok (some (r.floored, .ofBytes (encodeAll rest) none)) :=
  r.readRecord_encode h (encodeAll rest) none

/-- After some records their bytes end cleanly. -/
theorem readRecord_encodeAll_nil : readRecord (.ofBytes (encodeAll []) none) = .ok none := rfl

/-- All of some records are read back, and nothing fails. -/
theorem readAll_encodeAll {records : List CachedRecord} (h : ∀ r ∈ records, r.Fits) :
    readAll (.ofBytes (encodeAll records) none) = (records.map (·.floored), none) := by
  have hwithin : ∀ steps, records.length < steps →
      readAllWithin steps (.ofBytes (encodeAll records) none) = (records.map (·.floored), none) := by
    induction records with
    | nil =>
      intro steps hsteps
      obtain ⟨steps, rfl⟩ := Nat.exists_eq_add_of_lt hsteps
      unfold readAllWithin
      rw [readRecord_encodeAll_nil]
      rfl
    | cons r rest ih =>
      intro steps hsteps
      cases steps with
      | zero => exact absurd hsteps (Nat.not_lt_zero _)
      | succ steps =>
        have hr := ih (fun other ho => h other (List.mem_cons_of_mem r ho)) steps
          (Nat.lt_of_succ_lt_succ hsteps)
        unfold readAllWithin
        rw [readRecord_encodeAll_cons (h r List.mem_cons_self)]
        dsimp only
        rw [hr]
        rfl
  unfold readAll
  rw [ByteSource.bytes_ofBytes]
  exact hwithin _ (Nat.lt_succ_of_le (length_le_encodeAll records))

end Cache

end Chronicle
