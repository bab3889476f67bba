import Chronicle.Proofs.Cache.Consuming
import Chronicle.Proofs.Cache.Transcripts
import Mathlib.Data.Nat.Find

/-!
# Bytes that are cut short

An encoding is a row of pieces, each of which belongs to a field. Where the bytes end too early, reading meets
the end in the piece that holds the first missing byte, and the failure names its field. This is said once for
a single read and once for one read after another, so it follows for a record without going through its fields
again, and then for any number of records. Between two records the bytes end cleanly instead.
-/

namespace Chronicle.Cache

/-- The bytes of some pieces, one after the other. -/
def joined (pieces : List (Field × List UInt8)) : List UInt8 := pieces.flatMap (·.2)

/-- The field of the piece that holds the byte at an offset, none behind the last piece. -/
def fieldAt : Nat → List (Field × List UInt8) → Option Field
  | _, [] => none
  | offset, (field, bytes) :: rest =>
    if offset < bytes.length then some field else fieldAt (offset - bytes.length) rest

/-- The pieces of a record: the bytes of each field, with the length before them if they have one. -/
def CachedRecord.layout (r : CachedRecord) : List (Field × List UInt8) :=
  r.fields.map fun entry => (entry.1, entry.2.encode)

section Pieces

variable {pieces : List (Field × List UInt8)} {field : Field} {offset : Nat}

@[simp] theorem joined_nil : joined [] = [] := rfl

@[simp] theorem joined_cons (field : Field) (bytes : List UInt8) (pieces : List (Field × List UInt8)) :
    joined ((field, bytes) :: pieces) = bytes ++ joined pieces := rfl

@[simp] theorem joined_append (xs ys : List (Field × List UInt8)) : joined (xs ++ ys) = joined xs ++ joined ys :=
  List.flatMap_append

theorem encodeAll_cons (r : CachedRecord) (rest : List CachedRecord) :
    encodeAll (r :: rest) = r.encode ++ encodeAll rest := rfl

theorem encodeAll_append (xs ys : List CachedRecord) : encodeAll (xs ++ ys) = encodeAll xs ++ encodeAll ys :=
  List.flatMap_append

@[simp] theorem joined_layout (r : CachedRecord) : joined r.layout = r.encode := by
  unfold joined CachedRecord.layout
  rw [List.flatMap_map]
  rfl

@[simp] theorem joined_layouts (records : List CachedRecord) :
    joined (records.flatMap (·.layout)) = encodeAll records := by
  induction records with
  | nil => rfl
  | cons r rest ih => rw [List.flatMap_cons, joined_append, joined_layout, ih, encodeAll_cons]

/-- The field at an offset is that of the first or of the second of two rows of pieces. -/
theorem fieldAt_append (offset : Nat) (xs ys : List (Field × List UInt8)) : fieldAt offset (xs ++ ys) =
    if offset < (joined xs).length then fieldAt offset xs else fieldAt (offset - (joined xs).length) ys := by
  induction xs generalizing offset with
  | nil => simp
  | cons piece xs ih =>
    obtain ⟨field, bytes⟩ := piece
    rw [List.cons_append, joined_cons, List.length_append, fieldAt, fieldAt]
    by_cases hfirst : offset < bytes.length
    · rw [if_pos hfirst, if_pos hfirst, if_pos (by omega)]
    · rw [if_neg hfirst, if_neg hfirst, ih, Nat.sub_sub]
      by_cases hrest : offset - bytes.length < (joined xs).length
      · rw [if_pos hrest, if_pos (by omega)]
      · rw [if_neg hrest, if_neg (by omega)]

/-- A byte is held by a field exactly if some piece of the field, with some pieces before it, reaches over the
offset of the byte. -/
theorem fieldAt_eq_some_iff : fieldAt offset pieces = some field ↔
    ∃ before bytes after, pieces = before ++ (field, bytes) :: after ∧ (joined before).length ≤ offset ∧
      offset < (joined before).length + bytes.length := by
  constructor
  · intro h
    induction pieces generalizing offset with
    | nil => nomatch h
    | cons piece rest ih =>
      obtain ⟨first, bytes⟩ := piece
      unfold fieldAt at h
      split at h
      · cases h
        exact ⟨[], bytes, rest, rfl, Nat.zero_le _, by simpa⟩
      · obtain ⟨before, bytes', after, rfl, hl, hu⟩ := ih h
        refine ⟨(first, bytes) :: before, bytes', after, rfl, ?_, ?_⟩
        · rw [joined_cons, List.length_append]
          omega
        · rw [joined_cons, List.length_append]
          omega
  · rintro ⟨before, bytes, after, rfl, hl, hu⟩
    rw [fieldAt_append, if_neg (by omega)]
    exact if_pos (by omega)

/-- Every byte of some pieces is held by a field. -/
theorem exists_fieldAt (h : offset < (joined pieces).length) : ∃ field, fieldAt offset pieces = some field := by
  induction pieces generalizing offset with
  | nil => exact absurd h (Nat.not_lt_zero _)
  | cons piece rest ih =>
    obtain ⟨first, bytes⟩ := piece
    rw [joined_cons, List.length_append] at h
    by_cases hfirst : offset < bytes.length
    · exact ⟨first, if_pos hfirst⟩
    · obtain ⟨field, hf⟩ := ih (show offset - bytes.length < (joined rest).length by omega)
      exact ⟨field, (if_neg hfirst).trans hf⟩

/-- Two neighbouring pieces of one field are as good as one. -/
theorem fieldAt_merge (offset : Nat) (field : Field) (xs ys : List UInt8) (rest : List (Field × List UInt8)) :
    fieldAt offset ((field, xs ++ ys) :: rest) = fieldAt offset ((field, xs) :: (field, ys) :: rest) := by
  rw [fieldAt, fieldAt, fieldAt, List.length_append, Nat.sub_sub]
  by_cases hfirst : offset < xs.length
  · rw [if_pos hfirst, if_pos (by omega)]
  · rw [if_neg hfirst]
    by_cases hsecond : offset - xs.length < ys.length
    · rw [if_pos hsecond, if_pos (by omega)]
    · rw [if_neg hsecond, if_neg (by omega)]

end Pieces

/-- A reader takes a value from the bytes of some pieces and leaves what follows them. If the bytes end before
the last of these, it fails and names the field of the first byte that is missing. -/
structure Takes {α : Type} (read : ByteSource → Except CacheError (α × ByteSource)) (value : α)
    (pieces : List (Field × List UInt8)) : Prop where
  /-- The pieces are taken if they are there. -/
  whole : ∀ tail failure,
    read (.ofBytes (joined pieces ++ tail) failure) = .ok (value, .ofBytes tail failure)
  /-- The field of the first missing byte is named if they are not. -/
  short : ∀ offset field, fieldAt offset pieces = some field →
    read (.ofBytes ((joined pieces).take offset)) = .error (.truncated field)

namespace Takes

variable {α β : Type} {read : ByteSource → Except CacheError (α × ByteSource)} {value : α}
  {pieces more : List (Field × List UInt8)}

/-- A value that is there already takes nothing. -/
theorem pure (value : α) : Takes (fun source => Pure.pure (value, source)) value [] where
  whole _ _ := rfl
  short _ _ h := nomatch h

/-- What reads one thing after the other takes one row of pieces after the other. -/
theorem bind {next : α × ByteSource → Except CacheError (β × ByteSource)} {result : β}
    (h : Takes read value pieces) (hnext : Takes (fun source => next (value, source)) result more) :
    Takes (fun source => read source >>= next) result (pieces ++ more) where
  whole tail failure := by
    rw [joined_append, List.append_assoc, h.whole]
    exact hnext.whole tail failure
  short offset field hfield := by
    rw [fieldAt_append] at hfield
    rw [joined_append, List.take_append]
    split at hfield
    · rename_i hlt
      rw [show offset - (joined pieces).length = 0 by omega, List.take_zero, List.append_nil,
        h.short offset field hfield]
      rfl
    · rename_i hle
      rw [List.take_of_length_le (Nat.le_of_not_lt hle), h.whole]
      exact hnext.short _ field hfield

/-- Two neighbouring pieces of one field are as good as one. -/
theorem merge {field : Field} {xs ys : List UInt8} (h : Takes read value ((field, xs) :: (field, ys) :: pieces)) :
    Takes read value ((field, xs ++ ys) :: pieces) where
  whole tail failure := by
    have hwhole := h.whole tail failure
    rwa [joined_cons, joined_cons, ← List.append_assoc] at hwhole
  short offset other hother := by
    rw [fieldAt_merge] at hother
    have hshort := h.short offset other hother
    rwa [joined_cons, joined_cons, ← List.append_assoc] at hshort

end Takes

section Fields

variable (field : Field)

/-- The only piece of a single read is that of its field. -/
theorem lt_of_fieldAt_singleton {field other : Field} {bytes : List UInt8} {offset : Nat}
    (h : fieldAt offset [(field, bytes)] = some other) : offset < bytes.length ∧ field = other := by
  unfold fieldAt at h
  split at h
  · rename_i hlt
    exact ⟨hlt, Option.some.inj h⟩
  · nomatch h

/-- As many bytes as there are of a field are taken, however they are asked for. -/
theorem takes_take (bytes : List UInt8) (asking : Asking)
    (failing : IoError → Except CacheError (List UInt8 × ByteSource)) :
    Takes (fun source =>
      match source.take bytes.length asking with
      | .whole taken later => .ok (taken, later)
      | .short _ => .error (.truncated field)
      | .failed e => failing e) bytes [(field, bytes)] where
  whole tail failure := by
    rw [joined_cons, joined_nil, List.append_nil, ByteSource.take_ofBytes failure asking rfl]
  short offset other hother := by
    obtain ⟨hlt, rfl⟩ := lt_of_fieldAt_singleton hother
    have hshort := ByteSource.take_too_many none asking
      (show ((bytes ++ []).take offset).length < bytes.length by simp; omega)
    rw [joined_cons, joined_nil, hshort]

/-- Bytes of a field are taken. -/
theorem takes_readBytes (bytes : List UInt8) : Takes (readBytes field bytes.length) bytes [(field, bytes)] :=
  takes_take field bytes .whole _

/-- The bytes of a payload are taken. -/
theorem takes_readBody (bytes : List UInt8) : Takes (readBody field bytes.length) bytes [(field, bytes)] :=
  takes_take field bytes (.into {}) _

/-- A number is taken. -/
theorem takes_readNumber {n : Int} (h : -(Bytes.modulus64 : Int) ≤ 2 * n ∧ 2 * n < Bytes.modulus64) :
    Takes (readNumber field) n [(field, (FieldValue.number n).encode)] := by
  have hw : Bytes.toWord Bytes.modulus64 n < Bytes.span 8 := Bytes.toWord_lt (by decide) n
  have hvalue : Bytes.ofWord Bytes.modulus64 (Bytes.ofBigEndian (FieldValue.number n).encode) = n := by
    rw [FieldValue.encode, Bytes.ofBigEndian_bigEndian hw, Bytes.ofWord_toWord h.1 h.2]
  have hlength : (FieldValue.number n).encode.length = 8 := Bytes.length_bigEndian 8 _
  have hread := takes_readBytes field (FieldValue.number n).encode
  rw [hlength] at hread
  refine hread.bind ?_
  dsimp only
  rw [hvalue]
  exact .pure n

/-- A text of a known length is taken. -/
theorem takes_readTextBody (text : String) :
    Takes (readTextBody field (Utf8.encode text).length) text [(field, Utf8.encode text)] := by
  refine (takes_readBytes field (Utf8.encode text)).bind ?_
  dsimp only
  rw [Utf8.decode?_encode]
  exact .pure text

/-- A text is taken. -/
theorem takes_readText {text : String} (h : (Utf8.encode text).length ≤ maxText) :
    Takes (readText field) text [(field, (FieldValue.text (Utf8.encode text)).encode)] := by
  have hread := takes_readBytes field (Bytes.bigEndian 2 (Utf8.encode text).length)
  rw [Bytes.length_bigEndian] at hread
  refine Takes.merge (hread.bind ?_)
  dsimp only
  rw [ofBigEndian_textLength h]
  exact takes_readTextBody field text

/-- A payload is taken. -/
theorem takes_readPayload {bytes : List UInt8} (h : bytes.length ≤ maxPayload) :
    Takes (readPayload field) bytes [(field, (FieldValue.payload bytes).encode)] := by
  have hlength : Bytes.ofWord Bytes.modulus32 (Bytes.ofBigEndian (Bytes.bigEndian 4 bytes.length)) =
      bytes.length := by
    rw [Bytes.ofBigEndian_bigEndian (by simp only [Bytes.span, maxPayload] at h ⊢; omega), Bytes.ofWord,
      if_neg (by simp only [Bytes.modulus32, maxPayload] at h ⊢; omega)]
  have hread := takes_readBytes field (Bytes.bigEndian 4 bytes.length)
  rw [Bytes.length_bigEndian] at hread
  refine Takes.merge (hread.bind ?_)
  simp only [hlength, Int.not_lt.2 (Int.natCast_nonneg bytes.length), if_false, Int.toNat_natCast]
  exact takes_readBody field bytes

end Fields

section Records

variable {r : CachedRecord} {records : List CachedRecord} {offset cut : Nat}

/-- What follows the length of its position is taken as a record. -/
theorem takes_readRest (h : r.Storable) : Takes (readRest (Utf8.encode r.position).length) r.floored
    ((.position, Utf8.encode r.position) :: r.layout.tail) := by
  unfold readRest
  refine (takes_readTextBody .position r.position).bind ?_
  refine (takes_readNumber .timestamp (millis_fits r.record.timestamp)).bind ?_
  dsimp only
  rw [Timestamp.ofMillis?_millis]
  refine (takes_readText .category h.category_le).bind ?_
  dsimp only
  refine (takes_readText .streamId h.id_le).bind ?_
  dsimp only
  rw [StreamId.ofParts_parts]
  refine (takes_readNumber .eventNumber h.number_fits).bind ?_
  dsimp only
  refine (takes_readText .eventType h.eventType_le).bind ?_
  dsimp only
  refine (takes_readPayload .data h.data_le).bind ?_
  dsimp only
  exact (takes_readPayload .metadata h.metadata_le).bind (Takes.pure r.floored)

/-- A record that is cut short is not read, and the failure names the field of the first missing byte. -/
theorem readRecord_cut (h : r.Storable) {field : Field} (hpos : 0 < offset)
    (hfield : fieldAt offset r.layout = some field) :
    readRecord (.ofBytes (r.encode.take offset)) = .error (.truncated field) := by
  have hlayout : r.layout = (.position, Bytes.bigEndian 2 (Utf8.encode r.position).length ++
      Utf8.encode r.position) :: r.layout.tail := rfl
  have hlength : (Bytes.bigEndian 2 (Utf8.encode r.position).length).length = 2 := Bytes.length_bigEndian 2 _
  have hjoined : r.encode = Bytes.bigEndian 2 (Utf8.encode r.position).length ++
      joined ((.position, Utf8.encode r.position) :: r.layout.tail) := by
    rw [← joined_layout, hlayout, joined_cons, joined_cons, List.append_assoc]
    rfl
  rw [hlayout, fieldAt_merge, fieldAt, hlength] at hfield
  rw [hjoined, List.take_append, hlength]
  unfold readRecord readStart
  by_cases hstart : offset < 2
  · -- only the first of the two bytes of the length is there
    obtain rfl : offset = 1 := by omega
    rw [if_pos hstart] at hfield
    cases hfield
    rw [List.take_zero, List.append_nil, ByteSource.take_too_many none .whole (by simp)]
    rfl
  · rw [if_neg hstart] at hfield
    rw [List.take_of_length_le (by omega), ByteSource.take_ofBytes none .whole hlength]
    dsimp only [Bind.bind, Except.bind]
    rw [ofBigEndian_textLength h.position_le, (takes_readRest h).short _ field hfield]

/-- The records before some bytes are read, and then what is read of these. -/
theorem readAll_encodeAll_append (h : ∀ r ∈ records, r.Fits) (tail : List UInt8) (failure : Option IoError) :
    readAll (.ofBytes (encodeAll records ++ tail) failure) =
      (records.map (·.floored) ++ (readAll (.ofBytes tail failure)).1, (readAll (.ofBytes tail failure)).2) := by
  induction records with
  | nil => rfl
  | cons r rest ih =>
    rw [readAll_eq, encodeAll_cons, List.append_assoc, CachedRecord.readRecord_encode (h r List.mem_cons_self)]
    dsimp only
    rw [ih fun other ho => h other (List.mem_cons_of_mem r ho)]
    rfl

/-- How many of some records lie wholly before a cut of their bytes. -/
def wholeBefore (records : List CachedRecord) (cut : Nat) : Nat :=
  Nat.findGreatest (fun count => (encodeAll (records.take count)).length ≤ cut) records.length

/-- The records that lie wholly before a cut end by it. -/
theorem length_wholeBefore_le (records : List CachedRecord) (cut : Nat) :
    (encodeAll (records.take (wholeBefore records cut))).length ≤ cut :=
  Nat.findGreatest_spec (P := fun count => (encodeAll (records.take count)).length ≤ cut) (Nat.zero_le _)
    (Nat.zero_le _)

/-- The record after those that lie wholly before a cut does not end by it. -/
theorem cut_lt_of_drop {rest : List CachedRecord} (h : records.drop (wholeBefore records cut) = r :: rest) :
    cut < (encodeAll (records.take (wholeBefore records cut))).length + r.encode.length := by
  have hlt : wholeBefore records cut < records.length := by
    have hlength := congrArg List.length h
    rw [List.length_drop, List.length_cons] at hlength
    omega
  have hnext : records.take (wholeBefore records cut + 1) = records.take (wholeBefore records cut) ++ [r] := by
    rw [List.take_add, h]
    rfl
  have hgreatest := Nat.findGreatest_is_greatest (Nat.lt_succ_self (wholeBefore records cut)) hlt
  rw [hnext, encodeAll_concat, List.length_append] at hgreatest
  exact Nat.lt_of_not_le hgreatest

/-- More of some records have at least as many bytes. -/
theorem length_encodeAll_take_mono (records : List CachedRecord) {few many : Nat} (h : few ≤ many) :
    (encodeAll (records.take few)).length ≤ (encodeAll (records.take many)).length := by
  obtain ⟨more, hmore⟩ : records.take few <+: records.take many := List.take_prefix_take_left h
  rw [← hmore, encodeAll_append, List.length_append]
  exact Nat.le_add_right _ _

/-- A cut between two records is where those that lie wholly before it end. -/
theorem eq_of_boundary {count : Nat} (h : (encodeAll (records.take count)).length = cut) :
    (encodeAll (records.take (wholeBefore records cut))).length = cut := by
  have hle : min count records.length ≤ wholeBefore records cut := by
    refine Nat.le_findGreatest (Nat.min_le_right _ _) ?_
    rw [← List.take_eq_take_min, h]
  have hmono := length_encodeAll_take_mono records hle
  rw [← List.take_eq_take_min, h] at hmono
  exact Nat.le_antisymm (length_wholeBefore_le records cut) hmono

/-- Records that end by a cut are those that lie wholly before it if the one after them does not end by it. -/
theorem wholeBefore_append {others : List CachedRecord} (h : (encodeAll records).length ≤ cut)
    (hnext : ∀ r ∈ others.head?, cut < (encodeAll records).length + r.encode.length) :
    wholeBefore (records ++ others) cut = records.length := by
  have hrecords : (records ++ others).take records.length = records := List.take_left
  refine Nat.le_antisymm (Nat.le_of_not_lt fun hlt => ?_) ?_
  · have hmono := length_encodeAll_take_mono (records ++ others) (Nat.succ_le_of_lt hlt)
    have hle := length_wholeBefore_le (records ++ others) cut
    cases others with
    | nil =>
      have hmost : wholeBefore (records ++ []) cut ≤ (records ++ []).length := Nat.findGreatest_le _
      rw [List.append_nil] at hmost hlt
      exact absurd hmost (Nat.not_le_of_lt hlt)
    | cons r rest =>
      have hr := hnext r rfl
      have htake : (records ++ r :: rest).take (records.length + 1) = records ++ [r] := by
        rw [List.take_add, hrecords, List.drop_left]
        rfl
      rw [htake, encodeAll_concat, List.length_append] at hmono
      omega
  · refine Nat.le_findGreatest ?_ ?_
    · rw [List.length_append]
      exact Nat.le_add_right _ _
    · rw [hrecords]
      exact h

/-- What is read of a record that is cut short: nothing, and then a clean end if nothing is there of it. -/
theorem readAll_cut (h : r.Storable) (hlt : offset < r.encode.length) :
    readAll (.ofBytes (r.encode.take offset)) =
      ([], if offset = 0 then none else (fieldAt offset r.layout).map .truncated) := by
  rw [readAll_eq]
  by_cases hzero : offset = 0
  · subst hzero
    rw [if_pos rfl]
    rfl
  · rw [← joined_layout] at hlt
    obtain ⟨field, hfield⟩ := exists_fieldAt hlt
    rw [if_neg hzero, hfield, readRecord_cut h (Nat.pos_of_ne_zero hzero) hfield]
    rfl

end Records

/-- Bytes of records that are cut short anywhere are read as far as they go. What is read are the records whose
bytes lie wholly before the cut, as they are read from the bytes that are not cut. The bytes end cleanly then if
the cut is between two records, before the first or behind the last. Everywhere else reading fails for the end
of the bytes, and names the field of the piece that holds the first missing byte, be it one of its length. -/
theorem cut_bytes_yield_whole_records {records : List CachedRecord} {cut : Nat}
    (hstorable : ∀ r ∈ records, r.Storable) (hcut : cut ≤ (encodeAll records).length) :
    (readAll (.ofBytes ((encodeAll records).take cut))).1 =
        (readAll (.ofBytes (encodeAll records))).1.take (wholeBefore records cut) ∧
      ((∃ count, (encodeAll (records.take count)).length = cut) →
        (readAll (.ofBytes ((encodeAll records).take cut))).2 = none) ∧
      ((¬ ∃ count, (encodeAll (records.take count)).length = cut) →
        ∃ before field piece after, records.flatMap (·.layout) = before ++ (field, piece) :: after ∧
          (joined before).length ≤ cut ∧ cut < (joined before).length + piece.length ∧
          (readAll (.ofBytes ((encodeAll records).take cut))).2 = some (.truncated field)) := by
  have hle := length_wholeBefore_le records cut
  have hsplit := List.take_append_drop (wholeBefore records cut) records
  have hbefore : ∀ r ∈ records.take (wholeBefore records cut), r.Storable :=
    fun r hr => hstorable r (List.mem_of_mem_take hr)
  have huncut : (readAll (.ofBytes (encodeAll records))).1.take (wholeBefore records cut) =
      (records.take (wholeBefore records cut)).map (·.floored) := by
    rw [readAll_encodeAll fun r hr => (hstorable r hr).fits, List.map_take]
  rw [huncut]
  generalize hwhole : records.take (wholeBefore records cut) = before at *
  cases hdrop : records.drop (wholeBefore records cut) with
  | nil =>
    rw [hdrop, List.append_nil] at hsplit
    subst hsplit
    have hread := readAll_encodeAll fun r hr => (hbefore r hr).fits
    rw [List.take_of_length_le hle, hread]
    refine ⟨rfl, fun _ => rfl, fun hno => absurd ⟨before.length, ?_⟩ hno⟩
    rw [List.take_length]
    exact Nat.le_antisymm hle hcut
  | cons r rest =>
    have hr : r.Storable := hstorable r (List.mem_of_mem_drop (hdrop ▸ List.mem_cons_self))
    have hlt := cut_lt_of_drop hdrop
    rw [hwhole] at hlt
    rw [hdrop] at hsplit
    have hbytes : (encodeAll records).take cut =
        encodeAll before ++ r.encode.take (cut - (encodeAll before).length) := by
      rw [← hsplit, encodeAll_append, encodeAll_cons, List.take_append, List.take_of_length_le hle,
        List.take_append_of_le_length (by omega)]
    have hread := readAll_encodeAll_append (fun r hr => (hbefore r hr).fits)
      (r.encode.take (cut - (encodeAll before).length)) none
    rw [readAll_cut hr (by omega), List.append_nil] at hread
    rw [hbytes, hread]
    refine ⟨rfl, ?_, ?_⟩
    · rintro ⟨count, hcount⟩
      have hend := eq_of_boundary hcount
      rw [hwhole] at hend
      exact if_pos (by omega)
    · intro hno
      have hne : ¬ cut - (encodeAll before).length = 0 := by
        intro hzero
        exact hno ⟨wholeBefore records cut, by rw [hwhole]; omega⟩
      have hlayout : fieldAt cut (records.flatMap (·.layout)) =
          fieldAt (cut - (encodeAll before).length) r.layout := by
        rw [← hsplit, List.flatMap_append, fieldAt_append, joined_layouts, if_neg (by omega),
          List.flatMap_cons, fieldAt_append, joined_layout, if_pos (by omega)]
      obtain ⟨field, hfield⟩ := exists_fieldAt
        (show cut - (encodeAll before).length < (joined r.layout).length by rw [joined_layout]; omega)
      obtain ⟨earlier, piece, after, hpieces, hle', hlt'⟩ := fieldAt_eq_some_iff.1 (hlayout.trans hfield)
      exact ⟨earlier, field, piece, after, hpieces, hle', hlt', by rw [if_neg hne, hfield]; rfl⟩

/-- A record from before the epoch whose category ends in a character of two bytes. -/
def beforeEpoch : CachedRecord :=
  ⟨"7", ⟨⟨-2, by omega⟩, ⟨"na\u00ef", "4-2", by decide⟩, -3, "Placed", [], [0, 255]⟩⟩

theorem storable_beforeEpoch : beforeEpoch.Storable := by
  constructor <;> decide

/-- Two records, the second of which is cut in the middle of the last character of its category. -/
theorem cut_bytes_yield_whole_records_within_character :
    let records := [beforeEpoch, beforeEpoch]
    let cut := beforeEpoch.encode.length + 16
    (∀ r ∈ records, r.Storable) ∧ cut ≤ (encodeAll records).length ∧
      readAll (.ofBytes ((encodeAll records).take cut)) =
        ([beforeEpoch.floored], some (.truncated .category)) := by
  intro records cut
  have hstorable : ∀ r ∈ records, r.Storable := by simp [records, storable_beforeEpoch]
  have hcut : cut ≤ (encodeAll records).length := by decide +kernel
  have hno : ¬ ∃ count, (encodeAll (records.take count)).length = cut := by
    rintro ⟨count, h⟩
    match count with
    | 0 => exact absurd h (by decide +kernel)
    | 1 => exact absurd h (by decide +kernel)
    | more + 2 =>
      rw [List.take_of_length_le (Nat.le_add_left 2 more)] at h
      exact absurd h (by decide +kernel)
  obtain ⟨hread, -, hshort⟩ := cut_bytes_yield_whole_records hstorable hcut
  obtain ⟨before, field, piece, after, hpieces, hle, hlt, hend⟩ := hshort hno
  have hfield : fieldAt cut (records.flatMap (·.layout)) = some field :=
    fieldAt_eq_some_iff.2 ⟨before, piece, after, hpieces, hle, hlt⟩
  have hcategory : fieldAt cut (records.flatMap (·.layout)) = some .category := by decide +kernel
  have hone : wholeBefore records cut = 1 := by decide +kernel
  rw [hcategory] at hfield
  cases hfield
  rw [hone, readAll_encodeAll fun r hr => (hstorable r hr).fits] at hread
  exact ⟨hstorable, hcut, Prod.ext hread hend⟩

end Chronicle.Cache
