import Chronicle.Proofs.Cache.Cutting
import Chronicle.Proofs.Cache.Filing
import Chronicle.Proofs.Cache.Filling

/-!
# Files to which a record could not be appended

The fields of a record are written as they come, and nothing takes back those before a field over its limit.
So every call leaves the leading fields of its record in the file, all of them if it succeeds. These are the
bytes of a whole record cut short: the one that is the same but for its fields over their limits, which are
empty. A file that is finished after failed calls therefore holds its records in a row only if none of these
calls left anything, and otherwise it is read as far as the first that did.
-/

namespace Chronicle.Cache

/-- The number of a record is one of eight bytes. -/
def CachedRecord.Numbered (r : CachedRecord) : Prop :=
  -(Bytes.modulus64 : Int) ≤ 2 * r.record.number ∧ 2 * r.record.number < Bytes.modulus64

section Clipping

/-- A field without its bytes, which it is if it would be over its limit. A number stays. -/
def FieldValue.clipped (value : FieldValue) : FieldValue :=
  if value.size ≤ value.limit then value
  else match value with
    | text _ => text []
    | payload _ => payload []
    | number n => number n

/-- A text that is empty if it would be over the limit. -/
def clippedText (text : String) : String := if (Utf8.encode text).length ≤ maxText then text else ""

/-- A payload that is empty if it would be over the limit. -/
def clippedPayload (bytes : List UInt8) : List UInt8 := if bytes.length ≤ maxPayload then bytes else []

/-- A record without the fields that are over their limits. -/
def CachedRecord.clipped (r : CachedRecord) : CachedRecord where
  position := clippedText r.position
  record :=
    { timestamp := r.record.timestamp
      stream :=
        { category := clippedText r.record.stream.category
          id := clippedText r.record.stream.id
          category_undashed := by
            unfold clippedText
            split
            · exact r.record.stream.category_undashed
            · decide }
      number := r.record.number
      eventType := clippedText r.record.eventType
      data := clippedPayload r.record.data
      metadata := clippedPayload r.record.metadata }

variable {r : CachedRecord}

theorem length_clippedText (text : String) : (Utf8.encode (clippedText text)).length ≤ maxText := by
  unfold clippedText
  split
  · assumption
  · exact Nat.zero_le _

theorem length_clippedPayload (bytes : List UInt8) : (clippedPayload bytes).length ≤ maxPayload := by
  unfold clippedPayload
  split
  · assumption
  · exact Nat.zero_le _

theorem text_clippedText (text : String) :
    FieldValue.text (Utf8.encode (clippedText text)) = (FieldValue.text (Utf8.encode text)).clipped := by
  by_cases h : (Utf8.encode text).length ≤ maxText
  · rw [clippedText, if_pos h]
    exact (if_pos h).symm
  · rw [clippedText, if_neg h]
    exact (if_neg h).symm

theorem payload_clippedPayload (bytes : List UInt8) :
    FieldValue.payload (clippedPayload bytes) = (FieldValue.payload bytes).clipped := by
  by_cases h : bytes.length ≤ maxPayload
  · rw [clippedPayload, if_pos h]
    exact (if_pos h).symm
  · rw [clippedPayload, if_neg h]
    exact (if_neg h).symm

/-- A record without the fields over their limits can be written and read back. -/
theorem storable_clipped (h : r.Numbered) : r.clipped.Storable where
  position_le := length_clippedText _
  category_le := length_clippedText _
  id_le := length_clippedText _
  eventType_le := length_clippedText _
  data_le := length_clippedPayload _
  metadata_le := length_clippedPayload _
  number_fits := h

/-- Each of its fields is that of the record, or empty. -/
theorem fields_clipped (r : CachedRecord) :
    r.clipped.fields = r.fields.map fun entry => (entry.1, entry.2.clipped) := by
  simp only [CachedRecord.fields, CachedRecord.clipped, List.map_cons, List.map_nil, text_clippedText,
    payload_clippedPayload]
  rfl

/-- A field has at least one byte. -/
theorem FieldValue.length_encode_pos (value : FieldValue) : 0 < value.encode.length := by
  cases value <;> simp only [encode, List.length_append, Bytes.length_bigEndian] <;> omega

/-- The leading bytes of some fields are those of the clipped fields cut short before the one that is over its
limit. -/
theorem leadingBytes_eq_take {fields : List (Field × FieldValue)} {field : Field} {length most : Nat}
    (h : refusal? fields = some (.fieldTooLarge field length most)) :
    let pieces := fields.map fun entry => (entry.1, entry.2.clipped.encode)
    leadingBytes fields = (joined pieces).take (leadingBytes fields).length ∧
      fieldAt (leadingBytes fields).length pieces = some field := by
  induction fields with
  | nil => nomatch h
  | cons entry rest ih =>
    obtain ⟨first, value⟩ := entry
    dsimp only [List.map_cons]
    by_cases hkeeps : value.size ≤ value.limit
    · obtain ⟨hbytes, hrefusal⟩ := leading_of_keeps first rest hkeeps
      obtain ⟨htake, hfield⟩ := ih (hrefusal ▸ h)
      have hsame : value.clipped = value := if_pos hkeeps
      rw [hbytes, List.map_cons]
      dsimp only
      rw [hsame, joined_cons, fieldAt, List.length_append]
      constructor
      · rw [List.take_length_add_append, ← htake]
      · rw [if_neg (by omega), Nat.add_sub_cancel_left, hfield]
    · obtain ⟨hbytes, hrefusal⟩ := leading_of_over first rest hkeeps
      rw [hrefusal] at h
      cases h
      rw [hbytes]
      exact ⟨rfl, if_pos value.clipped.length_encode_pos⟩

/-- A failure names one of the fields. -/
theorem mem_of_refusal {fields : List (Field × FieldValue)} {field : Field} {length most : Nat}
    (h : refusal? fields = some (.fieldTooLarge field length most)) : field ∈ fields.map (·.1) := by
  obtain ⟨entry, hfind, hentry⟩ := Option.map_eq_some_iff.1 h
  cases hentry
  exact List.mem_map_of_mem (List.mem_of_find?_eq_some hfind)

section Refused

variable {field : Field} {length most : Nat}

/-- Nothing is written of a record exactly if it fails at its first field. -/
theorem leadingBytes_eq_nil_iff (h : refusal? r.fields = some (.fieldTooLarge field length most)) :
    leadingBytes r.fields = [] ↔ field = .position := by
  have hfields : r.fields = (.position, .text (Utf8.encode r.position)) :: r.fields.tail := rfl
  rw [hfields] at h ⊢
  by_cases hkeeps : (FieldValue.text (Utf8.encode r.position)).size ≤
      (FieldValue.text (Utf8.encode r.position)).limit
  · obtain ⟨hbytes, hrefusal⟩ := leading_of_keeps .position r.fields.tail hkeeps
    have hlater : field ∈ r.fields.tail.map (·.1) := mem_of_refusal (hrefusal ▸ h)
    have hpos := FieldValue.length_encode_pos (.text (Utf8.encode r.position))
    rw [hbytes]
    constructor
    · intro hnil
      rw [List.append_eq_nil_iff.1 hnil |>.1] at hpos
      exact absurd hpos (Nat.lt_irrefl 0)
    · rintro rfl
      simp [CachedRecord.fields] at hlater
  · obtain ⟨hbytes, hrefusal⟩ := leading_of_over .position r.fields.tail hkeeps
    rw [hrefusal] at h
    cases h
    exact iff_of_true hbytes rfl

/-- A record that fails at a later field is written as far as that, and nothing is read of it then: the bytes end
where the field should begin. -/
theorem readAll_leadingBytes (hnumber : r.Numbered)
    (h : refusal? r.fields = some (.fieldTooLarge field length most)) (hfield : field ≠ .position) :
    readAll (.ofBytes (leadingBytes r.fields)) = ([], some (.truncated field)) := by
  obtain ⟨htake, hat⟩ := leadingBytes_eq_take h
  have hlayout : r.fields.map (fun entry => (entry.1, entry.2.clipped.encode)) = r.clipped.layout := by
    rw [CachedRecord.layout, fields_clipped, List.map_map]
    rfl
  rw [hlayout] at htake hat
  rw [joined_layout] at htake
  have hpos : 0 < (leadingBytes r.fields).length :=
    List.length_pos_iff.2 fun hnil => hfield ((leadingBytes_eq_nil_iff h).1 hnil)
  rw [readAll_eq, htake, readRecord_cut (storable_clipped hnumber) hpos hat]

end Refused

end Clipping

section Appending

/-- Appends records one after the other. Each call answers for its record, with a failure or without. -/
def FileWriter.appendAll (sink : FileWriter) :
    List CachedRecord → FileWriter × List (CachedRecord × Option CacheError)
  | [] => (sink, [])
  | r :: rest =>
    let (next, answer) := sink.append r
    let (last, answers) := next.appendAll rest
    (last, (r, answer) :: answers)

/-- The records that were appended without a failure. -/
def accepted (answers : List (CachedRecord × Option CacheError)) : List CachedRecord :=
  (answers.filter (·.2.isNone)).map (·.1)

/-- The bytes that some calls left in the file. -/
def leftBytes (answers : List (CachedRecord × Option CacheError)) : List UInt8 :=
  answers.flatMap fun answer => leadingBytes answer.1.fields

/-- Every failure names the first field of its record that is over its limit. -/
def Answered (answers : List (CachedRecord × Option CacheError)) : Prop :=
  ∀ answer ∈ answers, answer.2 = refusal? answer.1.fields

/-- Every call leaves the leading fields of its record in the file, and fails exactly if they are not all. -/
theorem FileWriter.append_eq (sink : FileWriter) (r : CachedRecord) : sink.append r =
    ({ sink with
        pieces := leadingBytes r.fields :: sink.pieces
        recordsWritten := sink.recordsWritten + if (refusal? r.fields).isNone then 1 else 0 },
      refusal? r.fields) := by
  have hwritten : r.write none = ⟨leadingBytes r.fields, refusal? r.fields⟩ := writeFields_eq none r.fields
  unfold append
  rw [hwritten]
  cases refusal? r.fields <;> rfl

/-- What some calls have done to a file. -/
structure Appended (first last : FileWriter) (answers : List (CachedRecord × Option CacheError)) : Prop where
  /-- It is where it was. -/
  temporary_eq : last.temporary = first.temporary
  /-- It is to go where it was to go. -/
  destination_eq : last.destination = first.destination
  /-- The leading fields of all records were added. -/
  contents_eq : last.contents = first.contents ++ leftBytes answers
  /-- The calls that did not fail were counted. -/
  recordsWritten_eq : last.recordsWritten = first.recordsWritten + (accepted answers).length

/-- What calls one after the other have done. -/
theorem appended_appendAll (sink : FileWriter) (records : List CachedRecord) :
    Appended sink (sink.appendAll records).1 (sink.appendAll records).2 := by
  induction records generalizing sink with
  | nil => exact ⟨rfl, rfl, (List.append_nil _).symm, rfl⟩
  | cons r rest ih =>
    have hrest := ih (sink.append r).1
    rw [FileWriter.append_eq] at hrest
    unfold FileWriter.appendAll
    rw [FileWriter.append_eq]
    refine ⟨hrest.temporary_eq, hrest.destination_eq, ?_, ?_⟩
    · rw [hrest.contents_eq]
      simp [FileWriter.contents, leftBytes]
    · rw [hrest.recordsWritten_eq]
      cases hanswer : refusal? r.fields <;> simp [accepted, Nat.add_assoc, Nat.add_comm 1]

/-- Every record is answered for: the failure names its first field that is over its limit. -/
theorem answers_eq (sink : FileWriter) (records : List CachedRecord) :
    (sink.appendAll records).2 = records.map fun r => (r, refusal? r.fields) := by
  induction records generalizing sink with
  | nil => rfl
  | cons r rest ih =>
    unfold FileWriter.appendAll
    rw [FileWriter.append_eq, List.map_cons, ← ih]

variable {answers : List (CachedRecord × Option CacheError)}

theorem accepted_append (xs ys : List (CachedRecord × Option CacheError)) :
    accepted (xs ++ ys) = accepted xs ++ accepted ys := by
  simp [accepted]

theorem leftBytes_append (xs ys : List (CachedRecord × Option CacheError)) :
    leftBytes (xs ++ ys) = leftBytes xs ++ leftBytes ys := List.flatMap_append

/-- A record of which no field is over its limit can be written and read back. -/
theorem fits_of_accepted (hanswers : Answered answers)
    (hnumbers : ∀ answer ∈ answers, answer.1.Numbered) : ∀ r ∈ accepted answers, r.Fits := by
  intro r hr
  obtain ⟨answer, hm, rfl⟩ := List.mem_map.1 hr
  obtain ⟨hm, hnone⟩ := List.mem_filter.1 hm
  refine ⟨fun entry he => ?_, hnumbers answer hm⟩
  have hrefusal : refusal? answer.1.fields = none :=
    (hanswers answer hm).symm.trans (Option.isNone_iff_eq_none.1 hnone)
  have hkeeps : keepsLimit entry = true := by
    have hall : ∀ entry ∈ answer.1.fields, keepsLimit entry = true := by simpa [refusal?] using hrefusal
    exact hall entry he
  rw [FieldValue.excess?_eq]
  exact if_pos (of_decide_eq_true hkeeps)

/-- A call that did not fail has left the whole record. -/
theorem leftBytes_cons_accepted {r : CachedRecord} (h : refusal? r.fields = none)
    (rest : List (CachedRecord × Option CacheError)) :
    leftBytes ((r, none) :: rest) = r.encode ++ leftBytes rest := by
  unfold leftBytes
  rw [List.flatMap_cons, leadingBytes_of_none h]
  rfl

/-- The bytes that calls left are as many as those of the records that were appended and those that the failed
calls left. -/
theorem length_leftBytes (hanswers : Answered answers) :
    (leftBytes answers).length =
      (encodeAll (accepted answers)).length + (leftBytes (answers.filter (·.2.isSome))).length := by
  induction answers with
  | nil => rfl
  | cons answer rest ih =>
    have hrest := ih fun other ho => hanswers other (List.mem_cons_of_mem _ ho)
    have hanswer := hanswers answer List.mem_cons_self
    obtain ⟨r, _ | e⟩ := answer
    · rw [leftBytes_cons_accepted hanswer.symm, List.length_append, hrest, ← Nat.add_assoc,
        ← List.length_append]
      rfl
    · have hleft (others : List (CachedRecord × Option CacheError)) :
          (leftBytes ((r, some e) :: others)).length =
            (leadingBytes r.fields).length + (leftBytes others).length :=
        List.length_append
      have hfiltered : ((r, some e) :: rest).filter (·.2.isSome) =
          (r, some e) :: rest.filter (·.2.isSome) := rfl
      have haccepted : accepted ((r, some e) :: rest) = accepted rest := rfl
      rw [hfiltered, haccepted, hleft, hleft, hrest]
      omega

/-- The bytes that calls left are those of the records that were appended exactly if the failed calls left
nothing. -/
theorem leftBytes_eq_iff (hanswers : Answered answers) :
    leftBytes answers = encodeAll (accepted answers) ↔
      ∀ r e, (r, some e) ∈ answers → leadingBytes r.fields = [] := by
  constructor
  · intro h r e hm
    have hlength := length_leftBytes hanswers
    rw [h] at hlength
    have hnil : leftBytes (answers.filter (·.2.isSome)) = [] := List.eq_nil_of_length_eq_zero (by omega)
    exact List.flatMap_eq_nil_iff.1 hnil (r, some e) (List.mem_filter.2 ⟨hm, rfl⟩)
  · intro h
    induction answers with
    | nil => rfl
    | cons answer rest ih =>
      have hrest := ih (fun other ho => hanswers other (List.mem_cons_of_mem _ ho))
        fun r e hm => h r e (List.mem_cons_of_mem _ hm)
      have hanswer := hanswers answer List.mem_cons_self
      obtain ⟨r, _ | e⟩ := answer
      · rw [leftBytes_cons_accepted hanswer.symm, hrest]
        rfl
      · have hnil := h r e List.mem_cons_self
        unfold leftBytes at hrest ⊢
        rw [List.flatMap_cons, hrest, hnil]
        rfl

end Appending

section Finishing

variable {fs begun fs' : FileSystem} {destination stem path : String} {first last : FileWriter}

/-- A file that was begun and is finished stands at its destination and is read as what was written to it. -/
theorem readFile_finished (hfresh : fs.Fresh)
    (hcreate : FileWriter.create fs destination stem = (begun, .ok first))
    (htemporary : last.temporary = first.temporary) (hdestination : last.destination = first.destination)
    (hfinish : last.finish begun = (fs', .ok (.persisted path))) :
    path = destination ∧
      (∃ place file, fs'.find path = .ok (place, .file file) ∧ Gzip.Unpacks file last.contents) ∧
      readFile fs' path = readAll (.ofBytes last.contents) := by
  obtain ⟨hfirst, -, old, hbegun⟩ := begun_create hfresh hcreate
  rw [← htemporary] at hbegun
  have hmoved := finish_eq hbegun
  rw [hfinish] at hmoved
  cases hplace : begun.freePlace last.destination with
  | error e =>
    rw [hplace] at hmoved
    cases e <;> nomatch congrArg Prod.snd hmoved
  | ok place =>
    rw [hplace] at hmoved
    cases hmoved
    obtain ⟨above, name, hparts, hne, hrel⟩ := FileSystem.exists_parts_of_freePlace hplace
    have hfind := (hbegun.move hparts hne hrel hplace (Gzip.pack last.contents)).2
    have hunpacks := Gzip.unpacks_pack last.contents
    exact ⟨hdestination.trans hfirst, ⟨place, _, hfind, hunpacks⟩, readFile_of_unpacks hfind hunpacks⟩

/-- Nothing was written to a file that was just started. -/
theorem recordsWritten_create (hcreate : FileWriter.create fs destination stem = (begun, .ok first)) :
    first.recordsWritten = 0 := by
  unfold FileWriter.create at hcreate
  dsimp only at hcreate
  split at hcreate
  · nomatch congrArg Prod.snd hcreate
  · split at hcreate
    · nomatch congrArg Prod.snd hcreate
    · cases hcreate
      rfl

end Finishing

section Reading

variable {answers : List (CachedRecord × Option CacheError)}

/-- A record is written as it is read back. -/
theorem encodeAll_floored (records : List CachedRecord) :
    encodeAll (records.map (·.floored)) = encodeAll records := by
  have hone (r : CachedRecord) : r.floored.encode = r.encode := by
    simp [CachedRecord.encode, CachedRecord.fields, CachedRecord.floored, EventRecord.floored]
  unfold encodeAll
  rw [List.flatMap_map]
  exact congrArg (List.flatMap · records) (funext hone)

/-- The failure is that a field is over its limit. -/
def CacheError.Oversized (field : Field) (e : CacheError) : Prop :=
  ∃ length most, e = .fieldTooLarge field length most

/-- Calls that failed at the first field, if at all, left the records that were appended. -/
theorem leftBytes_of_position (hanswers : Answered answers)
    (h : ∀ r e, (r, some e) ∈ answers → e.Oversized .position) :
    leftBytes answers = encodeAll (accepted answers) := by
  refine (leftBytes_eq_iff hanswers).2 fun r e hm => ?_
  obtain ⟨length, most, rfl⟩ := h r e hm
  exact (leadingBytes_eq_nil_iff (hanswers _ hm).symm).2 rfl

/-- What calls left is read as the records that were appended, up to a clean end, exactly if all failed calls
failed at the first field. -/
theorem readAll_leftBytes_iff (hanswers : Answered answers) (hfits : ∀ r ∈ accepted answers, r.Fits) :
    readAll (.ofBytes (leftBytes answers)) = ((accepted answers).map (·.floored), none) ↔
      ∀ r e, (r, some e) ∈ answers → e.Oversized .position := by
  constructor
  · intro h r e hm
    have hbytes := (readAll_eq_iff.1 h).bytes_eq.1
    rw [encodeAll_floored] at hbytes
    have hnil := (leftBytes_eq_iff hanswers).1 hbytes r e hm
    have hanswer := hanswers _ hm
    obtain ⟨entry, -, rfl⟩ := Option.map_eq_some_iff.1 hanswer.symm
    have hfield := (leadingBytes_eq_nil_iff hanswer.symm).1 hnil
    exact ⟨_, _, congrArg (CacheError.fieldTooLarge · _ _) hfield⟩
  · intro h
    rw [leftBytes_of_position hanswers h]
    exact readAll_encodeAll hfits

variable {before after : List (CachedRecord × Option CacheError)} {r : CachedRecord} {field : Field}
  {length most : Nat}

/-- What calls left up to the first that failed at a later field is read as the records that were appended before
it, and the end of the bytes is met at its field if it was the last. -/
theorem readAll_leftBytes_append (hanswers : Answered before) (hfits : ∀ r ∈ accepted before, r.Fits)
    (hbefore : ∀ r e, (r, some e) ∈ before → e.Oversized .position) (hnumber : r.Numbered)
    (hrefusal : refusal? r.fields = some (.fieldTooLarge field length most)) (hfield : field ≠ .position)
    (outcome : Option CacheError) :
    (accepted before).map (·.floored) <+:
        (readAll (.ofBytes (leftBytes (before ++ (r, outcome) :: after)))).1 ∧
      (after = [] → readAll (.ofBytes (leftBytes (before ++ (r, outcome) :: after))) =
        ((accepted before).map (·.floored), some (.truncated field))) := by
  rw [leftBytes_append, leftBytes_of_position hanswers hbefore, readAll_encodeAll_append hfits]
  refine ⟨List.prefix_append _ _, ?_⟩
  rintro rfl
  have hleft : leftBytes [(r, outcome)] = leadingBytes r.fields := List.flatMap_singleton _ _
  rw [hleft, readAll_leadingBytes hnumber hrefusal hfield, List.append_nil]

end Reading

section Overlong

/-- A record with some position and some type. -/
def placed (position eventType : String) : CachedRecord :=
  ⟨position, ⟨.epoch, ⟨"parcels", "1", by decide⟩, 0, eventType, [1], []⟩⟩

theorem numbered_placed (position eventType : String) : (placed position eventType).Numbered := by
  simp [CachedRecord.Numbered, placed, Bytes.modulus64]

/-- No field is over its limit. -/
theorem refusal_placed {position : String} (h : (Utf8.encode position).length ≤ 65535) :
    refusal? (placed position "Placed").fields = none := by
  have htexts : (Utf8.encode "parcels").length = 7 ∧ (Utf8.encode "1").length = 1 ∧
      (Utf8.encode "Placed").length = 6 := ⟨rfl, rfl, rfl⟩
  simp [refusal?, placed, CachedRecord.fields, keepsLimit, FieldValue.size, FieldValue.limit, h, htexts]

/-- The position is over the limit. -/
theorem refusal_position {text : String} (h : (Utf8.encode text).length = 65536) :
    refusal? (placed text "Placed").fields = some (.fieldTooLarge .position 65536 65535) := by
  simp [refusal?, placed, CachedRecord.fields, keepsLimit, FieldValue.size, FieldValue.limit, h]

/-- The type is over the limit, and no field before it. -/
theorem refusal_eventType {text : String} (h : (Utf8.encode text).length = 65536) :
    refusal? (placed "2" text).fields = some (.fieldTooLarge .eventType 65536 65535) := by
  have htexts : (Utf8.encode "2").length = 1 ∧ (Utf8.encode "parcels").length = 7 ∧
      (Utf8.encode "1").length = 1 := ⟨rfl, rfl, rfl⟩
  simp [refusal?, placed, CachedRecord.fields, keepsLimit, FieldValue.size, FieldValue.limit, h, htexts]

/-- The tree in which a file was begun, where nothing stood before. -/
def begunAlone : FileSystem := { nodes := [([.drawn ".s-" ".tmp" 0], .file [])], temporaries := 1 }

/-- The file that was begun there. -/
def firstAlone : FileWriter :=
  { destination := "a", temporary := ⟨"./.s-000000.tmp", .drawn ".s-" ".tmp" 0⟩ }

theorem create_alone : FileWriter.create {} "a" "s" = (begunAlone, .ok firstAlone) := by rfl

theorem fresh_alone : FileSystem.Fresh {} :=
  FileSystem.fresh_of_given fun _ he => absurd he List.not_mem_nil

/-- Whatever is appended to it, it can be finished. -/
theorem exists_finish_alone (records : List CachedRecord) : ∃ last fs',
    firstAlone.appendAll records = (last, records.map fun r => (r, refusal? r.fields)) ∧
      last.finish begunAlone = (fs', .ok (.persisted "a")) := by
  have hplace : begunAlone.freePlace "a" = .ok [.given "a"] := by rfl
  have happended := appended_appendAll firstAlone records
  have hdestination : (firstAlone.appendAll records).1.destination = "a" := happended.destination_eq
  obtain ⟨-, -, old, hbegun⟩ := begun_create fresh_alone create_alone
  rw [← happended.temporary_eq] at hbegun
  have hfinish := finish_eq hbegun
  rw [hdestination, hplace] at hfinish
  exact ⟨_, _, Prod.ext rfl (answers_eq firstAlone records), hfinish⟩

end Overlong

/-- Records are appended to a file, and some calls fail because a field is over its limit. Every failed call
leaves the fields of its record before that field in the file, and every other call its whole record, so once
the file is finished it is read cleanly as the records that were appended exactly if all failed calls failed at
the position. If one failed at a later field, the records that were appended before the first such call are read
first, and if it was the last call, reading ends there and names the field. The count is that of the calls that
did not fail. -/
theorem failed_appends_leave_leading_fields {fs begun fs' : FileSystem} {destination stem path : String}
    {first last : FileWriter} {records : List CachedRecord} {answers : List (CachedRecord × Option CacheError)}
    (hfresh : fs.Fresh) (hnumbers : ∀ r ∈ records, r.Numbered)
    (hcreate : FileWriter.create fs destination stem = (begun, .ok first))
    (happend : first.appendAll records = (last, answers))
    (hfinish : last.finish begun = (fs', .ok (.persisted path))) :
    last.recordsWritten = (accepted answers).length ∧
      (∃ place file, fs'.find path = .ok (place, .file file) ∧ Gzip.Unpacks file (leftBytes answers)) ∧
      (readFile fs' path = ((accepted answers).map (·.floored), none) ↔
        ∀ r e, (r, some e) ∈ answers → e.Oversized .position) ∧
      ∀ before r field e after, answers = before ++ (r, some e) :: after → e.Oversized field →
        field ≠ .position → (∀ r e, (r, some e) ∈ before → e.Oversized .position) →
          (accepted before).map (·.floored) <+: (readFile fs' path).1 ∧
            (after = [] →
              readFile fs' path = ((accepted before).map (·.floored), some (.truncated field))) := by
  have happended := appended_appendAll first records
  rw [happend] at happended
  have hrecords : answers = records.map fun r => (r, refusal? r.fields) := by
    rw [← answers_eq first records, happend]
  have hanswers : Answered answers := by
    rw [hrecords]
    exact List.forall_mem_map.2 fun r _ => rfl
  have hnumbered : ∀ answer ∈ answers, answer.1.Numbered := by
    rw [hrecords]
    exact List.forall_mem_map.2 hnumbers
  have hfits := fits_of_accepted hanswers hnumbered
  have hcontents : last.contents = leftBytes answers := by
    rw [happended.contents_eq, (begun_create hfresh hcreate).2.1, List.nil_append]
  obtain ⟨-, hfind, hread⟩ :=
    readFile_finished hfresh hcreate happended.temporary_eq happended.destination_eq hfinish
  rw [hcontents] at hfind hread
  rw [hread]
  refine ⟨?_, hfind, readAll_leftBytes_iff hanswers hfits, ?_⟩
  · rw [happended.recordsWritten_eq, recordsWritten_create hcreate, Nat.zero_add]
  · rintro before r field e after rfl ⟨length, most, rfl⟩ hfield hbefore
    have hm : (r, some (.fieldTooLarge field length most)) ∈
        before ++ (r, some (.fieldTooLarge field length most)) :: after :=
      List.mem_append_right before List.mem_cons_self
    refine readAll_leftBytes_append (fun answer ha => hanswers answer (List.mem_append_left _ ha))
      (fun other ho => hfits other ?_) hbefore (hnumbered _ hm) (hanswers _ hm).symm hfield _
    rw [accepted_append]
    exact List.mem_append_left _ ho

/-- A position that is too long leaves nothing in the file, so the records before and after it are read. -/
theorem failed_appends_leave_leading_fields_of_position :
    let records := [placed "1" "Placed", placed overlong "Placed", placed "2" "Placed"]
    let answers := [(placed "1" "Placed", none),
      (placed overlong "Placed", some (.fieldTooLarge .position 65536 65535)), (placed "2" "Placed", none)]
    FileSystem.Fresh {} ∧ (∀ r ∈ records, r.Numbered) ∧
      FileWriter.create {} "a" "s" = (begunAlone, .ok firstAlone) ∧
      ∃ last fs', firstAlone.appendAll records = (last, answers) ∧
        last.finish begunAlone = (fs', .ok (.persisted "a")) ∧ last.recordsWritten = 2 ∧
        readFile fs' "a" = ([(placed "1" "Placed").floored, (placed "2" "Placed").floored], none) := by
  intro records answers
  have hnumbers : ∀ r ∈ records, r.Numbered := by simp [records, numbered_placed]
  have hanswers : (records.map fun r => (r, refusal? r.fields)) = answers := by
    simp only [records, List.map_cons, List.map_nil, refusal_position length_overlong,
      refusal_placed (show (Utf8.encode "1").length ≤ 65535 by decide),
      refusal_placed (show (Utf8.encode "2").length ≤ 65535 by decide), answers]
  obtain ⟨last, fs', happend, hfinish⟩ := exists_finish_alone records
  rw [hanswers] at happend
  obtain ⟨hcount, -, hread, -⟩ :=
    failed_appends_leave_leading_fields fresh_alone hnumbers create_alone happend hfinish
  refine ⟨fresh_alone, hnumbers, create_alone, last, fs', happend, hfinish, hcount, hread.2 ?_⟩
  intro r e hm
  have houtcome : some e ∈ answers.map (·.2) := List.mem_map_of_mem hm
  obtain rfl : e = .fieldTooLarge .position 65536 65535 := by
    simpa [answers] using houtcome
  exact ⟨_, _, rfl⟩

/-- A type that is too long leaves the fields before it in the file. So the one record that was appended is not
all that is met when the file is read: it ends in the middle of the record that was refused. -/
theorem overlong_type_spoils_file :
    let records := [placed "1" "Placed", placed "2" overlong]
    let answers := [(placed "1" "Placed", none),
      (placed "2" overlong, some (.fieldTooLarge .eventType 65536 65535))]
    FileWriter.create {} "a" "s" = (begunAlone, .ok firstAlone) ∧
      ∃ last fs', firstAlone.appendAll records = (last, answers) ∧
        last.finish begunAlone = (fs', .ok (.persisted "a")) ∧ last.recordsWritten = 1 ∧
        readFile fs' "a" = ([(placed "1" "Placed").floored], some (.truncated .eventType)) ∧
        readFile fs' "a" ≠ ((accepted answers).map (·.floored), none) := by
  intro records answers
  have hnone := refusal_placed (show (Utf8.encode "1").length ≤ 65535 by decide)
  have hanswers : (records.map fun r => (r, refusal? r.fields)) = answers := by
    simp only [records, List.map_cons, List.map_nil, hnone, refusal_eventType length_overlong, answers]
  obtain ⟨last, fs', happend, hfinish⟩ := exists_finish_alone records
  rw [hanswers] at happend
  have happended := appended_appendAll firstAlone records
  rw [happend] at happended
  obtain ⟨-, -, hread⟩ := readFile_finished fresh_alone create_alone happended.temporary_eq
    happended.destination_eq hfinish
  have hcontents : last.contents = leftBytes answers := happended.contents_eq
  have hfits : ∀ r ∈ accepted [(placed "1" "Placed", none)], r.Fits := by
    refine fits_of_accepted ?_ ?_
    · simp [Answered, hnone]
    · simp [numbered_placed]
  have hends : readAll (.ofBytes (leftBytes answers)) =
      ([(placed "1" "Placed").floored], some (.truncated .eventType)) := by
    refine (readAll_leftBytes_append ?_ hfits ?_ ?_ (refusal_eventType length_overlong) (by decide) _).2 rfl
    · simp [Answered, hnone]
    · simp
    · simp [numbered_placed]
  rw [hcontents, hends] at hread
  refine ⟨create_alone, last, fs', happend, hfinish, happended.recordsWritten_eq, hread, ?_⟩
  rw [hread]
  exact fun h => nomatch congrArg Prod.snd h

end Chronicle.Cache
