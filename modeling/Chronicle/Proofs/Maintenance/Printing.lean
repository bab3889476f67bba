import Chronicle.Maintenance.Listing
import Chronicle.Maintenance.Verification
import Chronicle.Position.Codec
import Chronicle.Proofs.Text.JsonTokens

/-!
# What printed lines show

What a command prints is read back here. A line of a listing is a JSON object that tells everything about one
event. A row of a verification has the name of a segment in its first thirty columns, and then a number and a
status with blanks before them. The JSON text of a verification is one object over several lines, and tells the
same of every segment.
-/

namespace Chronicle.Maintenance

open Cache JsonText

section Events

/-- The object that shows an event at a position of some text. -/
def eventTokens (position : String) (record : EventRecord) : List Token :=
  Token.object [
    ("position", [.text position]),
    ("stream_id", [.text (record.stream.category ++ "-" ++ record.stream.id)]),
    ("event_number", [.number record.number]),
    ("event_type", [.text record.eventType]),
    ("timestamp", [.text record.timestamp.text]),
    ("data", [.text (Utf8.lossy record.data)]),
    ("metadata", [.text (Utf8.lossy record.metadata)])]

/-- A line shows an event: read as JSON it is the object of the event, at a text that denotes its position. -/
def ShowsEvent {P : Type} (codec : PositionCodec P) (line : String) (event : Placed P) : Prop :=
  ∃ position, codec.deserialize position = .ok event.position ∧
    tokens? line = some (eventTokens position event.record)

/-- The line of a record shows all that is in it. -/
theorem tokens?_jsonRow (cached : CachedRecord) :
    tokens? (jsonRow cached) = some (eventTokens cached.position cached.record) := by
  have hstring (name text : String) : WritesMember (name, string text) (name, [.text text]) :=
    ⟨rfl, (closed_string text).spells⟩
  have hnumber (name : String) (n : Int) : WritesMember (name, toString n) (name, [.number n]) :=
    ⟨rfl, spells_number n⟩
  exact (closed_object (.cons (hstring _ _) (.cons (hstring _ _) (.cons (hnumber _ _) (.cons (hstring _ _)
    (.cons (hstring _ _) (.cons (hstring _ _) (.cons (hstring _ _) .nil)))))))).spells.tokens?

end Events

section Segments

/-- How the decoding of a segment ended, in words. -/
def outcome : Option CacheError → String
  | none => "ok"
  | some e => e.message

/-- The first letter of a text. -/
def letter? (text : String) : Option Char := text.toList.head?

/-- A text begins as its first part does. -/
theorem letter?_append {s t : String} {c : Char} (h : letter? s = some c) : letter? (s ++ t) = some c := by
  unfold letter? at *
  rw [String.toList_append, List.head?_append, h]
  rfl

/-- No field has a name that begins like a success is worded. -/
theorem letter?_name (field : Field) : ∃ c, letter? field.name = some c ∧ c ≠ 'o' := by
  cases field <;> exact ⟨_, rfl, by decide⟩

/-- No failure is worded like a success: none of the wordings begins with its letter. -/
theorem message_ne_ok (e : CacheError) : e.message ≠ "ok" := by
  obtain ⟨c, hc, hne⟩ : ∃ c, letter? e.message = some c ∧ c ≠ 'o' := by
    unfold CacheError.message
    cases e with
    | io what => exact ⟨'I', letter?_append rfl, by decide⟩
    | truncated field => exact ⟨'c', letter?_append rfl, by decide⟩
    | fieldTooLarge field length most =>
      obtain ⟨c, hc, hne⟩ := letter?_name field
      exact ⟨c, letter?_append (letter?_append (letter?_append (letter?_append hc))), hne⟩
    | negativeLength field length =>
      exact ⟨'n', letter?_append (letter?_append (letter?_append rfl)), by decide⟩
    | invalidUtf8 field => exact ⟨'i', letter?_append rfl, by decide⟩
    | invalidTimestamp ms => exact ⟨'t', letter?_append (letter?_append rfl), by decide⟩
    | invalidStreamId what => exact ⟨'i', letter?_append rfl, by decide⟩
    | position text reason => exact ⟨'u', letter?_append (letter?_append (letter?_append rfl)), by decide⟩
  intro h
  rw [h] at hc
  exact hne (Option.some.inj hc).symm

/-- A success is worded so exactly if nothing failed. -/
theorem outcome_eq_ok_iff (failure : Option CacheError) : outcome failure = "ok" ↔ failure = none := by
  cases failure with
  | none => exact iff_of_true rfl rfl
  | some e => exact iff_of_false (message_ne_ok e) nofun

theorem status_eq (report : SegmentReport) : report.status = outcome report.failure := by
  unfold SegmentReport.status outcome
  cases report.failure <;> rfl

/-- What stands in the columns of a row. -/
structure Cells where
  /-- The first thirty columns. -/
  name : List Char
  /-- What stands between blanks behind them. -/
  records : List Char
  /-- What follows behind the next blank. -/
  status : List Char
  deriving DecidableEq, Repr

/-- A row by its columns. -/
def Cells.ofRow (row : String) : Cells :=
  let rest := (row.toList.drop 31).dropWhile (· == ' ')
  ⟨row.toList.take 30, rest.takeWhile (· != ' '), (rest.dropWhile (· != ' ')).drop 1⟩

/-- A name in thirty columns: with blanks behind it, or with dots for what has no room. -/
def nameCell (name : String) : List Char :=
  if name.length ≤ 30 then name.toList ++ List.replicate (30 - name.length) ' '
  else name.toList.take 27 ++ ['.', '.', '.']

/-- A row shows how a segment decodes: its name, how many records it yielded, and how its decoding ended. -/
def ShowsSegment (row : String) (report : SegmentReport) : Prop :=
  Cells.ofRow row = ⟨nameCell report.name, (toString report.records).toList, (outcome report.failure).toList⟩

/-- The line above the rows. -/
def tableHeading : String := "SEGMENT                           RECORDS STATUS"

/-- The row of a segment in a table. -/
def segmentRow (report : SegmentReport) : String :=
  " ".intercalate [Column.left 30 (Column.cut 30 report.name), Column.right 10 (toString report.records),
    report.status]

/-- Names are cut and filled up to their columns. -/
theorem toList_left_cut (name : String) : (Column.left 30 (Column.cut 30 name)).toList = nameCell name := by
  unfold Column.left Column.cut nameCell
  split
  · rw [String.toList_append, String.toList_ofList]
  · rename_i hlong
    have hcut : (String.ofList (name.toList.take (30 - 3)) ++ "...").toList =
        name.toList.take 27 ++ ['.', '.', '.'] := by
      rw [String.toList_append, String.toList_ofList]
      rfl
    have hlength : (String.ofList (name.toList.take (30 - 3)) ++ "...").length = 30 := by
      rw [← String.length_toList, hcut, List.length_append, List.length_take, String.length_toList]
      simp only [List.length_cons, List.length_nil]
      omega
    rw [String.toList_append, hcut, hlength, String.toList_ofList, Nat.sub_self, List.replicate_zero,
      List.append_nil]

theorem length_nameCell (name : String) : (nameCell name).length = 30 := by
  unfold nameCell
  split
  · rw [List.length_append, String.length_toList, List.length_replicate]
    omega
  · rw [List.length_append, List.length_take, String.length_toList]
    simp only [List.length_cons, List.length_nil]
    omega

/-- A row is read as what was put in its columns. -/
theorem showsSegment_segmentRow (report : SegmentReport) : ShowsSegment (segmentRow report) report := by
  have hrow : (segmentRow report).toList = nameCell report.name ++ ' ' ::
      (List.replicate (10 - (toString report.records).length) ' ' ++
        ((toString report.records).toList ++ ' ' :: (outcome report.failure).toList)) := by
    unfold segmentRow
    rw [String.intercalate_cons_cons, String.intercalate_cons_cons, String.intercalate_singleton, status_eq]
    simp only [String.toList_append, toList_left_cut, Column.right, String.toList_ofList, List.append_assoc]
    rfl
  obtain ⟨hne, hletters⟩ := repr_isWord report.records
  have hdigits : ∀ c ∈ (toString report.records).toList, (c != ' ') = true := fun c hc =>
    bne_iff_ne.2 fun hblank => absurd (hletters c hc) (by rw [hblank]; decide)
  have hrest : ((segmentRow report).toList.drop 31).dropWhile (· == ' ') =
      (toString report.records).toList ++ ' ' :: (outcome report.failure).toList := by
    have hdrop : (segmentRow report).toList.drop 31 = List.replicate (10 - (toString report.records).length) ' ' ++
        ((toString report.records).toList ++ ' ' :: (outcome report.failure).toList) := by
      rw [hrow, List.drop_append, length_nameCell, List.drop_eq_nil_of_le (by rw [length_nameCell]; omega)]
      rfl
    rw [hdrop, List.dropWhile_append_of_pos fun c hc => beq_iff_eq.2 (List.eq_of_mem_replicate hc)]
    obtain ⟨c, digits, hcons⟩ := List.exists_cons_of_ne_nil hne
    change (toString report.records).toList = c :: digits at hcons
    have hc := hdigits c (by rw [hcons]; exact List.mem_cons_self)
    rw [hcons, List.cons_append, List.dropWhile_cons_of_neg (by simpa using hc)]
  unfold ShowsSegment Cells.ofRow
  rw [hrest]
  dsimp only
  rw [List.takeWhile_append_of_pos hdigits, List.dropWhile_append_of_pos hdigits,
    List.takeWhile_cons_of_neg (by decide), List.dropWhile_cons_of_neg (by decide), List.append_nil, hrow,
    List.take_left' (length_nameCell _)]
  rfl

/-- The table of a verification has a heading and a rule, a row for each segment, and then perhaps notes. -/
theorem table_eq (v : Verification) : ∃ rows notes,
    v.table = tableHeading :: String.ofList (List.replicate 70 '-') :: rows ++ notes ∧
      List.Forall₂ ShowsSegment rows v.segments := by
  refine ⟨v.segments.map segmentRow, _, List.append_assoc _ _ _, ?_⟩
  rw [List.forall₂_map_left_iff, List.forall₂_same]
  exact fun report _ => showsSegment_segmentRow report

end Segments

section Objects

/-- The object that shows how a segment decodes. -/
def segmentTokens (report : SegmentReport) : List Token :=
  Token.object [
    ("records", [.number report.records]),
    ("segment", [.text report.name]),
    ("status", [.text (outcome report.failure)])]

/-- The object that shows the state of a cache. -/
def verificationTokens (v : Verification) : List Token :=
  Token.object [
    ("in_progress", [.number v.inProgress]),
    ("ok", [.word (toString (v.segments.all (·.failure.isNone))).toList]),
    ("segments", Token.array (v.segments.map segmentTokens)),
    ("stranded", [.number v.stranded])]

variable {line : String} {lines more : List String} {tokens others : List Token}

theorem linesText_append (lines more : List String) :
    linesText (lines ++ more) = linesText lines ++ linesText more := by
  unfold linesText
  rw [List.map_append, String.join_append]

/-- Lines are read one after the other. -/
theorem closed_linesText_cons (h : Spells line.toList tokens) (hlines : Closed (linesText lines).toList others) :
    Closed (linesText (line :: lines)).toList (tokens ++ others) := by
  unfold linesText
  rw [List.map_cons, String.join_cons, String.toList_append, String.toList_append]
  exact (h.blank rfl).append hlines

theorem closed_linesText_append (h : Closed (linesText lines).toList tokens)
    (hmore : Closed (linesText more).toList others) :
    Closed (linesText (lines ++ more)).toList (tokens ++ others) := by
  rw [linesText_append, String.toList_append]
  exact h.append hmore

/-- A value on a line is read behind what stands before it. -/
theorem spells_value {start value : String} (hstart : Closed start.toList tokens) (h : Spells value.toList others) :
    Spells (start ++ value).toList (tokens ++ others) := by
  rw [String.toList_append]
  exact hstart.append_spells h

/-- A comma may stand behind it. -/
theorem spells_comma {value : String} (h : Spells value.toList tokens) :
    Spells (value ++ ",").toList (tokens ++ [.mark ',']) := by
  rw [String.toList_append]
  exact (h.mark rfl rfl).spells

/-- The tokens of a segment's object but for the brace that ends it. -/
def openSegmentTokens (report : SegmentReport) : List Token :=
  .mark '\x7b' :: [Token.mark ','].intercalate [
    [.text "records", .mark ':', .number report.records],
    [.text "segment", .mark ':', .text report.name],
    [.text "status", .mark ':', .text (outcome report.failure)]]

/-- The lines of a segment are read as its object, with whatever stands on the last of them. -/
theorem closed_segmentLines (report : SegmentReport) {last : String} (hlast : Spells last.toList tokens) :
    Closed (linesText (report.jsonLines.dropLast ++ [last])).toList (openSegmentTokens report ++ tokens) := by
  have hopen : Closed "    \x7b".toList [.mark '\x7b'] := fun _ => rfl
  have hrecords : Closed "      \"records\": ".toList [.text "records", .mark ':'] := fun _ => rfl
  have hsegment : Closed "      \"segment\": ".toList [.text "segment", .mark ':'] := fun _ => rfl
  have hstatus : Closed "      \"status\": ".toList [.text "status", .mark ':'] := fun _ => rfl
  have hend : Closed (linesText []).toList [] := fun _ => rfl
  have hwording : Spells (string report.status).toList [.text (outcome report.failure)] := by
    rw [← status_eq]
    exact (closed_string _).spells
  have hlines := closed_linesText_cons hopen.spells (closed_linesText_cons
    (spells_comma (spells_value hrecords (spells_number report.records))) (closed_linesText_cons
    (spells_comma (spells_value hsegment (closed_string report.name).spells)) (closed_linesText_cons
    (spells_value hstatus hwording) (closed_linesText_cons hlast hend))))
  rw [List.append_nil] at hlines
  exact hlines

/-- The lines of segments are read as their objects with commas between them. -/
theorem closed_jsonSegmentLines (reports : List SegmentReport) :
    Closed (linesText (jsonSegmentLines reports)).toList
      ([Token.mark ','].intercalate (reports.map segmentTokens)) := by
  induction reports with
  | nil => exact fun _ => rfl
  | cons report rest ih =>
    cases rest with
    | nil =>
      rw [List.map_singleton, List.intercalate_singleton]
      have hlast : Closed "    \x7d".toList [.mark '\x7d'] := fun _ => rfl
      exact closed_segmentLines report hlast.spells
    | cons second rest =>
      have hlast : Closed "    \x7d,".toList [.mark '\x7d', .mark ','] := fun _ => rfl
      have hlines := closed_linesText_append (closed_segmentLines report hlast.spells) ih
      have hobject : segmentTokens report = openSegmentTokens report ++ [.mark '\x7d'] := rfl
      rw [List.map_cons, List.map_cons, List.intercalate_cons_cons, hobject, List.append_assoc _ [_] [_]]
      exact hlines

/-- The lines of all segments are read as the member with their array, and a comma. -/
theorem closed_segments (reports : List SegmentReport) :
    Closed (linesText (if reports.isEmpty then ["  \"segments\": [],"]
      else ["  \"segments\": ["] ++ jsonSegmentLines reports ++ ["  ],"])).toList
      (.text "segments" :: .mark ':' :: Token.array (reports.map segmentTokens) ++ [.mark ',']) := by
  cases reports with
  | nil => exact fun _ => rfl
  | cons report rest =>
    have hopen : Closed (linesText ["  \"segments\": ["]).toList [.text "segments", .mark ':', .mark '['] :=
      fun _ => rfl
    have hclose : Closed (linesText ["  ],"]).toList [.mark ']', .mark ','] := fun _ => rfl
    have hlines := closed_linesText_append
      (closed_linesText_append hopen (closed_jsonSegmentLines (report :: rest))) hclose
    have hmember : .text "segments" :: .mark ':' :: Token.array ((report :: rest).map segmentTokens) ++ [.mark ','] =
        [.text "segments", .mark ':', .mark '['] ++
          [Token.mark ','].intercalate ((report :: rest).map segmentTokens) ++ [.mark ']', .mark ','] := by
      simp only [Token.array, List.cons_append, List.nil_append, List.append_assoc]
    rw [hmember]
    exact hlines

/-- The JSON text of a verification is read as its object. -/
theorem tokens?_json (v : Verification) : tokens? (linesText v.json) = some (verificationTokens v) := by
  have hopen : Closed "\x7b".toList [.mark '\x7b'] := fun _ => rfl
  have hprogress : Closed "  \"in_progress\": ".toList [.text "in_progress", .mark ':'] := fun _ => rfl
  have hok : Closed "  \"ok\": ".toList [.text "ok", .mark ':'] := fun _ => rfl
  have hstranded : Closed "  \"stranded\": ".toList [.text "stranded", .mark ':'] := fun _ => rfl
  have hclose : Closed "\x7d".toList [.mark '\x7d'] := fun _ => rfl
  have hend : Closed (linesText []).toList [] := fun _ => rfl
  have hfirst := closed_linesText_cons hopen.spells (closed_linesText_cons
    (spells_comma (spells_value hprogress (spells_number v.inProgress))) (closed_linesText_cons
    (spells_comma (spells_value hok (spells_bool v.ok))) hend))
  have hlast := closed_linesText_cons (spells_value hstranded (spells_number v.stranded))
    (closed_linesText_cons hclose.spells hend)
  have hlines := closed_linesText_append (closed_linesText_append hfirst (closed_segments v.segments)) hlast
  have hobject : verificationTokens v = .mark '\x7b' :: .text "in_progress" :: .mark ':' ::
      .number v.inProgress :: .mark ',' :: .text "ok" :: .mark ':' :: .word (toString v.ok).toList :: .mark ',' ::
      (.text "segments" :: .mark ':' :: Token.array (v.segments.map segmentTokens) ++ [.mark ',']) ++
      [.text "stranded", .mark ':', .number v.stranded, .mark '\x7d'] := by
    simp only [verificationTokens, Token.object, List.map_cons, List.map_nil, List.intercalate_cons_cons,
      List.intercalate_singleton, List.cons_append, List.nil_append, List.append_assoc]
    rfl
  rw [hobject]
  exact hlines.spells.tokens?

end Objects

end Chronicle.Maintenance
