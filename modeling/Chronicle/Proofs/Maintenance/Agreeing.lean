import Mathlib.Algebra.GroupWithZero.Nat
import Mathlib.Data.List.Forall2
import Chronicle.Proofs.Cache.Histories
import Chronicle.Proofs.Maintenance.Listings
import Chronicle.Proofs.Maintenance.Printing

/-!
# A listing, a verification and a caching reader of the same files

A listing prints the records of a cache without knowing what their positions mean. A caching reader reads the
positions too, and stops at one that it cannot read. Where it can read all of them, the two agree: a line is
printed for each event that is replayed, and shows it, whatever segments are missing or damaged. A verification
decodes every segment, also those behind the first damage. Up to there the counts that it shows are those of the
lines, and it succeeds exactly if the listing does.
-/

namespace Chronicle

namespace JsonText

section Lines

/-- A text without an end of line in it. -/
def OneLine (text : String) : Prop := '\n' ∉ text.toList

variable {s t : String}

/-- A line and another, one behind the other. -/
theorem OneLine.append (hs : OneLine s) (ht : OneLine t) : OneLine (s ++ t) := by
  unfold OneLine
  rw [String.toList_append, List.mem_append, not_or]
  exact ⟨hs, ht⟩

/-- Lines with a line between any two of them. -/
theorem OneLine.intercalate (hs : OneLine s) {texts : List String} (h : ∀ text ∈ texts, OneLine text) :
    OneLine (s.intercalate texts) := by
  induction texts with
  | nil => exact List.not_mem_nil
  | cons first rest ih =>
    obtain ⟨hfirst, hrest⟩ := List.forall_mem_cons.1 h
    cases rest with
    | nil =>
      rw [String.intercalate_singleton]
      exact hfirst
    | cons second rest =>
      rw [String.intercalate_cons_cons]
      exact (hfirst.append hs).append (ih hrest)

/-- Whatever character is encoded, no end of line comes of it. -/
theorem newline_not_mem_encodeChar (c : Char) : '\n' ∉ encodeChar c := by
  have hdigits : ∀ n < 32, '\n' ∉ Nat.toDigits 16 n := by decide
  unfold encodeChar
  split
  case h_8 hnewline _ _ _ _ =>
    split
    · rename_i hcontrol
      simp only [List.mem_append, List.mem_replicate, not_or]
      exact ⟨⟨by decide, fun hzero => nomatch hzero.2⟩, hdigits c.toNat hcontrol⟩
    · rw [List.mem_singleton]
      exact fun heq => hnewline heq.symm
  all_goals decide

/-- A string is encoded on one line. -/
theorem oneLine_string (text : String) : OneLine (string text) := by
  unfold OneLine string
  rw [String.toList_ofList]
  simp only [List.mem_cons, List.mem_append, List.mem_flatMap, List.not_mem_nil, or_false, not_or, not_exists,
    not_and]
  exact ⟨⟨by decide, fun c _ => newline_not_mem_encodeChar c⟩, by decide⟩

/-- A numeral stands on one line. -/
theorem oneLine_repr (n : Nat) : OneLine n.repr := by
  unfold OneLine
  rw [Nat.toList_repr]
  intro hm
  exact absurd (Nat.isDigit_of_mem_toDigits (by decide) (by decide) hm) (by decide)

/-- So does an integer. -/
theorem oneLine_toString (n : Int) : OneLine (toString n) := by
  rw [Int.toString_eq_repr, Int.repr_eq_if]
  split
  · exact oneLine_repr _
  · exact OneLine.append (by unfold OneLine; decide) (oneLine_repr _)

/-- An object stands on one line if its members do. -/
theorem oneLine_object {members : List (String × String)} (h : ∀ member ∈ members, OneLine member.2) :
    OneLine (object members) := by
  have hmembers : ∀ text ∈ members.map fun member => string member.1 ++ ":" ++ member.2, OneLine text := by
    intro text ht
    obtain ⟨member, hm, rfl⟩ := List.mem_map.1 ht
    exact ((oneLine_string member.1).append (by unfold OneLine; decide)).append (h member hm)
  unfold object
  exact (OneLine.append (by unfold OneLine; decide)
    (OneLine.intercalate (by unfold OneLine; decide) hmembers)).append (by unfold OneLine; decide)

end Lines

end JsonText

namespace Maintenance

open Cache JsonText

/-- A row is printed on one line. -/
theorem oneLine_jsonRow (cached : CachedRecord) : OneLine (jsonRow cached) := by
  unfold jsonRow
  refine oneLine_object ?_
  simp only [List.forall_mem_cons, oneLine_string, oneLine_toString, List.not_mem_nil, false_implies, implies_true,
    and_self]

/-- The output has as many ends of line as lines were printed. -/
theorem count_linesText {lines : List String} (h : ∀ line ∈ lines, OneLine line) :
    (linesText lines).toList.count '\n' = lines.length := by
  unfold linesText
  rw [String.toList_join]
  induction lines with
  | nil => rfl
  | cons line rest ih =>
    obtain ⟨hline, hrest⟩ := List.forall_mem_cons.1 h
    rw [List.map_cons, List.flatMap_cons, List.count_append, ih hrest, String.toList_append, List.count_append,
      List.count_eq_zero.2 hline, List.length_cons]
    change 0 + 1 + rest.length = rest.length + 1
    omega

section Replayed

variable {P : Type} (codec : PositionCodec P)

/-- A record is that of an event, at a position that denotes the event's. -/
def IsOf (cached : CachedRecord) (event : Placed P) : Prop :=
  codec.deserialize cached.position = .ok event.position ∧ cached.record = event.record

variable {codec}

/-- Records whose positions are read are replayed one by one. -/
theorem replayOf_of_positions {records : List CachedRecord} (failure : Option CacheError)
    (h : ∀ cached ∈ records, ∃ position, codec.deserialize cached.position = .ok position) :
    List.Forall₂ (IsOf codec) records (replayOf codec (records, failure)).1 ∧
      (replayOf codec (records, failure)).2 = failure.isNone := by
  induction records with
  | nil => exact ⟨.nil, Bool.true_and _⟩
  | cons cached rest ih =>
    obtain ⟨⟨position, hposition⟩, hrest⟩ := List.forall_mem_cons.1 h
    obtain ⟨hevents, hwhole⟩ := ih hrest
    have hcons := replayOf_cons codec cached (rest, failure)
    rw [hposition] at hcons
    rw [hcons]
    exact ⟨.cons ⟨hposition, rfl⟩ hevents, hwhole⟩

/-- The line of an event's record shows the event. -/
theorem IsOf.showsEvent {cached : CachedRecord} {event : Placed P} (h : IsOf codec cached event) :
    ShowsEvent codec (jsonRow cached) event := by
  obtain ⟨hposition, hrecord⟩ := h
  exact ⟨cached.position, hposition, hrecord ▸ tokens?_jsonRow cached⟩

/-- If all positions are read, what is replayed are the events of the records up to the first damage. -/
theorem replaySegments_of_positions {fs : FileSystem} {paths : List String}
    (h : ∀ path ∈ paths, ∀ cached ∈ (readFile fs path).1,
      ∃ position, codec.deserialize cached.position = .ok position) :
    List.Forall₂ (IsOf codec) (recordsUpToDamage fs paths) (replaySegments codec fs paths) := by
  induction paths with
  | nil => exact .nil
  | cons path rest ih =>
    obtain ⟨hpath, hrest⟩ := List.forall_mem_cons.1 h
    obtain ⟨hevents, hwhole⟩ := replayOf_of_positions (readFile fs path).2 hpath
    rw [recordsUpToDamage, replaySegments]
    dsimp only
    rw [hwhole]
    unfold decodes
    split
    · exact List.rel_append hevents (ih hrest)
    · rw [List.append_nil]
      exact hevents

end Replayed

section Verified

variable {fs : FileSystem} {directory stem : String} {scan : SegmentScan}

/-- Segments up to and including the first that does not decode. -/
def upToFirstFailing : List SegmentReport → List SegmentReport
  | [] => []
  | report :: rest => report :: if report.ok then upToFirstFailing rest else []

/-- Up to there, the records that are counted are those up to the first damage. -/
theorem sum_upToFirstFailing (fs : FileSystem) (directory stem : String) (indices : List Nat) :
    ((upToFirstFailing (indices.map (checkSegment fs directory stem))).map (·.records)).sum =
      (recordsUpToDamage fs (indices.map (segmentPath directory stem))).length := by
  induction indices with
  | nil => rfl
  | cons index rest ih =>
    have hok : (checkSegment fs directory stem index).ok = decodes fs (segmentPath directory stem index) := rfl
    have hrecords : (checkSegment fs directory stem index).records =
        (readFile fs (segmentPath directory stem index)).1.length := rfl
    rw [List.map_cons, List.map_cons, upToFirstFailing, recordsUpToDamage, List.map_cons, List.sum_cons, hok,
      hrecords, List.length_append]
    split
    · rw [ih]
    · rfl

/-- In a directory, a verification finds a state of the cache and prints it. It tells whether all segments that
a scan tells to be replayable decode. -/
theorem verify_eq (h : fs.isDirectory directory = true) (hscan : scanSegments fs directory stem = .ok scan) :
    ∃ v, inspect fs directory stem = .ok v ∧
      v.segments = scan.replayable.map (checkSegment fs directory stem) ∧ v.stranded = scan.stranded.length ∧
      ∀ strict json, (verify fs directory stem strict json).output = linesText (if json then v.json else v.table) ∧
        ((verify fs directory stem strict json).code = 0 ↔
          (strict = true → ∀ path ∈ scan.replayablePaths directory stem, decodes fs path = true)) := by
  obtain ⟨names, hnames, -⟩ := scanSegments_of_isDirectory h stem
  obtain ⟨v, hinspect, hsegments, hstranded⟩ : ∃ v, inspect fs directory stem = .ok v ∧
      v.segments = scan.replayable.map (checkSegment fs directory stem) ∧
      v.stranded = scan.stranded.length := by
    unfold inspect listInProgress
    rw [hscan, hnames]
    exact ⟨_, rfl, rfl, rfl⟩
  have hok : v.ok = true ↔ ∀ path ∈ scan.replayablePaths directory stem, decodes fs path = true := by
    unfold Verification.ok SegmentScan.replayablePaths
    rw [hsegments, List.all_map, List.all_eq_true, List.forall_mem_map]
    rfl
  refine ⟨v, hinspect, hsegments, hstranded, fun strict json => ?_⟩
  have hverify : verify fs directory stem strict json =
      { output := linesText (if json then v.json else v.table), code := if strict && !v.ok then 1 else 0 } := by
    unfold verify
    rw [h, hinspect]
    rfl
  rw [hverify, ← hok]
  refine ⟨rfl, ?_⟩
  change (if strict && !v.ok then 1 else 0) = 0 ↔ _
  cases strict <;> cases v.ok <;> decide

end Verified

section Agreement

/-- The positions of the records that can be replayed are those of a log. -/
def Positioned (fs : FileSystem) (directory stem : String) : Prop :=
  ∀ scan, scanSegments fs directory stem = .ok scan → ∀ path ∈ scan.replayablePaths directory stem,
    ∀ cached ∈ (readFile fs path).1, ∃ position, PositionCodec.log.deserialize cached.position = .ok position

/-- What a listing, a verification and a caching reader of a store without events make of the same files. -/
structure Agreement (fs : FileSystem) (directory stem : String) (scan : SegmentScan) (rows : List CachedRecord)
    (events : List (Placed Nat)) (v : Verification) : Prop where
  /-- A listing prints a line for each event, which shows it and has no other end of line than its own. -/
  printed : ∃ lines, (list fs directory stem true none).output = String.join (lines.map (· ++ "\n")) ∧
    (∀ line ∈ lines, '\n' ∉ line.toList) ∧ List.Forall₂ (ShowsEvent PositionCodec.log) lines events
  /-- There are as many lines as rows. -/
  lines : (list fs directory stem true none).output.toList.count '\n' = rows.length
  /-- A caching reader replays the events. -/
  replayed : ∀ options clock limit, options.directory = directory → options.stem = stem →
    readFresh options clock fs limit = .ok ((results events).take limit)
  /-- The rows are those of the events, in order. -/
  same : List.Forall₂ (IsOf PositionCodec.log) rows events
  /-- The segments that can be replayed are known. -/
  scanned : scanSegments fs directory stem = .ok scan
  /-- The listing succeeds exactly if they all decode. -/
  listed : (list fs directory stem true none).code = 0 ↔
    ∀ path ∈ scan.replayablePaths directory stem, decodes fs path = true
  /-- A strict verification succeeds exactly if the listing does. -/
  strict : ∀ json, (verify fs directory stem true json).code = 0 ↔ (list fs directory stem true none).code = 0
  /-- A verification finds a state of the cache. -/
  inspected : inspect fs directory stem = .ok v
  /-- For each segment that can be replayed it has the name, how many records are read, and what ends the reading
  if it is not the end of the file. -/
  segments : v.segments = scan.replayable.map fun index =>
    ⟨segmentName stem index, (readFile fs (segmentPath directory stem index)).1.length,
      (readFile fs (segmentPath directory stem index)).2⟩
  /-- The wording of a success is kept for the segments that decode. -/
  worded : ∀ report ∈ v.segments, outcome report.failure = "ok" ↔ report.ok = true
  /-- It knows how many others there are. -/
  stranded : v.stranded = scan.stranded.length
  /-- A verification prints a table that has a row for each of the segments and shows all this in it. -/
  tabled : ∀ strict, ∃ rows notes, (verify fs directory stem strict false).output =
      String.join ((tableHeading :: String.ofList (List.replicate 70 '-') :: rows ++ notes).map (· ++ "\n")) ∧
    List.Forall₂ ShowsSegment rows v.segments
  /-- Or it prints a JSON object that shows the same. -/
  serialized : ∀ strict, tokens? (verify fs directory stem strict true).output = some (verificationTokens v)
  /-- Up to the first segment that does not decode, the records in it are as many as the lines of the listing. -/
  counted : ((upToFirstFailing v.segments).map (·.records)).sum =
    (list fs directory stem true none).output.toList.count '\n'

variable {fs : FileSystem} {directory stem : String}

/-- In a directory in which the positions of records are those of a log, a listing prints a line for each event
that a caching reader of a store without events replays, and the line shows the event. It succeeds exactly if all
segments that can be replayed decode, as a strict verification does. A verification shows of each segment how many
records are in it, and up to the first that does not decode these are as many as there are lines. -/
theorem listing_agrees (hdirectory : fs.isDirectory directory = true) (hpositions : Positioned fs directory stem) :
    ∃ scan events v, Agreement fs directory stem scan
      (recordsUpToDamage fs (scan.replayablePaths directory stem)) events v := by
  obtain ⟨names, -, hscan⟩ := scanSegments_of_isDirectory hdirectory stem
  generalize scanNames stem names = scan at hscan
  obtain ⟨v, hinspect, hsegments, hstranded, hverify⟩ := verify_eq hdirectory hscan
  have hprinted := output_list_none hdirectory hscan true
  have hsingle : ∀ line ∈ (recordsUpToDamage fs (scan.replayablePaths directory stem)).map jsonRow,
      OneLine line := List.forall_mem_map.2 fun row _ => oneLine_jsonRow row
  have hlines : (list fs directory stem true none).output.toList.count '\n' =
      (recordsUpToDamage fs (scan.replayablePaths directory stem)).length := by
    rw [hprinted]
    exact (count_linesText hsingle).trans (List.length_map _)
  have hsame : List.Forall₂ (IsOf PositionCodec.log) (recordsUpToDamage fs (scan.replayablePaths directory stem))
      (replayable Site.source.codec fs directory stem) := by
    unfold replayable
    rw [hscan]
    exact replaySegments_of_positions (hpositions scan hscan)
  refine ⟨scan, replayable Site.source.codec fs directory stem, v, ⟨_, hprinted, hsingle, ?_⟩, hlines, ?_, hsame,
    hscan, code_list_none hdirectory hscan true, fun json => ?_, hinspect, hsegments, fun report _ => ?_,
    hstranded, fun strict => ?_, fun strict => ?_, ?_⟩
  · exact List.forall₂_map_left_iff.2 (hsame.imp fun _ _ h => h.showsEvent)
  · rintro options clock limit rfl rfl
    exact readFresh_eq options clock fs limit
  · rw [(hverify true json).2, code_list_none hdirectory hscan]
    exact ⟨fun hall => hall rfl, fun hall _ => hall⟩
  · exact (outcome_eq_ok_iff report.failure).trans Option.isNone_iff_eq_none.symm
  · obtain ⟨rows, notes, htable, hrows⟩ := table_eq v
    refine ⟨rows, notes, (hverify strict false).1.trans ?_, hrows⟩
    exact congrArg linesText htable
  · exact (congrArg tokens? (hverify strict true).1).trans (tokens?_json v)
  · rw [hlines, hsegments]
    exact sum_upToFirstFailing fs directory stem scan.replayable

/-- Of an event, a segment behind it that is cut short and one after a gap, all of them make one event. -/
theorem listing_agrees_before_damage : (mixedFilesUpTo 4).isDirectory "cache" = true ∧
    Positioned (mixedFilesUpTo 4) "cache" "events" ∧
    ∃ events v, Agreement (mixedFilesUpTo 4) "cache" "events" ⟨[0, 1], [3]⟩ [(cachedOf firstPlaced).floored]
      events v := by
  have hdirectory : (mixedFilesUpTo 4).isDirectory "cache" = true := rfl
  have hpositions : Positioned (mixedFilesUpTo 4) "cache" "events" := by
    intro scan hscan path hp cached hc
    rw [scanSegments_mixedFiles] at hscan
    cases hscan
    simp only [SegmentScan.replayablePaths, List.map_cons, List.map_nil, List.mem_cons, List.not_mem_nil,
      or_false] at hp
    rcases hp with rfl | rfl
    · rw [readFile_mixedFiles rfl] at hc
      rw [List.mem_singleton.1 hc]
      exact ⟨1, rfl⟩
    · rw [readFile_mixedFiles_one] at hc
      nomatch hc
  obtain ⟨scan, events, v, hagree⟩ := listing_agrees hdirectory hpositions
  have hscan := hagree.scanned
  rw [scanSegments_mixedFiles] at hscan
  cases hscan
  rw [recordsUpToDamage_mixedFiles] at hagree
  exact ⟨hdirectory, hpositions, events, v, hagree⟩

end Agreement

end Maintenance

end Chronicle
