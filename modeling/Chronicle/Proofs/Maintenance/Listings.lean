import Chronicle.Maintenance.Listing
import Chronicle.Proofs.Maintenance.Repairing

/-!
# What a listing prints

A listing goes through the segments that can be replayed and prints a row for every record, up to the first
damage. A limit stops it behind as many rows, but it is noticed only at the record after them. So a limited
listing prints the first rows of the unlimited one, and if there is another record it ends well, whatever follows
that; otherwise it ends as the unlimited one does, with the damage that comes instead of another record.
-/

namespace Chronicle.Maintenance

open Cache

section Rows

variable {fs : FileSystem} {records : List CachedRecord} {failure : Option CacheError}
  {others : Option Nat → Listing}

/-- The records of segments in order, up to the first damage. -/
def recordsUpToDamage (fs : FileSystem) : List String → List CachedRecord
  | [] => []
  | path :: rest => (readFile fs path).1 ++ if decodes fs path then recordsUpToDamage fs rest else []

/-- Without a limit, a record is listed before the others of its segment. -/
theorem listRecords_cons (record : CachedRecord) (rest : List CachedRecord) :
    listRecords none (record :: rest) failure others =
      ⟨record :: (listRecords none rest failure others).rows, (listRecords none rest failure others).ending⟩ := rfl

/-- Without a limit, all records of a segment are listed, and then those of the others unless it is damaged. -/
theorem listRecords_none : listRecords none records failure others =
    match failure with
    | some e => ⟨records, .failed e.message⟩
    | none => ⟨records ++ (others none).rows, (others none).ending⟩ := by
  induction records with
  | nil => cases failure <;> rfl
  | cons record rest ih =>
    rw [listRecords_cons, ih]
    cases failure <;> rfl

/-- A segment is listed by what is read from it, whether or not it can be opened. -/
theorem listSegments_cons (path : String) (rest : List String) :
    (listSegments fs (path :: rest) none).rows =
        (readFile fs path).1 ++ (if decodes fs path then (listSegments fs rest none).rows else []) ∧
      ((listSegments fs (path :: rest) none).ending = .exhausted ↔
        decodes fs path = true ∧ (listSegments fs rest none).ending = .exhausted) ∧
      ((listSegments fs (path :: rest) none).ending = .limited →
        (listSegments fs rest none).ending = .limited) := by
  unfold decodes readFile
  rw [listSegments]
  cases FileReader.open fs path with
  | error e => exact ⟨rfl, ⟨nofun, nofun⟩, nofun⟩
  | ok reader =>
    dsimp only
    rw [listRecords_none]
    cases hfailure : (readAll reader.source).2 with
    | some e => simp only [Option.isNone_some, Bool.false_eq_true, if_false, List.append_nil,
        reduceCtorEq, false_and, false_implies, and_self]
    | none => simp only [Option.isNone_none, if_true, true_and, imp_self, and_self]

/-- The rows of an unlimited listing are the records up to the first damage. -/
theorem rows_listSegments (fs : FileSystem) (paths : List String) :
    (listSegments fs paths none).rows = recordsUpToDamage fs paths := by
  induction paths with
  | nil => rfl
  | cons path rest ih =>
    rw [(listSegments_cons path rest).1, ih]
    rfl

/-- It comes to its end exactly if nothing is damaged. -/
theorem exhausted_listSegments (fs : FileSystem) (paths : List String) :
    (listSegments fs paths none).ending = .exhausted ↔ ∀ path ∈ paths, decodes fs path = true := by
  induction paths with
  | nil => exact ⟨fun _ => List.forall_mem_nil _, fun _ => rfl⟩
  | cons path rest ih => rw [(listSegments_cons path rest).2.1, ih, List.forall_mem_cons]

/-- No limit ends it. -/
theorem unlimited_listSegments (fs : FileSystem) (paths : List String) :
    (listSegments fs paths none).ending ≠ .limited := by
  induction paths with
  | nil => exact nofun
  | cons path rest ih => exact fun h => ih ((listSegments_cons path rest).2.2 h)

end Rows

section Limits

variable {others : Option Nat → Listing}

/-- A listing that stops where there is a row beyond a limit. -/
def Listing.within (listing : Listing) (limit : Nat) : Listing :=
  if limit < listing.rows.length then ⟨listing.rows.take limit, .limited⟩ else listing

/-- A listing with one more row, within one more. -/
theorem Listing.within_cons (listing : Listing) (record : CachedRecord) (limit : Nat) :
    Listing.within ⟨record :: listing.rows, listing.ending⟩ (limit + 1) =
      ⟨record :: (listing.within limit).rows, (listing.within limit).ending⟩ := by
  simp only [within, List.length_cons, Nat.add_lt_add_iff_right, List.take_succ_cons]
  split <;> rfl

/-- The records of a segment are listed within a limit as they are without one, if the others are. -/
theorem listRecords_some (hothers : ∀ limit, others (some limit) = (others none).within limit)
    (records : List CachedRecord) (failure : Option CacheError) (limit : Nat) :
    listRecords (some limit) records failure others =
      (listRecords none records failure others).within limit := by
  induction records generalizing limit with
  | nil =>
    cases failure with
    | some e => rfl
    | none => exact hothers limit
  | cons record rest ih =>
    cases limit with
    | zero => rfl
    | succ limit =>
      rw [listRecords_cons, Listing.within_cons, ← ih limit]
      rfl

/-- A limited listing is the unlimited one within the limit. -/
theorem listSegments_some (fs : FileSystem) (paths : List String) (limit : Nat) :
    listSegments fs paths (some limit) = (listSegments fs paths none).within limit := by
  induction paths generalizing limit with
  | nil => rfl
  | cons path rest ih =>
    rw [listSegments, listSegments]
    cases FileReader.open fs path with
    | error e => rfl
    | ok reader => exact listRecords_some ih _ _ limit

end Limits

section Reports

variable {fs : FileSystem} {directory : String}

/-- The lines of a listing with these rows. -/
def rowLines (json : Bool) (rows : List CachedRecord) : List String :=
  if json then rows.map jsonRow else tableHeader ++ rows.map tableRow

/-- What a command reports that prints a listing. -/
def Listing.report (json : Bool) (listing : Listing) : Report :=
  match listing.ending with
  | .failed reason => .failure (rowLines json listing.rows) reason
  | _ => .success (rowLines json listing.rows)

/-- It prints the rows in any case. -/
theorem Listing.output_report (json : Bool) (listing : Listing) :
    (listing.report json).output = linesText (rowLines json listing.rows) := by
  unfold report
  split <;> rfl

/-- Its exit code tells whether the listing came to its end or to its limit. -/
theorem Listing.code_report (json : Bool) (listing : Listing) :
    (listing.report json).code = 0 ↔ listing.ending = .exhausted ∨ listing.ending = .limited := by
  unfold report
  cases listing.ending with
  | exhausted => exact ⟨fun _ => .inl rfl, fun _ => rfl⟩
  | limited => exact ⟨fun _ => .inr rfl, fun _ => rfl⟩
  | failed reason => exact ⟨nofun, nofun⟩

/-- A directory can be scanned. -/
theorem scanSegments_of_isDirectory (h : fs.isDirectory directory = true) (stem : String) :
    ∃ names, fs.list directory = .ok names ∧ scanSegments fs directory stem = .ok (scanNames stem names) := by
  obtain ⟨place, hfind⟩ : ∃ place, fs.find directory = .ok (place, .directory) := by
    unfold FileSystem.isDirectory at h
    split at h
    · exact ⟨_, ‹_›⟩
    · nomatch h
  obtain ⟨names, hnames, -, -⟩ := FileSystem.list_of_find hfind
  exact ⟨names, hnames, scanSegments_of_list hnames stem⟩

section Listed

variable {stem : String} {scan : SegmentScan} (h : fs.isDirectory directory = true)
  (hscan : scanSegments fs directory stem = .ok scan)

include h hscan

/-- In a directory, the segments that a scan tells to be replayable are listed. -/
theorem list_eq (json : Bool) (limit : Option Nat) : list fs directory stem json limit =
    (listSegments fs (scan.replayablePaths directory stem) limit).report json := by
  unfold list
  rw [h, hscan]
  rfl

/-- A listing prints their records up to the first damage. -/
theorem output_list_none (json : Bool) : (list fs directory stem json none).output =
    linesText (rowLines json (recordsUpToDamage fs (scan.replayablePaths directory stem))) := by
  rw [list_eq h hscan, Listing.output_report, rows_listSegments]

/-- It ends well exactly if all of them decode. -/
theorem code_list_none (json : Bool) : (list fs directory stem json none).code = 0 ↔
    ∀ path ∈ scan.replayablePaths directory stem, decodes fs path = true := by
  rw [list_eq h hscan, Listing.code_report, exhausted_listSegments]
  exact or_iff_left (unlimited_listSegments fs _)

variable {limit : Nat}

/-- If there is a row beyond a limit, a listing within it ends well. -/
theorem list_some_of_lt (json : Bool)
    (hlt : limit < (recordsUpToDamage fs (scan.replayablePaths directory stem)).length) :
    list fs directory stem json (some limit) =
      .success (rowLines json ((recordsUpToDamage fs (scan.replayablePaths directory stem)).take limit)) := by
  rw [← rows_listSegments] at hlt ⊢
  rw [list_eq h hscan, listSegments_some, Listing.within, if_pos hlt]
  rfl

/-- If there is none, the limit makes no difference. -/
theorem list_some_of_le (json : Bool)
    (hle : (recordsUpToDamage fs (scan.replayablePaths directory stem)).length ≤ limit) :
    list fs directory stem json (some limit) = list fs directory stem json none := by
  rw [← rows_listSegments] at hle
  rw [list_eq h hscan, list_eq h hscan, listSegments_some, Listing.within, if_neg (Nat.not_lt_of_le hle)]

end Listed

/-- A listing prints the records of the segments that can be replayed, up to the first damage. Within a limit
it prints the first of these rows. If there is a row beyond them, it ends well, whatever comes after that.
Otherwise the limit makes no difference: it ends well exactly if all those segments decode. -/
theorem list_within_limit (stem : String) (h : fs.isDirectory directory = true) :
    ∃ scan, scanSegments fs directory stem = .ok scan ∧
      let paths := scan.replayablePaths directory stem
      let rows := recordsUpToDamage fs paths
      ∀ json, (list fs directory stem json none).output = linesText (rowLines json rows) ∧
        ((list fs directory stem json none).code = 0 ↔ ∀ path ∈ paths, decodes fs path = true) ∧
        ∀ limit,
          (list fs directory stem json (some limit)).output = linesText (rowLines json (rows.take limit)) ∧
          (limit < rows.length →
            list fs directory stem json (some limit) = .success (rowLines json (rows.take limit))) ∧
          (rows.length ≤ limit → list fs directory stem json (some limit) = list fs directory stem json none) := by
  obtain ⟨names, -, hscan⟩ := scanSegments_of_isDirectory h stem
  refine ⟨_, hscan, ?_⟩
  intro paths rows json
  have houtput : (list fs directory stem json none).output = linesText (rowLines json rows) :=
    output_list_none h hscan json
  refine ⟨houtput, code_list_none h hscan json, fun limit => ⟨?_, list_some_of_lt h hscan json,
    list_some_of_le h hscan json⟩⟩
  rcases Nat.lt_or_ge limit rows.length with hlt | hle
  · rw [list_some_of_lt h hscan json hlt]
    rfl
  · rw [list_some_of_le h hscan json hle, houtput, List.take_of_length_le hle]

/-- Before the segment that is cut short there is one event. -/
theorem recordsUpToDamage_mixedFiles : recordsUpToDamage (mixedFilesUpTo 4)
    ((⟨[0, 1], [3]⟩ : SegmentScan).replayablePaths "cache" "events") = [(cachedOf firstPlaced).floored] := by
  change recordsUpToDamage (mixedFilesUpTo 4)
    [segmentPath "cache" "events" 0, segmentPath "cache" "events" 1] = _
  rw [recordsUpToDamage, recordsUpToDamage, readFile_mixedFiles rfl, readFile_mixedFiles_one,
    decodes_mixedFiles_zero, decodes_mixedFiles_one]
  rfl

/-- Of an event and a segment behind it that is cut short, a listing of no events ends well, and for a listing
of one event the limit makes no difference. -/
theorem list_within_limit_before_damage : (mixedFilesUpTo 4).isDirectory "cache" = true ∧
    ∀ json, list (mixedFilesUpTo 4) "cache" "events" json (some 0) = .success (rowLines json []) ∧
      list (mixedFilesUpTo 4) "cache" "events" json (some 1) =
        list (mixedFilesUpTo 4) "cache" "events" json none := by
  have hdirectory : (mixedFilesUpTo 4).isDirectory "cache" = true := rfl
  obtain ⟨scan, hscan, hlist⟩ := list_within_limit "events" hdirectory
  rw [scanSegments_mixedFiles] at hscan
  cases hscan
  dsimp only at hlist
  rw [recordsUpToDamage_mixedFiles] at hlist
  exact ⟨hdirectory, fun json =>
    ⟨((hlist json).2.2 0).2.1 Nat.one_pos, ((hlist json).2.2 1).2.2 (Nat.le_refl 1)⟩⟩

/-- A listing of one event prints it and still fails, if the segment behind it is cut short. -/
theorem list_fails_behind_limit : (mixedFilesUpTo 4).isDirectory "cache" = true ∧
    scanSegments (mixedFilesUpTo 4) "cache" "events" = .ok ⟨[0, 1], [3]⟩ ∧
    recordsUpToDamage (mixedFilesUpTo 4) ((⟨[0, 1], [3]⟩ : SegmentScan).replayablePaths "cache" "events") =
      [(cachedOf firstPlaced).floored] ∧
    ∀ json, (list (mixedFilesUpTo 4) "cache" "events" json (some 1)).output =
        linesText (rowLines json [(cachedOf firstPlaced).floored]) ∧
      (list (mixedFilesUpTo 4) "cache" "events" json (some 1)).code ≠ 0 := by
  have hdirectory : (mixedFilesUpTo 4).isDirectory "cache" = true := rfl
  have hrows := recordsUpToDamage_mixedFiles
  have hle : (recordsUpToDamage (mixedFilesUpTo 4)
      ((⟨[0, 1], [3]⟩ : SegmentScan).replayablePaths "cache" "events")).length ≤ 1 :=
    Nat.le_of_eq (congrArg List.length hrows)
  refine ⟨hdirectory, scanSegments_mixedFiles, hrows, fun json => ?_⟩
  rw [list_some_of_le hdirectory scanSegments_mixedFiles json hle]
  refine ⟨?_, fun hcode => ?_⟩
  · rw [output_list_none hdirectory scanSegments_mixedFiles, hrows]
  · have hdecodes := (code_list_none hdirectory scanSegments_mixedFiles json).1 hcode
      (segmentPath "cache" "events" 1) (List.mem_cons_of_mem _ List.mem_cons_self)
    rw [decodes_mixedFiles_one] at hdecodes
    nomatch hdecodes

end Reports

end Chronicle.Maintenance
