import Chronicle.Maintenance.Report

/-!
# Verifying a cache

Every segment that can be replayed is decoded to its end, and the report says how many records it
yielded and what stopped it, if something did. Stranded segments and files being written are counted.
A strict verification fails if a segment does.
-/

namespace Chronicle.Maintenance

open Cache

/-- How one segment decodes. -/
structure SegmentReport where
  /-- The name of the segment. -/
  name : String
  /-- How many records it yielded. -/
  records : Nat
  /-- What stopped the decoding before a clean end. -/
  failure : Option CacheError
  deriving DecidableEq, Repr

/-- Whether a segment decodes to its end. -/
def SegmentReport.ok (report : SegmentReport) : Bool := report.failure.isNone

/-- The wording of a segment's state. -/
def SegmentReport.status (report : SegmentReport) : String :=
  match report.failure with
  | none => "ok"
  | some e => e.message

/-- Decodes one segment. -/
def checkSegment (fs : FileSystem) (directory stem : String) (index : Nat) : SegmentReport :=
  let (records, failure) := readFile fs (segmentPath directory stem index)
  ⟨segmentName stem index, records.length, failure⟩

/-- The state of a cache. -/
structure Verification where
  /-- The segments that can be replayed. -/
  segments : List SegmentReport
  /-- How many segments come after a gap. -/
  stranded : Nat
  /-- How many files are being written. -/
  inProgress : Nat
  deriving DecidableEq, Repr

/-- Whether every segment that can be replayed decodes to its end. -/
def Verification.ok (v : Verification) : Bool := v.segments.all (·.ok)

/-- Looks at the state of a cache. -/
def inspect (fs : FileSystem) (directory stem : String) : Except CacheError Verification := do
  let scan ← scanSegments fs directory stem
  let inProgress ← listInProgress fs directory stem
  return ⟨scan.replayable.map (checkSegment fs directory stem), scan.stranded.length,
    inProgress.length⟩

/-- The lines of a verification as a table. -/
def Verification.table (v : Verification) : List String :=
  [" ".intercalate [Column.left 30 "SEGMENT", Column.right 10 "RECORDS", "STATUS"], Column.rule 70] ++
    (v.segments.map fun report =>
      " ".intercalate [Column.left 30 (Column.cut 30 report.name),
        Column.right 10 (toString report.records), report.status]) ++
    (if v.stranded = 0 then [] else
      [toString v.stranded ++ " segment(s) after a gap are never replayed; " ++
        "run `eventlog clean --corrupt` to remove them"]) ++
    (if v.inProgress = 0 then [] else
      [toString v.inProgress ++ " in-progress file(s); run `eventlog clean` to remove them"])

/-- The lines of one segment in a JSON report, without what follows them. -/
def SegmentReport.jsonLines (report : SegmentReport) : List String :=
  ["    \x7b",
    "      \"records\": " ++ toString report.records ++ ",",
    "      \"segment\": " ++ JsonText.string report.name ++ ",",
    "      \"status\": " ++ JsonText.string report.status,
    "    \x7d"]

/-- The lines of segments in a JSON report, with a comma after each but the last. -/
def jsonSegmentLines : List SegmentReport → List String
  | [] => []
  | [report] => report.jsonLines
  | report :: rest => report.jsonLines.dropLast ++ ["    \x7d,"] ++ jsonSegmentLines rest

/-- The lines of a verification as a JSON object, members in alphabetical order. -/
def Verification.json (v : Verification) : List String :=
  ["\x7b",
    "  \"in_progress\": " ++ toString v.inProgress ++ ",",
    "  \"ok\": " ++ JsonText.bool v.ok ++ ","] ++
    (if v.segments.isEmpty then ["  \"segments\": [],"]
      else ["  \"segments\": ["] ++ jsonSegmentLines v.segments ++ ["  ],"]) ++
    ["  \"stranded\": " ++ toString v.stranded, "\x7d"]

/-- Verifies a cache. -/
def verify (fs : FileSystem) (directory stem : String) (strict json : Bool) : Report :=
  if !fs.isDirectory directory then .failure [] (notACache directory)
  else
    match inspect fs directory stem with
    | .error e => .failure [] e.message
    | .ok v =>
      { output := linesText (if json then v.json else v.table)
        code := if strict && !v.ok then 1 else 0 }

end Chronicle.Maintenance
