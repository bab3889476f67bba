import Chronicle.Cache.Failure
import Chronicle.Files.FileSystem

/-!
# Segments of a cache

A cache is a directory of numbered segment files that share a stem. Its name gives a segment eight
digits. The segments that can be replayed are those from number 0 up to the first number that is
missing; those after the gap are stranded. A file that is still being written has a name of its own
kind, which no segment has.
-/

namespace Chronicle.Cache

/-- The stem of a cache that is given none. -/
def defaultStem : String := "cache"

/-- What ends the name of a segment. -/
def segmentEnding : List Char := ['.', 'g', 'z']

/-- The digits in the name of a segment. -/
def segmentDigits : Nat := 8

/-- The name of a segment. -/
def segmentName (stem : String) (index : Nat) : String :=
  stem ++ "-" ++ String.ofList (Numeral.zeroPadded segmentDigits index ++ segmentEnding)

/-- The text after a beginning. -/
def afterStart (start : List Char) (text : List Char) : Option (List Char) :=
  if start.isPrefixOf text then some (text.drop start.length) else none

/-- The value of decimal digits. -/
def digitsValue (digits : List Char) : Nat :=
  digits.foldl (fun n c => n * 10 + (c.toNat - '0'.toNat)) 0

/-- The number of the segment that has a name, if one has. -/
def segmentIndex? (stem name : String) : Option Nat := do
  let rest ← afterStart (stem.toList ++ ['-']) name.toList
  let digits := rest.take segmentDigits
  if rest.drop segmentDigits = segmentEnding ∧ digits.all Char.isDigit then
    return digitsValue digits
  else none

/-- What begins the name of a file that is being written. -/
def inProgressStart (stem : String) : String := "." ++ stem ++ "-"

/-- What ends the name of a file that is being written. -/
def inProgressEnding : String := ".tmp"

/-- Whether a name is that of a file being written. -/
def isInProgress (stem name : String) : Bool :=
  (inProgressStart stem).toList.isPrefixOf name.toList &&
    inProgressEnding.toList.isSuffixOf name.toList

/-- The segments of a cache, by number. -/
structure SegmentScan where
  /-- Those that can be replayed, in order. -/
  replayable : List Nat := []
  /-- Those after a gap, in order. -/
  stranded : List Nat := []
  deriving DecidableEq, Repr

/-- The number that the next segment gets. -/
def SegmentScan.nextIndex (scan : SegmentScan) : Nat := scan.replayable.length

/-- Splits ascending numbers at the first that does not follow on, counted from `expected`. -/
def splitAtGap (expected : Nat) : List Nat → SegmentScan
  | [] => {}
  | index :: rest =>
    if index = expected then
      let scan := splitAtGap (expected + 1) rest
      { scan with replayable := index :: scan.replayable }
    else { stranded := index :: rest }

/-- The segments among the names in a directory. -/
def scanNames (stem : String) (names : List Name) : SegmentScan :=
  splitAtGap 0 ((names.filterMap (segmentIndex? stem ·.text)).mergeSort (· ≤ ·))

/-- A segment in its directory. -/
def segmentEntry (directory stem : String) (index : Nat) : Entry :=
  .within directory (.given (segmentName stem index))

/-- The path of a segment. -/
def segmentPath (directory stem : String) (index : Nat) : String :=
  (segmentEntry directory stem index).path

/-- A refusal of the file system as a failure of the cache. -/
def ofFileError (e : FileError) : CacheError := .io e.message

/-- The segments in a directory. A directory that does not exist has none. -/
def scanSegments (fs : FileSystem) (directory stem : String) : Except CacheError SegmentScan :=
  match fs.list directory with
  | .ok names => .ok (scanNames stem names)
  | .error .notFound => .ok {}
  | .error e => .error (ofFileError e)

/-- The paths of the segments that can be replayed, in order. -/
def SegmentScan.replayablePaths (scan : SegmentScan) (directory stem : String) : List String :=
  scan.replayable.map (segmentPath directory stem)

/-- The paths of the stranded segments, in order. -/
def SegmentScan.strandedPaths (scan : SegmentScan) (directory stem : String) : List String :=
  scan.stranded.map (segmentPath directory stem)

/-- The files being written, in the order of their paths. -/
def listInProgress (fs : FileSystem) (directory stem : String) :
    Except CacheError (List Entry) :=
  match fs.list directory with
  | .ok names =>
    .ok (((names.filter (isInProgress stem ·.text)).map (.within directory)).mergeSort
      (·.path ≤ ·.path))
  | .error e => .error (ofFileError e)

end Chronicle.Cache
