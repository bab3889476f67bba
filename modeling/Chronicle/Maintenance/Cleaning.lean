import Chronicle.Maintenance.Report

/-!
# Cleaning a cache

Cleaning removes the files that were being written and, if asked, every segment that is of no use: from
the first one that does not decode to its end, and all stranded ones. What stays can be replayed whole.
Files are removed one after the other. One that is gone already does not count, and any other refusal
ends the cleaning.
-/

namespace Chronicle.Maintenance

open Cache

/-- Whether a segment decodes to its end. -/
def decodes (fs : FileSystem) (path : String) : Bool := (readFile fs path).2.isNone

/-- The segments that are of no use. -/
def unusableSegments (fs : FileSystem) (directory stem : String) : Except CacheError (List Entry) := do
  let scan ← scanSegments fs directory stem
  let unusable := scan.replayable.dropWhile fun index => decodes fs (segmentPath directory stem index)
  return (unusable ++ scan.stranded).map (segmentEntry directory stem)

/-- Removes files in order: what is left, and how many were removed or which refusal stopped it. -/
def removeFiles (fs : FileSystem) (removed : Nat) : List Entry → FileSystem × Except String Nat
  | [] => (fs, .ok removed)
  | entry :: rest =>
    match fs.removeFile entry with
    | .ok fs => removeFiles fs (removed + 1) rest
    | .error .notFound => removeFiles fs removed rest
    | .error e => (fs, .error ("Failed to remove " ++ entry.path ++ ": " ++ e.message))

/-- The line about removed files that were being written. -/
def removedInProgress (n : Nat) : String := "Removed " ++ toString n ++ " in-progress file(s)"

/-- The line about removed segments. -/
def removedSegments (n : Nat) : String := "Removed " ++ toString n ++ " segment(s)"

/-- Removes the segments that are of no use, after some lines were printed. -/
def cleanSegments (fs : FileSystem) (directory stem : String) (lines : List String) :
    FileSystem × Report :=
  match unusableSegments fs directory stem with
  | .error e => (fs, .failure lines e.message)
  | .ok entries =>
    match removeFiles fs 0 entries with
    | (fs, .error reason) => (fs, .failure lines reason)
    | (fs, .ok n) => (fs, .success (lines ++ [removedSegments n]))

/-- Cleans a cache, and removes segments that are of no use if `corrupt` is set. -/
def clean (fs : FileSystem) (directory stem : String) (corrupt : Bool) : FileSystem × Report :=
  if !fs.isDirectory directory then (fs, .failure [] (notACache directory))
  else
    match listInProgress fs directory stem with
    | .error e => (fs, .failure [] e.message)
    | .ok entries =>
      match removeFiles fs 0 entries with
      | (fs, .error reason) => (fs, .failure [] reason)
      | (fs, .ok n) =>
        if corrupt then cleanSegments fs directory stem [removedInProgress n]
        else (fs, .success [removedInProgress n])

end Chronicle.Maintenance
