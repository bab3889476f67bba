import Chronicle.CommandLine

/-!
# The program

The outermost layer: it reads the directory that a command names, lets the library carry out the command
on what was read, removes the files that the library removed, and prints the report.
-/

namespace Chronicle.Program

/-- The directory that a command works on. -/
def directoryOf : Command → String
  | .list directory .. => directory
  | .verify directory .. => directory
  | .clean directory .. => directory

/-- What stands at a path in a directory. -/
def readNode (directory name : String) : IO Node := do
  let path := System.mkFilePath [directory, name]
  if ← path.isDir then return .directory
  return .file (← IO.FS.readBinFile path).data.toList

/-- The part of the file system that a command works on. A path that leads to no directory gives an
empty file system. -/
def readFiles (directory : String) : IO FileSystem := do
  let path := System.mkFilePath [directory]
  if directory.isEmpty || !(← path.isDir) then return {}
  let (made, _) := FileSystem.createDirectories {} directory
  match made.resolve directory with
  | .error _ => return {}
  | .ok place =>
    let mut fs := made
    for entry in ← path.readDir do
      fs := fs.put (place ++ [.given entry.fileName]) (← readNode directory entry.fileName)
    return fs

/-- Removes the files that are gone from a directory. -/
def removeMissing (directory : String) (before after : FileSystem) : IO Unit := do
  for (place, _) in before.nodes do
    if (after.node? place).isNone then
      match place.getLast? with
      | some name => IO.FS.removeFile (System.mkFilePath [directory, name.text])
      | none => pure ()

/-- Prints a report. -/
def printReport (report : Maintenance.Report) : IO UInt32 := do
  IO.print report.output
  IO.eprint report.errors
  return UInt32.ofNat report.code

end Chronicle.Program

open Chronicle in
/-- Carries out the command that the arguments ask for. -/
def main (arguments : List String) : IO UInt32 := do
  match CommandLine.parse arguments with
  | none => Program.printReport (CommandLine.run {} arguments).2
  | some command =>
    let directory := Program.directoryOf command
    let before ← Program.readFiles directory
    let (after, report) := CommandLine.execute before command
    Program.removeMissing directory before after
    Program.printReport report
