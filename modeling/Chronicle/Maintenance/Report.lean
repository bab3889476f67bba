import Chronicle.Text.Column
import Chronicle.Text.JsonText
import Chronicle.Cache.File

/-!
# What a maintenance command reports

A command prints lines, may print an error, and ends with an exit code. An error is printed after what
was printed before it, and ends the command with code 1.
-/

namespace Chronicle.Maintenance

/-- What a command leaves for its caller. -/
structure Report where
  /-- What it printed. -/
  output : String
  /-- What it printed as an error. -/
  errors : String := ""
  /-- Its exit code. -/
  code : Nat := 0
  deriving DecidableEq, Repr

/-- Lines of output. -/
def linesText (lines : List String) : String :=
  String.join (lines.map (· ++ "\n"))

/-- The report of a command that ended well after printing some lines. -/
def Report.success (lines : List String) : Report := { output := linesText lines }

/-- The report of a command that failed after printing some lines. -/
def Report.failure (lines : List String) (reason : String) : Report :=
  { output := linesText lines, errors := "Error: " ++ reason ++ "\n", code := 1 }

/-- The refusal of a path that leads to no directory. -/
def notACache (directory : String) : String := "Not a cache directory: " ++ directory

end Chronicle.Maintenance
