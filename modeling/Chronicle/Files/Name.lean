import Chronicle.Files.Path
import Chronicle.Text.Numeral

/-!
# Names of files

A name is either given by whoever uses the file, or drawn for a temporary file. No drawn name is ever
given and none is drawn twice, whatever their texts look like: a path leads along given names alone, so
a temporary file is found only in the list of its directory and by who created it.
-/

namespace Chronicle

/-- A name in a directory. -/
inductive Name where
  /-- A name that is spelled out in a path. -/
  | given (text : String)
  /-- A name of a temporary file: a tag that stands for its serial number, between a start and an
  ending. -/
  | drawn (start ending : String) (serial : Nat)
  deriving DecidableEq, Repr

namespace Name

/-- The length of a tag. -/
def tagLength : Nat := 6

/-- Six or more digits that differ for different numbers. -/
def tag (serial : Nat) : String := String.ofList (Numeral.zeroPadded tagLength serial)

/-- The text of a name. -/
def text : Name → String
  | given text => text
  | drawn start ending serial => start ++ tag serial ++ ending

end Name

/-- A place in the tree: the names that lead to it from the root. -/
abbrev Location : Type := List Name

/-- What a directory lists: a name, and the path that its text makes with that of the directory. -/
structure Entry where
  /-- The path of the entry, for its wording and for the way to its directory. -/
  path : String
  /-- The name that the entry has there. -/
  name : Name
  deriving DecidableEq, Repr

/-- The entry of a name in a directory. -/
def Entry.within (directory : String) (name : Name) : Entry := ⟨Path.join directory name.text, name⟩

end Chronicle
