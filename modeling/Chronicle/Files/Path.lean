/-!
# Paths

Paths are texts whose names are separated by slashes. A dot stands for the directory that was reached
and two dots for the one above it. Refusals are told apart as the system tells them apart.
-/

namespace Chronicle

/-- Why an operation on files is refused. -/
inductive FileError where
  /-- Nothing is there. -/
  | notFound
  /-- Something is there already. -/
  | alreadyExists
  /-- A file stands where a directory is needed. -/
  | notADirectory
  /-- A directory stands where a file is needed. -/
  | isADirectory
  /-- A file cannot be moved to what is no name. -/
  | invalidArgument
  /-- A name or the whole path has too many bytes. -/
  | nameTooLong
  /-- A path holds a zero, which no name has. -/
  | zeroInPath
  deriving DecidableEq, Repr

/-- The wording of a refusal. -/
def FileError.message : FileError → String
  | .notFound => "No such file or directory (os error 2)"
  | .alreadyExists => "File exists (os error 17)"
  | .notADirectory => "Not a directory (os error 20)"
  | .isADirectory => "Is a directory (os error 21)"
  | .invalidArgument => "Invalid argument (os error 22)"
  | .nameTooLong => "File name too long (os error 36)"
  | .zeroInPath => "file name contained an unexpected NUL byte"

namespace Path

/-- The greatest number of bytes in a name. -/
def maxName : Nat := 255

/-- The greatest number of bytes in a path. -/
def maxPath : Nat := 4095

/-- The texts around the slashes of a path. -/
def split : List Char → List (List Char)
  | [] => [[]]
  | '/' :: rest => [] :: split rest
  | c :: rest =>
    match split rest with
    | [] => [[c]]
    | part :: more => (c :: part) :: more

/-- The parts of a path, with an empty one for every superfluous slash. -/
def parts (path : String) : List String := (split path.toList).map String.ofList

/-- Whether a path ends in a slash, so that it can only lead to a directory. -/
def endsInSlash (path : String) : Bool := path.toList.getLast? == some '/'

/-- The names that a path leads along. A slash at the end leads to the directory itself. -/
def names (path : String) : List String :=
  (parts path).filter (· ≠ "") ++ if endsInSlash path then ["."] else []

/-- The names that lead to the directory of what a path names, and the name it has there. -/
def entry (path : String) : List String × String :=
  match ((parts path).filter (· ≠ "")).reverse with
  | [] => ([], ".")
  | name :: above => (above.reverse, name)

/-- Whether a name stands for a directory that is there anyway. -/
def isRelative (name : String) : Bool := name == "." || name == ".."

/-- Whether the last of some parts, given in reverse, counts. Dots count only at the beginning of a
path. -/
def isSignificant : List String → Bool
  | [] => false
  | part :: above => part != "" && (part != "." || above.isEmpty)

/-- The lists that remain as elements are taken from the front, the whole list first. -/
def tails : List String → List (List String)
  | [] => []
  | part :: rest => (part :: rest) :: tails rest

/-- The paths of the directories above a path, innermost first, without the working directory. -/
def above (path : String) : List String :=
  (((tails (parts path).reverse).filter isSignificant).drop 1).map fun reversed =>
    "/".intercalate reversed.reverse

/-- The path of the directory that holds what a path leads to, a dot if the path has no other. -/
def parent (path : String) : String := (above path).headD "."

/-- The path of a name in a directory. -/
def join (directory name : String) : String :=
  if directory.isEmpty || endsInSlash directory then directory ++ name else directory ++ "/" ++ name

/-- Refuses a path that can lead nowhere. -/
def check (path : String) : Except FileError Unit :=
  if path.toList.contains '\x00' then .error .zeroInPath
  else if path.isEmpty then .error .notFound
  else if maxPath < path.utf8ByteSize then .error .nameTooLong
  else .ok ()

/-- Refuses a name that nothing can have. -/
def checkName (name : String) : Except FileError Unit :=
  if maxName < name.utf8ByteSize then .error .nameTooLong else .ok ()

end Path

end Chronicle
