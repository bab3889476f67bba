import Chronicle.Files.Name

/-!
# Directories and files

A file system maps the places in a tree to files and directories. Paths are followed name by name, so
everything but the last must be a directory. A file is moved only to a free name, and a temporary file
gets a name that no other file has.
-/

namespace Chronicle

/-- What stands at a place. -/
inductive Node where
  /-- A file with its bytes. -/
  | file (bytes : List UInt8)
  /-- A directory. -/
  | directory
  deriving DecidableEq, Repr

/-- A tree of directories and files. The root is always a directory. -/
structure FileSystem where
  /-- Everything but the root. -/
  nodes : List (Location × Node) := []
  /-- How many temporary names were drawn. -/
  temporaries : Nat := 0
  deriving DecidableEq, Repr

namespace FileSystem

/-- What stands at a place. -/
def node? (fs : FileSystem) (place : Location) : Option Node :=
  if place.isEmpty then some .directory else fs.nodes.lookup place

/-- The tree with something at a place. -/
def put (fs : FileSystem) (place : Location) (node : Node) : FileSystem :=
  { fs with nodes := (place, node) :: fs.nodes.filter (·.1 ≠ place) }

/-- The tree with nothing at a place. -/
def erase (fs : FileSystem) (place : Location) : FileSystem :=
  { fs with nodes := fs.nodes.filter (·.1 ≠ place) }

/-- The tree with nothing at a place or below it. -/
def eraseTree (fs : FileSystem) (place : Location) : FileSystem :=
  { fs with nodes := fs.nodes.filter fun entry => !place.isPrefixOf entry.1 }

/-- Refuses a place where no directory stands. -/
def needDirectory (fs : FileSystem) (place : Location) : Except FileError Unit :=
  match fs.node? place with
  | none => .error .notFound
  | some (.file _) => .error .notADirectory
  | some .directory => .ok ()

/-- Follows names from a place; all but the last must be those of directories. -/
def follow (fs : FileSystem) : Location → List String → Except FileError Location
  | place, [] => .ok place
  | place, name :: rest => do
    fs.needDirectory place
    if name = "." then fs.follow place rest
    else if name = ".." then fs.follow place.dropLast rest
    else
      Path.checkName name
      fs.follow (place ++ [.given name]) rest

/-- The place that a path leads to, whether or not something stands there. -/
def resolve (fs : FileSystem) (path : String) : Except FileError Location := do
  Path.check path
  fs.follow [] (Path.names path)

/-- The directory that holds what a path names, and the name. -/
def slot (fs : FileSystem) (path : String) : Except FileError (Location × String) := do
  Path.check path
  let (above, name) := Path.entry path
  let place ← fs.follow [] above
  fs.needDirectory place
  return (place, name)

/-- What a path leads to, with its place. -/
def find (fs : FileSystem) (path : String) : Except FileError (Location × Node) := do
  let place ← fs.resolve path
  match fs.node? place with
  | none => throw .notFound
  | some node => return (place, node)

/-- Whether a path leads to a directory. -/
def isDirectory (fs : FileSystem) (path : String) : Bool :=
  match fs.find path with
  | .ok (_, .directory) => true
  | _ => false

/-- The name of what lies directly in a directory. -/
def nameIn (directory place : Location) : Option Name :=
  match place.getLast? with
  | some name => if place.dropLast = directory then some name else none
  | none => none

/-- The names in a directory, each once and in no particular order. -/
def list (fs : FileSystem) (path : String) : Except FileError (List Name) := do
  match ← fs.find path with
  | (place, .directory) => return (fs.nodes.filterMap fun entry => nameIn place entry.1).eraseDups
  | (_, .file _) => throw .notADirectory

/-- Creates one directory. -/
def createDirectory (fs : FileSystem) (path : String) : Except FileError FileSystem := do
  let (place, name) ← fs.slot path
  if Path.isRelative name then throw .alreadyExists
  Path.checkName name
  if (fs.node? (place ++ [.given name])).isSome then throw .alreadyExists
  return fs.put (place ++ [.given name]) .directory

/-- Creates one directory, unless it is there. -/
def haveDirectory (fs : FileSystem) (path : String) : Except FileError FileSystem :=
  match fs.createDirectory path with
  | .error .alreadyExists => if fs.isDirectory path then .ok fs else .error .alreadyExists
  | result => result

/-- Creates the first of some directories, innermost first, whose own directory is there. What is left
are the directories passed over, outermost first. -/
def haveInnermost (fs : FileSystem) (passed : List String) :
    List String → FileSystem × Except FileError (List String)
  | [] => (fs, .ok passed)
  | path :: rest =>
    match fs.haveDirectory path with
    | .ok fs => (fs, .ok passed)
    | .error .notFound => fs.haveInnermost (path :: passed) rest
    | .error e => (fs, .error e)

/-- Creates directories one after the other, unless they are there, up to the first refusal. -/
def haveEach (fs : FileSystem) : List String → FileSystem × Except FileError Unit
  | [] => (fs, .ok ())
  | path :: rest =>
    match fs.haveDirectory path with
    | .ok fs => fs.haveEach rest
    | .error e => (fs, .error e)

/-- Creates a directory and those above it, as far as they are missing. Those that were created before
a refusal stay. -/
def createDirectories (fs : FileSystem) (path : String) : FileSystem × Except FileError Unit :=
  if path.isEmpty then (fs, .ok ())
  else
    match fs.haveInnermost [] (path :: Path.above path) with
    | (fs, .ok missing) => fs.haveEach missing
    | (fs, .error e) => (fs, .error e)

/-- Writes a whole file. -/
def writeFile (fs : FileSystem) (path : String) (bytes : List UInt8) :
    Except FileError FileSystem := do
  let (place, name) ← fs.slot path
  if Path.isRelative name || Path.endsInSlash path then throw .isADirectory
  Path.checkName name
  match fs.node? (place ++ [.given name]) with
  | some .directory => throw .isADirectory
  | _ => return fs.put (place ++ [.given name]) (.file bytes)

/-- The place of an entry: its path leads to its directory, and its name leads on. -/
def placeOf (fs : FileSystem) (entry : Entry) : Except FileError Location := do
  let (place, _) ← fs.slot entry.path
  return place ++ [entry.name]

/-- Removes a file. -/
def removeFile (fs : FileSystem) (entry : Entry) : Except FileError FileSystem := do
  let place ← fs.placeOf entry
  match fs.node? place with
  | none => throw .notFound
  | some .directory => throw .isADirectory
  | some (.file _) => return fs.erase place

/-- Removes a file if it is there. -/
def discardFile (fs : FileSystem) (entry : Entry) : FileSystem :=
  match fs.removeFile entry with
  | .ok fs => fs
  | .error _ => fs

/-- The entry of a temporary file in a directory, between a start and an ending of its name. Slashes in
the start lead on from the directory. -/
def temporaryEntry (directory start ending : String) (serial : Nat) : Entry where
  path := Path.join directory (start ++ Name.tag serial ++ ending)
  name := .drawn ((Path.parts start).getLast?.getD "") ending serial

/-- Creates a file in a directory under a new name between a start and an ending. -/
def createTemporary (fs : FileSystem) (directory start ending : String) :
    Except FileError (Entry × FileSystem) := do
  let entry := temporaryEntry directory start ending fs.temporaries
  let place ← fs.placeOf entry
  Path.checkName entry.name.text
  return (entry, { fs.put place (.file []) with temporaries := fs.temporaries + 1 })

/-- Moves a file with new content to a free name. -/
def moveToFree (fs : FileSystem) (source : Entry) (destination : String) (bytes : List UInt8) :
    Except FileError FileSystem := do
  if destination.toList.contains '\x00' then throw .invalidArgument
  Path.check destination
  let old ← fs.placeOf source
  let (place, name) ← fs.slot destination
  if Path.isRelative name then throw .alreadyExists
  if (fs.node? old).isNone then throw .notFound
  Path.checkName name
  if (fs.node? (place ++ [.given name])).isSome then throw .alreadyExists
  if Path.endsInSlash destination then throw .notADirectory
  return (fs.erase old).put (place ++ [.given name]) (.file bytes)

end FileSystem

end Chronicle
