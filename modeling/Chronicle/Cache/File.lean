import Chronicle.Cache.Record
import Chronicle.Cache.Segment
import Chronicle.Gzip.Member

/-!
# Cache files

A cache file holds records, compressed. It is read from front to back. It is written under a temporary
name in the directory of its destination and then moved there, unless something is there already: the
first writer that finishes wins, and the file of another is thrown away. A writer that is given up
takes its temporary file with it.
-/

namespace Chronicle.Cache

/-- A cache file that is being read. -/
structure FileReader where
  /-- Where the file was opened. -/
  path : String
  /-- The records to come. -/
  source : ByteSource
  /-- How many records were read. -/
  recordsRead : Nat := 0

/-- The records that a file or directory yields when it is read. -/
def sourceOf : Node → ByteSource
  | .file bytes => Gzip.unpack bytes
  | .directory => .ofBytes [] (some ⟨FileError.isADirectory.message, false⟩)

/-- Opens a cache file for reading. A directory can be opened, and its reading fails. -/
def FileReader.open (fs : FileSystem) (path : String) : Except CacheError FileReader :=
  match fs.find path with
  | .ok (_, node) => .ok { path := path, source := sourceOf node }
  | .error e => .error (ofFileError e)

/-- Reads the next record, none at a clean end. -/
def FileReader.next (reader : FileReader) : Except CacheError (Option (CachedRecord × FileReader)) :=
  match readRecord reader.source with
  | .error e => .error e
  | .ok none => .ok none
  | .ok (some (record, source)) =>
    .ok (some (record, { reader with source := source, recordsRead := reader.recordsRead + 1 }))

/-- All records of a file and the failure that ends them. A file that cannot be opened has none. -/
def readFile (fs : FileSystem) (path : String) : List CachedRecord × Option CacheError :=
  match FileReader.open fs path with
  | .error e => ([], some e)
  | .ok reader => readAll reader.source

/-- A cache file that is being written. -/
structure FileWriter where
  /-- Where the file will be. -/
  destination : String
  /-- Where it is until then. -/
  temporary : Entry
  /-- What was written, the last piece first. -/
  pieces : List (List UInt8) := []
  /-- How many records were written. -/
  recordsWritten : Nat := 0
  deriving DecidableEq, Repr

/-- The bytes written so far, before compression. -/
def FileWriter.contents (writer : FileWriter) : List UInt8 := writer.pieces.reverse.flatten

/-- Starts a cache file. The directory of its destination is created if it is missing. -/
def FileWriter.create (fs : FileSystem) (destination stem : String) :
    FileSystem × Except CacheError FileWriter :=
  let directory := Path.parent destination
  match fs.createDirectories directory with
  | (fs, .error e) => (fs, .error (ofFileError e))
  | (fs, .ok ()) =>
    match fs.createTemporary directory (inProgressStart stem) inProgressEnding with
    | .error e => (fs, .error (ofFileError e))
    | .ok (temporary, fs) => (fs, .ok { destination := destination, temporary := temporary })

/-- Writes one record. What was written of a record that fails stays in the file. -/
def FileWriter.append (writer : FileWriter) (record : CachedRecord) :
    FileWriter × Option CacheError :=
  let written := record.write none
  let writer := { writer with pieces := written.bytes :: writer.pieces }
  match written.failure with
  | some e => (writer, some e)
  | none => ({ writer with recordsWritten := writer.recordsWritten + 1 }, none)

/-- How a finished file stands. -/
inductive Finished where
  /-- It is at its destination. -/
  | persisted (path : String)
  /-- Something was at its destination before it. -/
  | alreadyPresent (path : String)
  deriving DecidableEq, Repr

/-- Gives up a file that was being written. -/
def FileWriter.discard (fs : FileSystem) (writer : FileWriter) : FileSystem :=
  fs.discardFile writer.temporary

/-- Compresses what was written and moves it to its destination, if that is free. -/
def FileWriter.finish (fs : FileSystem) (writer : FileWriter) :
    FileSystem × Except CacheError Finished :=
  match fs.moveToFree writer.temporary writer.destination (Gzip.pack writer.contents) with
  | .ok fs => (fs, .ok (.persisted writer.destination))
  | .error .alreadyExists => (writer.discard fs, .ok (.alreadyPresent writer.destination))
  | .error e => (writer.discard fs, .error (ofFileError e))

end Chronicle.Cache
