-- SUMMARY: A sink that writes trials to a directory, with an index of them.
import FormatFuzz.Fuzz.Sink
import FormatFuzz.Json

/-!
# Directory sink

Every trial becomes a file named by its number, and when the run is over, `index.json` lists all
of them. The directory is a value of its own here: what is written where, and which writes fail.
-/

namespace FormatFuzz

-- ---------------------------------------------------------------------------
-- Directories
-- ---------------------------------------------------------------------------

inductive Entry where
  | file (content : Bytes)
  | directory
  deriving DecidableEq, Repr

/-- The entries of a directory by name, each name once. -/
abbrev Directory := List (String × Entry)

namespace Directory

/-- The longest name, in bytes. -/
def maxNameLength : Nat := 255

/-- The longest path, in bytes: what a system's limit of 4095 leaves beside the path of the
directory itself. -/
def maxPathLength : Nat := 4064

def put (name : String) (content : Bytes) : Directory → Directory
  | [] => [(name, .file content)]
  | (other, entry) :: rest =>
    if other = name then (name, .file content) :: rest else (other, entry) :: put name content rest

def canBeName (name : String) : Bool :=
  name ≠ "" && name ≠ "." && name ≠ ".." && (Bytes.ofString name).length ≤ maxNameLength

/-- Can there be a file at the path? It may not begin at the root of all directories. -/
def canBePath (path : String) : Bool :=
  !path.toList.contains '\x00' && path.toList.head? ≠ some '/' &&
    (Bytes.ofString path).length ≤ maxPathLength

/-- Where a path has led, seen from a directory. -/
inductive Location where
  | above
  | here
  /-- In a directory within this one, which holds no directories itself. -/
  | within
  deriving DecidableEq, Repr

/-- One step of a path. A directory has to be there to go into it, and above this one none is
known by its name. -/
def step (d : Directory) (l : Location) (name : String) : Option Location :=
  if name = "" || name = "." then some l
  else if name = ".." then some (if l = .within then .here else .above)
  else if l = .here && d.lookup name = some .directory then some .within
  else none

/-- Writes a file at a path. A file outside of the directory or in a directory within does not
show among the entries. -/
def write (d : Directory) (path : String) (content : Bytes) : Option Directory := do
  let parts := (path.toList.splitOn '/').map String.ofList
  let file := parts.getLast?.getD ""
  if !canBePath path || !canBeName file then
    failure
  match ← parts.dropLast.foldlM d.step .here with
  | .above | .within => return d
  | .here => if d.lookup file = some .directory then failure else return d.put file content

end Directory

/-- What is found at the place where a directory is wanted. -/
inductive Place where
  | vacant
  | directory (d : Directory)
  | file
  /-- Something above the place is a file. -/
  | belowFile
  deriving Repr

/-- The directory at a place, created if the place is vacant. -/
def Place.open? : Place → Option Directory
  | .vacant => some []
  | .directory d => some d
  | .file | .belowFile => none

-- ---------------------------------------------------------------------------
-- The sink
-- ---------------------------------------------------------------------------

/-- An entry of the index. -/
structure IndexEntry where
  file : String
  number : UInt64
  fields : List String
  length : Nat
  md5 : String
  deriving DecidableEq, Repr

def IndexEntry.toJson (r : IndexEntry) : Json :=
  .obj [("file", .str r.file), ("number", .num r.number.toNat),
    ("fields", .arr (r.fields.map .str)), ("len", .num r.length), ("md5", .str r.md5)]

/-- How the files of trials are named. -/
structure FileNames where
  stem : String := "case_"
  extension : String := "bin"
  deriving DecidableEq, Repr

namespace FileNames

/-- The number of digits that numbers are filled up to. -/
def digits : Nat := 8

/-- The name of a trial's file: an empty extension goes without its dot. -/
def ofTrial (names : FileNames) (number : UInt64) : String :=
  let padded := String.ofList ((toString number.toNat).toList.leftpad digits '0')
  let name := names.stem ++ padded
  if names.extension.isEmpty then name else name ++ "." ++ names.extension

end FileNames

structure DirectoryState where
  directory : Directory
  /-- What has been written, in order. -/
  records : List IndexEntry := []

namespace DirectoryState

def indexName : String := "index.json"

/-- The text of the index. -/
def index (s : DirectoryState) : String := (Json.arr (s.records.map IndexEntry.toJson)).pretty

end DirectoryState

/-- Writes the bytes of every trial to a file, and the index in the end. -/
def directorySink (names : FileNames) : Sink DirectoryState where
  accept trial s t :=
    match trial.bytes t with
    | (.error e, t) => (.error e, s, t)
    | (.ok b, t) =>
      let file := names.ofTrial trial.number
      match s.directory.write file b with
      | none => (.error .disk, s, t)
      | some directory =>
        let entry : IndexEntry := {
          file, number := trial.number, fields := trial.fields
          length := b.length, md5 := Md5.hexDigest b }
        (.ok (), { directory, records := s.records ++ [entry] }, t)
  finish s :=
    match s.directory.write DirectoryState.indexName (Bytes.ofString s.index) with
    | some directory => (.ok (), { s with directory })
    | none => (.error .disk, s)

end FormatFuzz
