/-!
# Directories of text files

The program works in a directory. What it sees is a finite map from places to directories and text files.
A place is a list of names, and the working directory is the empty list. The places above it begin with
double dots, and those that are named from the top with a slash. Every operation names its file by a
written path and fails the way a file system does.

## Main definitions

* `Path`: written paths, their components and how they are joined
* `Place`: where a path leads, and what lies below a place
* `Disk`, `Entry`: what is at the places
* `OsError`: why an operation failed
* `Disk.readText`, `Disk.writeText`, `Disk.createAll`, `Disk.list`, `Disk.removeFile`: the operations
-/

namespace Barrage

namespace Path

/-- Components of a written path. Empty ones do not count, and neither does a dot except in front. -/
def components (path : String) : List String :=
  let parts := (path.splitOn "/").filter (· != "")
  let root := if path.startsWith "/" then ["/"] else []
  match parts with
  | "." :: rest => root ++ (if root.isEmpty then ["."] else []) ++ rest.filter (· != ".")
  | parts => root ++ parts.filter (· != ".")

/-- A path below another. An absolute path stands for itself. -/
def join (base name : String) : String :=
  if name.startsWith "/" || base.isEmpty then name
  else if base.endsWith "/" then base ++ name
  else base ++ "/" ++ name

/-- The names that are followed one after another from where a written path starts. A slash at the end asks
for a directory, as a dot after it would. -/
def steps (path : String) : List String :=
  let names := (path.splitOn "/").filter (· != "")
  if path.endsWith "/" then names ++ ["."] else names

/-- A path without the slashes at its end, unless it has nothing else. -/
def withoutSlashes (path : String) : String :=
  let kept := (path.toList.reverse.dropWhile (· = '/')).reverse
  if kept.isEmpty then path else String.ofList kept

/-- The paths above a path, the nearest first. -/
def above (path : String) : List String :=
  let rec go : List String → List String
    | [] => []
    | _ :: rest => if rest.isEmpty then [] else written rest.reverse :: go rest
  go (components path).reverse
where
  /-- The path with some components. -/
  written : List String → String
    | "/" :: parts => "/" ++ "/".intercalate parts
    | parts => "/".intercalate parts

/-- The last component, if it is a name. -/
def fileName? (path : String) : Option String :=
  match (components path).getLast? with
  | some name => if name = "." || name = ".." || name = "/" then none else some name
  | none => none

/-- The part of a path that follows a given front, if it has that front. -/
def relativeTo? (front path : String) : Option String :=
  let rec go : List String → List String → Option (List String)
    | [], rest => some rest
    | _ :: _, [] => none
    | a :: as, b :: bs => if a = b then go as bs else none
  (go (components front) (components path)).map ("/".intercalate ·)

/-- Whether a list of components comes before another: component by component, a front first. -/
def before : List String → List String → Bool
  | _, [] => false
  | [], _ :: _ => true
  | a :: as, b :: bs => if a = b then before as bs else a < b

/-- Whether a path is not after another in the order of their components. -/
def notAfter (a b : String) : Bool := !before (components b) (components a)

end Path

namespace Place

/-- Whether a place is always a directory: the working directory, one above it, or the top. -/
def isAnchor (place : List String) : Bool := place = ["/"] || place.all (· = "..")

/-- The place above another. The top is above itself. -/
def up (place : List String) : List String :=
  if place = ["/"] then place
  else if isAnchor place then place ++ [".."]
  else place.dropLast

/-- The names that lead down from a place to one at it or below it. -/
def below? (here place : List String) : Option (List String) :=
  if here.isPrefixOf place then
    let names := place.drop here.length
    if names.head? = some ".." || names.head? = some "/" then none else some names
  else none

end Place

/-- Why a file operation failed. -/
inductive OsError where
  | notFound | alreadyExists | notDirectory | isDirectory | nameTooLong
  /-- The path has a NUL character, which no system takes. -/
  | nulInName
deriving DecidableEq, Repr

/-- The text of a system error. -/
def OsError.message : OsError → String
  | notFound => "No such file or directory (os error 2)"
  | alreadyExists => "File exists (os error 17)"
  | notDirectory => "Not a directory (os error 20)"
  | isDirectory => "Is a directory (os error 21)"
  | nameTooLong => "File name too long (os error 36)"
  | nulInName => "file name contained an unexpected NUL byte"

/-- What a path leads to. -/
inductive Entry where
  | directory
  | file (text : String)
deriving DecidableEq, Repr

/-- What lies in the working directory and around it. -/
structure Disk where
  entries : List (List String × Entry) := []

namespace Disk

/-- Empty directories. -/
def empty : Disk := {}

/-- The entry at a place. -/
def entry? (disk : Disk) (place : List String) : Option Entry :=
  if Place.isAnchor place then some .directory else disk.entries.lookup place

/-- Puts an entry at a place. -/
def put (disk : Disk) (place : List String) (entry : Entry) : Disk :=
  { disk with entries := (place, entry) :: disk.entries.filter (·.1 != place) }

/-- Removes the entry at a place and everything below it. -/
def remove (disk : Disk) (place : List String) : Disk :=
  { disk with entries := disk.entries.filter fun e => (Place.below? place e.1).isNone }

/-- The most bytes that a name can have. -/
def maxName : Nat := 255

/-- The most bytes that a written path can have. -/
def maxPath : Nat := 4095

/-- Follows names from a directory. Every one but the last has to lead to a directory. -/
def follow (disk : Disk) (here : List String) : List String → Except OsError (List String)
  | [] => .ok here
  | "." :: rest => follow disk here rest
  | ".." :: rest => follow disk (Place.up here) rest
  | name :: rest =>
    let next := here ++ [name]
    if maxName < name.utf8ByteSize then .error .nameTooLong
    else if rest.isEmpty then .ok next
    else
      match disk.entry? next with
      | none => .error .notFound
      | some (.file _) => .error .notDirectory
      | some .directory => follow disk next rest

/-- The place a written path leads to. The empty path leads nowhere. -/
def resolve (disk : Disk) (path : String) : Except OsError (List String) :=
  if path.contains '\x00' then .error .nulInName
  else if path.isEmpty then .error .notFound
  else if maxPath < path.utf8ByteSize then .error .nameTooLong
  else disk.follow (if path.startsWith "/" then ["/"] else []) (Path.steps path)

/-- The entry a written path leads to. -/
def find (disk : Disk) (path : String) : Except OsError Entry := do
  match disk.entry? (← disk.resolve path) with
  | some entry => .ok entry
  | none => .error .notFound

/-- Whether a path leads to a file. -/
def isFile (disk : Disk) (path : String) : Bool :=
  match disk.find path with
  | .ok (.file _) => true
  | _ => false

/-- Whether a path leads to a directory. -/
def isDirectory (disk : Disk) (path : String) : Bool :=
  match disk.find path with
  | .ok .directory => true
  | _ => false

/-- The text of a file. -/
def readText (disk : Disk) (path : String) : Except OsError String := do
  match ← disk.find path with
  | .file text => .ok text
  | .directory => .error .isDirectory

/-- Writes a file, in place of one that is already there. -/
def writeText (disk : Disk) (path text : String) : Except OsError Disk := do
  let place ← disk.resolve path
  match disk.entry? place with
  | some .directory => .error .isDirectory
  | _ => .ok (disk.put place (.file text))

/-- Creates one directory, whose name slashes may follow. -/
def create (disk : Disk) (path : String) : Except OsError Disk := do
  let place ← disk.resolve (Path.withoutSlashes path)
  match disk.entry? place with
  | some _ => .error .alreadyExists
  | none => .ok (disk.put place .directory)

/-- Creates directories given by their paths, each above the one before it, up to the first that exists or
can be created. A directory that exists already is left as it is. What was created before an error stays. -/
def createUpward (disk : Disk) : List String → Option OsError × Disk
  | [] => (none, disk)
  | path :: above =>
    let orPresent (disk : Disk) (e : OsError) : Option OsError × Disk :=
      (if disk.isDirectory path then none else some e, disk)
    match disk.create path with
    | .ok disk => (none, disk)
    | .error .notFound =>
      match createUpward disk above with
      | (some e, disk) => (some e, disk)
      | (none, disk) =>
        match disk.create path with
        | .ok disk => (none, disk)
        | .error e => orPresent disk e
    | .error e => orPresent disk e

/-- Creates a directory with those above it. -/
def createAll (disk : Disk) (path : String) : Option OsError × Disk :=
  if path.isEmpty then (none, disk) else disk.createUpward (path :: Path.above path)

/-- Sorts names, which are distinct. -/
def sortNames (names : List String) : List String := names.mergeSort fun a b => !(b < a)

/-- The names in a directory, sorted. -/
def list (disk : Disk) (path : String) : Except OsError (List String) := do
  let place ← disk.resolve path
  match disk.entry? place with
  | none => .error .notFound
  | some (.file _) => .error .notDirectory
  | some .directory =>
    .ok (sortNames (disk.entries.filterMap fun (p, _) =>
      match Place.below? place p with
      | some [name] => some name
      | _ => none))

/-- Removes a file. -/
def removeFile (disk : Disk) (path : String) : Except OsError Disk := do
  let place ← disk.resolve path
  match disk.entry? place with
  | none => .error .notFound
  | some .directory => .error .isDirectory
  | some (.file _) => .ok (disk.remove place)

/-- Removes a file, or a directory with all that is in it. -/
def removeAll (disk : Disk) (path : String) : Except OsError Disk := do
  let place ← disk.resolve path
  match disk.entry? place with
  | none => .error .notFound
  | some _ => .ok (disk.remove place)

/-- Writes a file, and creates the directories above it, which stay if the file cannot be written. -/
def writeTextBelow (disk : Disk) (path text : String) : Option OsError × Disk :=
  match disk.createUpward (Path.above path) with
  | (some e, disk) => (some e, disk)
  | (none, disk) =>
    match disk.writeText path text with
    | .ok disk => (none, disk)
    | .error e => (some e, disk)

end Disk

end Barrage
