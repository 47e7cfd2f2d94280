import Barrage.Disk
import Barrage.Failure

/-!
# Scripts of a project

Pattern files lie in a directory and in those below it. They are visited in the order of their paths,
component by component, so that every pass visits them alike.
-/

namespace Barrage

namespace Disk

/-- Paths of the files below a directory, from that directory on. -/
def filesBelow (disk : Disk) (path : String) : Except OsError (List String) := do
  let place ← disk.resolve path
  match disk.entry? place with
  | none => .error .notFound
  | some (.file _) => .error .notDirectory
  | some .directory =>
    .ok (disk.entries.filterMap fun (p, entry) =>
      match entry with
      | .file _ => (Place.below? place p).map ("/".intercalate ·)
      | .directory => none)

end Disk

namespace Project

/-- What names of pattern files end in. -/
def patternExtension : String := "pattern.json"

/-- Whether a path is that of a pattern file. -/
def isPattern (path : String) : Bool :=
  match Path.fileName? path with
  | some name => name.endsWith patternExtension
  | none => false

/-- The pattern files of a directory in their order; a file stands for itself. -/
def scripts (root : String) (disk : Disk) : Except Failure (List String) :=
  if disk.isFile root then .ok ([root].filter isPattern)
  else
    match disk.filesBelow root with
    | .error e => .error ((Failure.ofOs e).within ("Reading '" ++ root ++ "'"))
    | .ok names => .ok (((names.map (Path.join root)).filter isPattern).mergeSort Path.notAfter)

end Project

end Barrage
