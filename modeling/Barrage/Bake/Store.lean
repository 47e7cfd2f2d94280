import Barrage.Bake.Artifacts
import Barrage.Bake.Callable
import Barrage.Bake.Error
import Barrage.Document.Decode

/-!
# Artifacts on disk and in memory

Artifacts are written into a directory as one file for each chunk and one for the registry. Chunks that
an earlier, larger session left there are removed first; other files are left alone. Opening a directory
reads the registry and the chunks that it mentions, and reads every chunk as functions.

## Main definitions

* `Artifacts.write`: writes artifacts into a directory
* `Registry.ofJson`: reads a registry
* `Store`: loaded artifacts
* `Store.open`, `Store.ofArtifacts`: loads artifacts from a directory, and straight from a session
* `Store.unitsFor`: the units of a source
-/

namespace Barrage

/-- A computation on the working directory that may fail; what it did before failing stays done. -/
abbrev DiskM (ε : Type) := ExceptT ε (StateM Disk)

namespace DiskM

/-- An operation that changes the directory. -/
def update {ε : Type} (path : String) (error : String → OsError → ε) (op : Disk → Except OsError Disk) :
    DiskM ε Unit := do
  match op (← get) with
  | .ok disk => set disk
  | .error e => throw (error path e)

/-- Creates a directory with those above it. -/
def createAll {ε : Type} (path : String) (error : String → OsError → ε) : DiskM ε Unit := do
  let (fault?, disk) := (← get).createAll path
  set disk
  match fault? with
  | none => return
  | some e => throw (error path e)

/-- An operation that reads from the directory. -/
def query {ε α : Type} (path : String) (error : String → OsError → ε) (op : Disk → Except OsError α) :
    DiskM ε α := do
  match op (← get) with
  | .ok a => return a
  | .error e => throw (error path e)

end DiskM

namespace Artifacts

/-- Whether a file is a chunk by its name. -/
def isChunkFile (name : String) : Bool :=
  name.startsWith chunkStem && name.endsWith ("." ++ chunkExtension)

/-- Writes the chunks with their places, from the given one on. -/
def writeChunks (dir : String) (index : Nat) : List String → DiskM BakeError Unit
  | [] => return
  | text :: rest => do
    let path := Path.join dir (chunkFile index)
    DiskM.update path .io fun disk => disk.writeText path text
    writeChunks dir (index + 1) rest

/-- Removes the chunks among the files of a directory. -/
def removeChunks (dir : String) : List String → DiskM BakeError Unit
  | [] => return
  | name :: rest => do
    if isChunkFile name then
      let path := Path.join dir name
      DiskM.update path .io fun disk => disk.removeFile path
    removeChunks dir rest

/-- Writes artifacts into a directory, which is created if need be. -/
def write (artifacts : Artifacts) (dir : String) : DiskM BakeError Unit := do
  DiskM.createAll dir .io
  let names ← DiskM.query dir .io fun disk => disk.list dir
  removeChunks dir names
  writeChunks dir 0 artifacts.chunks
  let path := Path.join dir registryFile
  DiskM.update path .io fun disk => disk.writeText path (artifacts.registry.toJson.pretty 0)

end Artifacts

namespace Signature

/-- Reads a signature. -/
def ofJson : Json.Reader Signature := fun depth json => do
  match ← Json.record? ["params", "returns"] depth json with
  | (depth, [params, returns]) =>
    let type := Json.readName ValueType.ofKey?
    let params ← Json.required (Json.readList type) depth params
    let returns ← Json.required type depth returns
    some ⟨params, returns⟩
  | _ => none

end Signature

/-- Reads a reference to a unit. -/
def UnitRef.ofJson : Json.Reader UnitRef := fun depth json => do
  match ← Json.record? ["name", "chunk", "signature"] depth json with
  | (depth, [name, chunk, signature]) =>
    let name ← Json.required Json.readText depth name
    let chunk ← Json.required Json.readText depth chunk
    let signature ← Json.required Signature.ofJson depth signature
    some ⟨name, chunk, signature⟩
  | _ => none

namespace Registry

/-- Reads the entries of the sources; of equal ids the last counts. -/
def readFiles : Json.Reader (List (FileId × List UnitRef))
  | depth, .object fields => do
    let depth ← Json.enter? depth
    fields.foldlM (fun files (key, value) => do
      let file : FileId := ⟨← key⟩
      let refs ← Json.readList UnitRef.ofJson depth value
      some (alter file (fun _ => refs) files)) []
  | _, _ => none

/-- Reads a registry. -/
def ofJson : Json.Reader Registry := fun depth json => do
  match ← Json.record? ["version", "files"] depth json with
  | (depth, [version, files]) =>
    let version ← Json.field (Json.readNat (Nat.pow 2 32)) currentVersion depth version
    let files ← Json.field readFiles [] depth files
    some ⟨version, files⟩
  | _ => none

/-- The chunks that a registry mentions, each once, in the order of first mention. -/
def chunkNames (r : Registry) : List String :=
  (r.files.flatMap fun (_, refs) => refs.map (·.chunk)).foldl
    (fun names name => if names.contains name then names else names ++ [name]) []

end Registry

/-- Loaded artifacts: the registry, and the functions of its chunks. -/
structure Store where
  registry : Registry := {}
  chunks : List (String × Chunk) := []

namespace Store

/-- No artifacts. -/
def empty : Store := {}

/-- Chunk texts in the order of the names of their files. -/
def sortSources (sources : List (String × String)) : List (String × String) :=
  sources.mergeSort fun a b => !(b.1 < a.1)

/-- Reads chunk texts; the first that is no chunk is the error. -/
def readChunks (sources : List (String × String)) : Except BakeError (List (String × Chunk)) :=
  (sortSources sources).mapM fun (name, text) =>
    match Chunk.load? text with
    | some chunk => .ok (name, chunk)
    | none => .error (.chunk name)

/-- Loads artifacts straight from a recording session. -/
def ofArtifacts (artifacts : Artifacts) : Except BakeError Store := do
  let sources := artifacts.chunks.mapIdx fun index text => (Artifacts.chunkFile index, text)
  .ok ⟨artifacts.registry, ← readChunks sources⟩

/-- Loads the artifacts of a directory. -/
def «open» (dir : String) (disk : Disk) : Except BakeError Store := do
  let read (path : String) : Except BakeError String := (disk.readText path).mapError (.io path)
  let path := Path.join dir Artifacts.registryFile
  match Json.readDocument? Registry.ofJson (← read path) with
  | none => .error (.registry path)
  | some registry =>
    let sources ← registry.chunkNames.mapM fun name => do
      .ok (name, ← read (Path.join dir name))
    .ok ⟨registry, ← readChunks sources⟩

/-- The unit that a reference leads to. -/
def unitAt (store : Store) (file : FileId) (ref : UnitRef) : Except BakeError BakedUnit :=
  match store.chunks.lookup ref.chunk with
  | some chunk =>
    if chunk.defines ref.name then .ok ⟨ref.name, ref.signature, chunk⟩
    else .error (.missingUnit file ref.name ref.chunk)
  | none => .error (.missingUnit file ref.name ref.chunk)

/-- The units of a source in the order of recording; a source that was not recorded has none. -/
def unitsFor (store : Store) (file : FileId) : Except BakeError (List BakedUnit) :=
  match store.registry.units? file with
  | none => .ok []
  | some refs => refs.mapM (store.unitAt file)

end Store

end Barrage
