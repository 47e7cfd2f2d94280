import Barrage.Bake.Recording
import Barrage.Document.Json

/-!
# Artifacts

A recording session ends in artifacts: chunks of function texts, at most three hundred functions each, and
a registry that lists the units of every source in the order of recording together with the chunk that
holds each of them. Units fill the chunks in the order of the batches, so a source may span chunks.

## Main definitions

* `UnitRef`, `Registry`, `Artifacts`: where a unit is, the registry, and both parts together
* `Artifacts.ofBatches`: the artifacts of some batches
* `Registry.toJson`: the registry as a document
-/

namespace Barrage

/-- Where a unit is and what it takes and returns. -/
structure UnitRef where
  name : String
  chunk : String
  signature : Signature
deriving DecidableEq, Repr

/-- The units of every source, sorted by the ids of the sources. -/
structure Registry where
  version : Nat := 0
  files : List (FileId × List UnitRef) := []
deriving DecidableEq, Repr

namespace Registry

/-- The version of registries that are written. -/
def currentVersion : Nat := 1

/-- Number of units of all sources. -/
def unitCount (r : Registry) : Nat := r.files.foldl (fun n entry => n + entry.2.length) 0

/-- The units of a source. -/
def units? (r : Registry) (file : FileId) : Option (List UnitRef) := r.files.lookup file

/-- Changes the entry of a source in a sorted list; the entry is empty if there is none. -/
def alter (file : FileId) (f : List UnitRef → List UnitRef) :
    List (FileId × List UnitRef) → List (FileId × List UnitRef)
  | [] => [(file, f [])]
  | (other, refs) :: rest =>
    if file = other then (file, f refs) :: rest
    else if file.text < other.text then (file, f []) :: (other, refs) :: rest
    else (other, refs) :: alter file f rest

end Registry

/-- Chunks in the order of their files, and the registry. -/
structure Artifacts where
  chunks : List String := []
  registry : Registry := {}
deriving DecidableEq, Repr

namespace Artifacts

/-- The most functions of a chunk. -/
def chunkSize : Nat := 300

/-- What names of chunk files begin with. -/
def chunkStem : String := "generated_"

/-- The extension of chunk files. -/
def chunkExtension : String := "rhai"

/-- The name of the registry file. -/
def registryFile : String := "registry.json"

/-- The file of a chunk. -/
def chunkFile (index : Nat) : String := s!"{chunkStem}{index}.{chunkExtension}"

/-- The line every chunk starts with. -/
def chunkHeader : String := "// Generated expression bodies. Regenerate with bake_expressions.\n"

/-- The text of a chunk with the given functions. -/
def chunkText (definitions : List String) : String :=
  chunkHeader ++ String.join (definitions.map fun d => "\n" ++ d ++ "\n")

/-- Cuts a list into pieces of a positive size, the last of which may be shorter. -/
def pieces {α : Type} (size : Nat) (l : List α) : List (List α) :=
  if _h : l.isEmpty ∨ size = 0 then []
  else l.take size :: pieces size (l.drop size)
termination_by l.length
decreasing_by
  have : l ≠ [] := fun h => _h (by simp [h])
  have := List.length_pos_iff.2 this
  simp; omega

/-- The functions of a batch with the references to them, as far as both lists go. -/
def paired (batch : Batch) : List (String × TypedRef) := batch.definitions.zip batch.references

/-- The place of a unit, given how many units stand before it. -/
def placed (index : Nat) (ref : TypedRef) : UnitRef :=
  ⟨ref.name, chunkFile (index / chunkSize), ref.signature⟩

/-- Registers the units of the batches, given how many units have been placed before. Every batch has an
entry, even one without units. -/
def register (written : Nat) : List Batch → List (FileId × List UnitRef) → List (FileId × List UnitRef)
  | [], files => files
  | batch :: rest, files =>
    let refs := (paired batch).mapIdx fun i (_, ref) => placed (written + i) ref
    register (written + refs.length) rest (Registry.alter batch.file (· ++ refs) files)

/-- The artifacts of some batches. -/
def ofBatches (batches : List Batch) : Artifacts where
  chunks := (pieces chunkSize (batches.flatMap fun b => (paired b).map (·.1))).map chunkText
  registry := ⟨Registry.currentVersion, register 0 batches []⟩

end Artifacts

namespace Signature

/-- A signature as a document. -/
def toJson (s : Signature) : Json :=
  .ofFields [("params", .array (s.params.map fun ty => .ofText ty.key)), ("returns", .ofText s.returns.key)]

end Signature

/-- A reference to a unit as a document. -/
def UnitRef.toJson (u : UnitRef) : Json :=
  .ofFields [("name", .ofText u.name), ("chunk", .ofText u.chunk), ("signature", u.signature.toJson)]

/-- A registry as a document. -/
def Registry.toJson (r : Registry) : Json :=
  .ofFields [("version", .ofNat r.version),
    ("files", .ofFields (r.files.map fun (file, refs) => (file.text, .array (refs.map UnitRef.toJson))))]

end Barrage
