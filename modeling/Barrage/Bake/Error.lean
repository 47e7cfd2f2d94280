import Barrage.Bake.Identity
import Barrage.Disk

/-!
# Errors of baking

Why artifacts cannot be opened, written or served. Three of the errors mean that the artifacts no longer
fit the scripts they were made from; a run stops at those instead of skipping a script.
-/

namespace Barrage

/-- Kinds of contexts. -/
inductive ContextKind where
  | recording | serving
deriving DecidableEq, Repr

/-- Name of a kind of context in messages. -/
def ContextKind.name : ContextKind → String
  | recording => "recording"
  | serving => "serving"

/-- Why artifacts cannot be opened, written or served. -/
inductive BakeError where
  | noBakedUnits (file : FileId)
  | notEnoughBakedUnits (file : FileId) (position available : Nat)
  | typeMismatch (file : FileId) (position total : Nat) (expected actual : String)
  | wrongContextKind (expected actual : ContextKind)
  | mismatchedClose (closing top : String)
  | noActiveContext (kind : ContextKind)
  | contextsStillOpen (count : Nat)
  | io (path : String) (cause : OsError)
  | registry (path : String)
  | chunk (name : String)
  | missingUnit (file : FileId) (name chunk : String)
deriving DecidableEq, Repr

namespace BakeError

/-- The text of an error. -/
def message : BakeError → String
  | noBakedUnits file => s!"file {file.text} has no baked units, but one was requested"
  | notEnoughBakedUnits file position available =>
    s!"not enough baked units for file {file.text}: requested #{position}, {available} recorded"
  | typeMismatch file position total expected actual =>
    s!"type mismatch at position {position}/{total} for file {file.text}: baked {actual}, " ++
      s!"requested {expected}"
  | wrongContextKind expected actual =>
    s!"active context is a {actual.name} context, requested {expected.name}"
  | mismatchedClose closing top =>
    s!"closing context for {closing} but {top} is on top of the stack"
  | noActiveContext kind => s!"no active {kind.name} context"
  | contextsStillOpen count => s!"{count} contexts still open at export"
  | io path cause => s!"artifact io failed for {path}: {cause.message}"
  | registry path => s!"artifact registry {path} is invalid"
  | chunk name => s!"failed to compile artifact chunk {name}"
  | missingUnit file name source =>
    s!"registry entry {name} for file {file.text} is missing from chunk {source}"

/-- Whether the artifacts no longer fit the scripts. -/
def isDesync : BakeError → Bool
  | noBakedUnits _ | notEnoughBakedUnits .. | typeMismatch .. => true
  | _ => false

end BakeError

end Barrage
