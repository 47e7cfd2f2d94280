import Barrage.Pattern.Load
import Barrage.Project.Scripts

/-!
# Baking a project

Baking records every pattern of a directory and writes the artifacts. A script that does not load is
passed over, and the others are baked all the same.

## Main definitions

* `Project.hosts`: the host objects that scripts find in every pass
* `Project.Report`, `Project.bake`: bakes a directory
-/

namespace Barrage.Project

/-- The name of the tool that bakes a project. -/
def bakingTool : String := "bake_expressions"

/-- The id of the entity that patterns run on. -/
def bossEntity : String := "boss"

/-- The host objects of a pass: the boss, and no timers yet. -/
def hosts : EntityHandle × Hosts := Hosts.empty.register ⟨bossEntity, 0.0, Vec2.zero⟩

/-- What became of the scripts of a directory. -/
structure Report where
  baked : List String
  failed : List String
  units : Nat
  chunks : Nat
deriving DecidableEq, Repr

/-- The line that sums up a pass of baking. -/
def Report.message (r : Report) : String :=
  s!"[bake] {r.baked.length} scripts baked, {r.failed.length} failed, {r.units} units in {r.chunks} chunks"

/-- Why a pass of baking counts as failed although it came to its end. -/
def Report.failure? (r : Report) : Option Failure :=
  if r.failed.isEmpty then none
  else some (Failure.plain s!"{r.failed.length} scripts failed to bake")

/-- Loads the scripts one after another; tells which loaded and which did not. -/
def loadAll (disk : Disk) (root : String) : List String → BuildState →
    (List String × List String) × BuildState
  | [], state => (([], []), state)
  | path :: rest, state =>
    let (answer, state) := (BuildM.loadFile disk root path).run.run state
    let ((loaded, failed), state) := loadAll disk root rest state
    match answer with
    | .ok _ => ((path :: loaded, failed), state)
    | .error _ => ((loaded, path :: failed), state)

/-- What a session recorded; a session that does not record has nothing. -/
def exported (session : Session) : Except Failure (Option Artifacts) :=
  match session.export with
  | .error e => .error (Failure.ofBake e)
  | .ok (artifacts, _) => .ok artifacts

/-- Records the patterns of a directory and writes the artifacts into another. -/
def bake (root out : String) : DiskM Failure Report := do
  let disk ← get
  let paths ← MonadExcept.ofExcept (scripts root disk)
  let ((baked, failed), state) := loadAll disk root paths ⟨Session.recording, hosts.2⟩
  let artifacts := (← MonadExcept.ofExcept (exported state.session)).getD {}
  (artifacts.write out).adapt fun e =>
    (Failure.ofBake e).within ("Writing artifacts to '" ++ out ++ "'")
  return ⟨baked, failed, artifacts.registry.unitCount, artifacts.chunks.length⟩

end Barrage.Project
