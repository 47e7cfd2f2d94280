import Barrage.Bake.Mode
import Barrage.Document.Decode
import Barrage.Failure

/-!
# Settings

Settings come from a configuration file, from the environment and from the command line, and the later
ones win. What a file leaves out has a default; a file that cannot be used is passed over as a whole.

## Main definitions

* `Settings`: all settings of the program
* `Settings.load`: reads a configuration file
* `Overrides`, `Settings.override`: settings of the command line
* `Settings.applyEnvironment`: the mode that the environment names
-/

namespace Barrage

/-- The settings of the program. -/
structure Settings where
  /-- What to do with expressions, if that is set. -/
  mode : Option BuildMode := none
  scriptsDir : String := "assets/scripts"
  artifactsDir : String := "assets/baked"
  /-- Seconds of a frame. -/
  frameTime : Float := 1.0 / 120.0
  /-- Whether there are frames between phases. -/
  phaseBuffer : Bool := true
  phaseBufferFrames : Nat := 2
  /-- The most frames of a run. -/
  maxFrames : Nat := 72000

/-- Settings that were given on their own. -/
structure Overrides where
  mode : Option BuildMode := none
  scriptsDir : Option String := none
  artifactsDir : Option String := none
  phaseBuffer : Option Bool := none
deriving DecidableEq, Repr

namespace Overrides

/-- Names of the settings that are given. -/
def fields (o : Overrides) : List String :=
  (if o.mode.isSome then ["mode"] else []) ++ (if o.scriptsDir.isSome then ["scripts"] else []) ++
    (if o.artifactsDir.isSome then ["artifacts"] else []) ++
    (if o.phaseBuffer.isSome then ["phase_buffer"] else [])

/-- Whether nothing is given. -/
def isEmpty (o : Overrides) : Bool := o.fields.isEmpty

end Overrides

namespace Settings

/-- Where the configuration file is unless the command line names another. -/
def defaultPath : String := "config/bake.json"

/-- The variable of the environment that names a mode. -/
def modeVariable : String := "KESTREL_BAKE_MODE"

/-- The mode of a run: the one that is set, or else compiling. -/
def buildMode (s : Settings) : BuildMode := s.mode.getD .direct

/-- Frames between phases. -/
def bufferFrames (s : Settings) : Nat := if s.phaseBuffer then s.phaseBufferFrames else 0

open Json in
/-- Reads the settings for building into some settings. -/
def readBake (s : Settings) : Reader Settings := fun depth json => do
  match ← record? ["mode", "scripts_dir", "artifacts_dir"] depth json with
  | (depth, [mode, scriptsDir, artifactsDir]) =>
    some { s with
      mode := ← field (readOptional (readName BuildMode.ofName?)) s.mode depth mode
      scriptsDir := ← field readText s.scriptsDir depth scriptsDir
      artifactsDir := ← field readText s.artifactsDir depth artifactsDir }
  | _ => none

open Json in
/-- Reads the settings for running into some settings. -/
def readRun (s : Settings) : Reader Settings := fun depth json => do
  match ← record? ["frame_time", "phase_buffer", "phase_buffer_frames", "max_frames"] depth json with
  | (depth, [frameTime, phaseBuffer, phaseBufferFrames, maxFrames]) =>
    some { s with
      frameTime := ← field readFloat s.frameTime depth frameTime
      phaseBuffer := ← field readBool s.phaseBuffer depth phaseBuffer
      phaseBufferFrames := ← field (readNat (Nat.pow 2 64)) s.phaseBufferFrames depth phaseBufferFrames
      maxFrames := ← field (readNat (Nat.pow 2 64)) s.maxFrames depth maxFrames }
  | _ => none

open Json in
/-- Reads all settings. -/
def ofJson : Reader Settings := fun depth json => do
  match ← record? ["bake", "sm"] depth json with
  | (depth, [bake, run]) =>
    let s ← field (readBake {}) {} depth bake
    field (readRun s) s depth run
  | _ => none

/-- Reads a configuration file. -/
def load (path : String) (disk : Disk) : Except Failure Settings := do
  let text ← (disk.readText path).mapError fun e =>
    (Failure.ofOs e).within ("Failed to read config file " ++ path)
  match Json.readDocument? ofJson text with
  | none => .error (Failure.within ("Failed to parse config file " ++ path) ⟨[.document]⟩)
  | some s =>
    if s.frameTime > 0.0 then .ok s
    else .error (Failure.plain ("frame_time must be positive in " ++ path))

/-- Reads a configuration file, if it can be used. -/
def loadOrDefault (path : String) (disk : Disk) : Settings :=
  match load path disk with
  | .ok s => s
  | .error _ => {}

/-- Takes the mode that the environment names, if it names one. -/
def applyEnvironment (s : Settings) (value : Option String) : Except Failure Settings :=
  match value.filter fun v => !(Text.trim v).isEmpty with
  | none => .ok s
  | some v =>
    match BuildMode.ofText v with
    | .ok mode => .ok { s with mode := some mode }
    | .error message => .error (Failure.plain (modeVariable ++ ": " ++ message))

/-- Takes the settings that were given on their own. -/
def override (s : Settings) (o : Overrides) : Settings :=
  { s with
    mode := o.mode <|> s.mode
    scriptsDir := o.scriptsDir.getD s.scriptsDir
    artifactsDir := o.artifactsDir.getD s.artifactsDir
    phaseBuffer := o.phaseBuffer.getD s.phaseBuffer }

end Settings

end Barrage
