import Barrage.Bake.Mode
import Barrage.Bake.Serving

/-!
# Build sessions

A build pass opens one source after another and compiles the expressions of each. In a recording session
an open source gathers printed units, in a serving session it hands recorded ones out, and a direct
session opens nothing. Open sources form a stack and are closed from the top.

A source counts once: when an id is opened again, whatever became of the first opening, the later
recording is suppressed. Operations that fail leave the session as it was.

## Main definitions

* `OpenSource`, `Session`: an open source, and the state of a build pass
* `Session.push`, `Session.pop`: opens and closes a source
* `Session.recording?`, `Session.serving?`: the source on top of the stack
* `Session.export`: turns the recordings into artifacts
-/

namespace Barrage

/-- What an open source does with its expressions. -/
inductive SourceContext where
  | recording (r : Recording)
  | serving (s : Serving)

namespace SourceContext

/-- Kind of a context. -/
def kind : SourceContext → ContextKind
  | recording _ => .recording
  | serving _ => .serving

/-- The source of a context. -/
def file : SourceContext → FileId
  | recording r => r.file
  | serving s => s.file

end SourceContext

/-- An open source, under the number it was opened with. -/
structure OpenSource where
  id : Nat
  context : SourceContext

/-- The state of a build pass. -/
structure Session where
  mode : BuildMode
  /-- What a serving session hands out. -/
  store : Store := Store.empty
  /-- The open sources, the latest first. -/
  stack : List OpenSource := []
  /-- The ids that were ever opened for recording. -/
  opened : List FileId := []
  /-- What closed recordings contribute to the artifacts. -/
  batches : List Batch := []
  /-- The number of the next source. -/
  nextId : Nat := 0

namespace Session

/-- A session that compiles. -/
def direct : Session := { mode := .direct }

/-- A session that compiles and records. -/
def recording : Session := { mode := .record }

/-- A session that serves what was recorded. -/
def serving (store : Store) : Session := { mode := .serve, store }

/-- How many sources are open. -/
def depth (s : Session) : Nat := s.stack.length

/-- Puts a context on the stack under the next number. -/
def enter (s : Session) (context : SourceContext) : Nat × Session :=
  (s.nextId, { s with stack := ⟨s.nextId, context⟩ :: s.stack, nextId := s.nextId + 1 })

/-- Opens a source the way the mode asks for. A direct session opens nothing and gives no number. -/
def push (s : Session) (file : FileId) : Except BakeError (Option Nat × Session) :=
  match s.mode with
  | .direct => .ok (none, s)
  | .record =>
    let known := s.opened.contains file
    let (id, entered) := s.enter (.recording { file, suppressed := known })
    .ok (some id, if known then entered else { entered with opened := file :: s.opened })
  | .serve =>
    match Serving.load file s.store with
    | .error e => .error e
    | .ok serving =>
      let (id, entered) := s.enter (.serving serving)
      .ok (some id, entered)

/-- Opens the source with a key. -/
def openKeyed (s : Session) (kind : SiteKind) (key : SiteKey) :
    Except BakeError (Option Nat × Session) :=
  s.push (FileId.identify kind key)

/-- The error of closing a source that is not on top. -/
def closeError (s : Session) (id : Nat) : BakeError :=
  let closing := match s.stack.find? (·.id == id) with
    | some source => source.context.file.text
    | none => s!"unknown context #{id}"
  let top := match s.stack with
    | [] => "nothing"
    | source :: _ => source.context.file.text
  .mismatchedClose closing top

/-- The batch a context leaves behind, if its units are kept. -/
def remainder? (keep : Bool) : SourceContext → Option Batch
  | .recording r => if keep then r.export? else none
  | .serving _ => none

/-- Takes the source with a number from the top of the stack, and keeps what it recorded or drops it. -/
def pop (s : Session) (id : Nat) (keep : Bool) : Except BakeError Session :=
  match s.stack with
  | [] => .error (s.closeError id)
  | source :: rest =>
    if source.id = id then
      .ok { s with stack := rest, batches := s.batches ++ (remainder? keep source.context).toList }
    else .error (s.closeError id)

/-- Closes what was opened, if anything was. -/
def close (s : Session) (id : Option Nat) (keep : Bool) : Except BakeError Session :=
  match id with
  | none => .ok s
  | some id => s.pop id keep

/-- The recording on top of the stack, if any source is open. -/
def recording? (s : Session) : Except BakeError (Option Recording) :=
  match s.stack with
  | [] => .ok none
  | ⟨_, .recording r⟩ :: _ => .ok (some r)
  | ⟨_, other⟩ :: _ => .error (.wrongContextKind .recording other.kind)

/-- The serving context on top of the stack, if any source is open. -/
def serving? (s : Session) : Except BakeError (Option Serving) :=
  match s.stack with
  | [] => .ok none
  | ⟨_, .serving served⟩ :: _ => .ok (some served)
  | ⟨_, other⟩ :: _ => .error (.wrongContextKind .serving other.kind)

/-- Replaces the context on top of the stack. -/
def setTop (s : Session) (context : SourceContext) : Session :=
  match s.stack with
  | [] => s
  | source :: rest => { s with stack := { source with context } :: rest }

/-- Turns the kept recordings into artifacts. Only a recording session has any. -/
def «export» (s : Session) : Except BakeError (Option Artifacts × Session) :=
  if s.mode ≠ .record then .ok (none, s)
  else if s.stack.isEmpty then .ok (some (Artifacts.ofBatches s.batches), { s with batches := [] })
  else .error (.contextsStillOpen s.depth)

/-- Records a unit in the source on top of the stack. -/
def recordUnit (s : Session) (body : String) (params : List Param) (returns : ValueType) :
    Except BakeError Session :=
  match s.recording? with
  | .error e => .error e
  | .ok none => .error (.noActiveContext .recording)
  | .ok (some recording) => .ok (s.setTop (.recording (recording.add body params returns).2))

/-- Hands out the next unit of the source on top of the stack. -/
def serveUnit (s : Session) (expected : Signature) (proxies : List Value) :
    Except BakeError Callable × Session :=
  match s.serving? with
  | .error e => (.error e, s)
  | .ok none => (.error (.noActiveContext .serving), s)
  | .ok (some served) =>
    let (answer, served) := served.next expected proxies
    (answer, s.setTop (.serving served))

end Session

end Barrage
