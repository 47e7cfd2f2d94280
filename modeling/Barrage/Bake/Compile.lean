import Barrage.Bake.Session
import Barrage.Expr.Flatten
import Barrage.Expr.Parser
import Barrage.Expr.Printer
import Barrage.Expr.Typing

/-!
# Compiling in a session

An expression is compiled with the names of its parameters. Values that are known beforehand become
leading parameters that are fixed at once. A recording session prints the expression as well; a serving
session does not look at it and takes the next recorded unit.

## Main definitions

* `Proxy`, `Request`: values known beforehand, and what is to be compiled
* `CompileError`: why there is no callable
* `Request.compileDirect`, `Expr.printUnit`: the callable and the printed body
* `Session.compile`, `Session.compileSource`: compiles a tree, and a text
* `Session.compileKeyed`: compiles a text as a source of its own
-/

namespace Barrage

/-- A value known before the others, under the name expressions use for it. -/
structure Proxy where
  name : String
  value : Value

/-- The parameter a proxy stands for. -/
def Proxy.param (p : Proxy) : Param := ⟨p.name, p.value.type⟩

/-- What an expression is compiled for. -/
structure Request where
  params : List Param
  returns : ValueType
  proxies : List Proxy := []

namespace Request

/-- All parameters, those of the proxies first. -/
def fullParams (r : Request) : List Param := r.proxies.map Proxy.param ++ r.params

/-- The values of the proxies. -/
def proxyValues (r : Request) : List Value := r.proxies.map (·.value)

end Request

/-- Why an expression was not compiled. -/
inductive CompileError where
  | parse (e : ParseError)
  | type (e : TypeError)
  | print (e : PrintError)
  | eval (e : EvalError)
  | bake (e : BakeError)

namespace CompileError

/-- The text of an error. -/
def message : CompileError → String
  | parse e => e.message
  | type e => e.message
  | print e => e.message
  | eval e => e.message
  | bake e => e.message

/-- Whether the artifacts no longer fit the scripts. -/
def isDesync : CompileError → Bool
  | bake e => e.isDesync
  | _ => false

end CompileError

/-- The callable of an expression. -/
def Request.compileDirect (r : Request) (e : Expr) : Except CompileError Callable := do
  (e.check r.fullParams r.returns).mapError .type
  let callable ← (Callable.ofExpr e.flatten r.fullParams r.returns).mapError .type
  (callable.bindLeading r.proxyValues).mapError .eval

/-- The body under which an expression is recorded. -/
def Expr.printUnit (e : Expr) : Except PrintError String :=
  let (e, hoisted) := e.hoist
  (e.flatten.linearize hoisted).print

namespace Session

/-- Takes the next recorded unit. -/
def serve (s : Session) (r : Request) : Except CompileError Callable × Session :=
  let (answer, s) := s.serveUnit (Signature.of r.fullParams r.returns) r.proxyValues
  (answer.mapError .bake, s)

/-- Compiles an expression and records its printed body. -/
def compileRecorded (s : Session) (e : Expr) (r : Request) :
    Except CompileError (Callable × Session) := do
  let callable ← r.compileDirect e
  let body ← e.printUnit.mapError .print
  let s ← (s.recordUnit body r.fullParams r.returns).mapError .bake
  .ok (callable, s)

/-- Compiles an expression the way the mode asks for. -/
def compile (s : Session) (e : Expr) (r : Request) : Except CompileError Callable × Session :=
  match s.mode with
  | .serve => s.serve r
  | .direct => (r.compileDirect e, s)
  | .record =>
    match s.compileRecorded e r with
    | .ok (callable, s) => (.ok callable, s)
    | .error e => (.error e, s)

end Session

/-- A session and the host objects that names are looked up in. -/
structure BuildState where
  session : Session
  hosts : Hosts

/-- A computation in a session that may fail; what it did before failing stays done. -/
abbrev BuildM (ε : Type) := ExceptT ε (StateM BuildState)

namespace BuildM

/-- Replaces the session. -/
def setSession {ε : Type} (session : Session) : BuildM ε Unit := modify ({ · with session })

/-- Parses a text; timers that it names exist afterwards. -/
def parse (source : String) : BuildM CompileError Expr := do
  let state ← get
  let (answer, hosts) := Expr.parseIn state.hosts source
  set { state with hosts }
  MonadExcept.ofExcept (answer.mapError .parse)

/-- Compiles a tree. -/
def compile (e : Expr) (r : Request) : BuildM CompileError Callable := do
  let (answer, session) := (← get).session.compile e r
  setSession session
  MonadExcept.ofExcept answer

/-- Compiles a text. A serving session does not parse it. -/
def compileSource (source : String) (r : Request) : BuildM CompileError Callable := do
  if (← get).session.mode = .serve then
    let (answer, session) := (← get).session.serve r
    setSession session
    MonadExcept.ofExcept answer
  else compile (← parse source) r

/-- Opens the source with a key. -/
def openKeyed (kind : SiteKind) (key : SiteKey) : BuildM BakeError (Option Nat) := do
  match (← get).session.openKeyed kind key with
  | .ok (id, session) =>
    setSession session
    return id
  | .error e => throw e

/-- Closes what was opened. -/
def close (id : Option Nat) (keep : Bool) : BuildM BakeError Unit := do
  match (← get).session.close id keep with
  | .ok session => setSession session
  | .error e => throw e

/-- Does something and hands over its answer instead of failing. -/
def attempt {ε δ α : Type} (act : BuildM ε α) : BuildM δ (Except ε α) := ExceptT.lift act.run

/-- Does something inside a source with a key. If it fails, its error is reported, and the source is
closed as well as it can be. -/
def within {ε α : Type} (ofBake : BakeError → ε) (kind : SiteKind) (key : SiteKey) (keepFailed : Bool)
    (act : BuildM ε α) : BuildM ε α := do
  let id ← (openKeyed kind key).adapt ofBake
  match ← attempt act with
  | .ok a =>
    (close id true).adapt ofBake
    return a
  | .error e =>
    let _ ← attempt (close id keepFailed)
    throw e

/-- Compiles a text as a source of its own under a key. -/
def compileKeyed (kind : SiteKind) (key : SiteKey) (source : String) (r : Request) :
    BuildM CompileError Callable :=
  within .bake kind key true (compileSource source r)

/-- Compiles a text as a source of its own under the text. -/
def compileText (source : String) (r : Request) : BuildM CompileError Callable :=
  compileKeyed .textConversion (.text source) source r

/-- Compiles a text as a source of its own under a key of the caller's choice. -/
def compileManual (key source : String) (r : Request) : BuildM CompileError Callable :=
  compileKeyed .manualReflection (.text key) source r

end BuildM

end Barrage
