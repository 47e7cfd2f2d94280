import Barrage.Bake.Identity
import Barrage.Chunk.Run
import Barrage.Expr.Code

/-!
# Callables

Whatever an expression was compiled to, it is called the same way: the number and the types of the
arguments are tested, the code or the served unit runs, and the type of the result is tested. Leading
arguments can be fixed beforehand.

## Main definitions

* `BakedUnit`: a function of a chunk that was recorded under a signature
* `Callable`: code or a served unit, with fixed leading arguments
* `Callable.bindLeading`, `Callable.invoke`: fixing arguments, and calling
-/

namespace Barrage

/-- A unit of loaded artifacts, with the chunk that holds its function. -/
structure BakedUnit where
  name : String
  signature : Signature
  chunk : Chunk

/-- Runs a unit in the interpreter. Every failure there is the same error. -/
def BakedUnit.call (unit : BakedUnit) (args : List Value) (hosts : Hosts) :
    Except EvalError Value × Hosts :=
  match (unit.chunk.call unit.name args).run.run hosts with
  | (.error _, hosts) => (.error (.baked unit.name), hosts)
  | (.ok (.value v), hosts) => (.ok v, hosts)
  | (.ok d, hosts) => (.error (.returnType unit.signature.returns d.typeName), hosts)

/-- What a callable runs. -/
inductive Callable.Body where
  | code (code : Code)
  | unit (unit : BakedUnit)

/-- An expression that can be called. -/
structure Callable where
  /-- The arguments that are still open, and the result. -/
  signature : Signature
  /-- The leading arguments that are fixed. -/
  bound : List Value
  body : Callable.Body

namespace Callable

/-- Tests values against the leading parameters. -/
def checkArgs (params : List ValueType) (args : List Value) : Except EvalError Unit :=
  if params.length < args.length then .error (.arity params.length args.length)
  else
    let wrong := ((params.zip args).zipIdx).find? fun ((expected, arg), _) => arg.type != expected
    match wrong with
    | some ((expected, arg), index) => .error (.argumentType index expected arg.type)
    | none => .ok ()

/-- The code of an expression whose names are parameters. -/
def ofExpr (e : Expr) (params : List Param) (returns : ValueType) : Except TypeError Callable := do
  let code ← e.compile (params.map (·.name)).reverse
  .ok ⟨Signature.of params returns, [], .code code⟩

/-- A unit of loaded artifacts. -/
def ofUnit (unit : BakedUnit) : Callable := ⟨unit.signature, [], .unit unit⟩

/-- Fixes the leading open arguments. -/
def bindLeading (c : Callable) (values : List Value) : Except EvalError Callable := do
  checkArgs c.signature.params values
  .ok { c with
    signature := ⟨c.signature.params.drop values.length, c.signature.returns⟩
    bound := c.bound ++ values }

/-- Whether the callable was served from artifacts. -/
def isBaked (c : Callable) : Bool :=
  match c.body with
  | .unit _ => true
  | .code _ => false

/-- Runs the body over all arguments. -/
def runBody (body : Body) (args : List Value) (hosts : Hosts) : Except EvalError Value × Hosts :=
  match body with
  | .code code => ((code.run .exact hosts args).map (·.1), hosts)
  | .unit unit => unit.call args hosts

/-- Calls with the open arguments. A served unit may create timers. -/
def invoke (c : Callable) (args : List Value) (hosts : Hosts) : Except EvalError Value × Hosts :=
  if args.length ≠ c.signature.params.length then
    (.error (.arity c.signature.params.length args.length), hosts)
  else
    match checkArgs c.signature.params args with
    | .error e => (.error e, hosts)
    | .ok () =>
      match runBody c.body (c.bound ++ args) hosts with
      | (.error e, hosts) => (.error e, hosts)
      | (.ok v, hosts) =>
        if v.type = c.signature.returns then (.ok v, hosts)
        else (.error (.returnType c.signature.returns v.type.name), hosts)

/-- A callable as messages show it. -/
def describe (c : Callable) : String :=
  let kind := match c.body with
    | .code _ => "closure"
    | .unit unit => "baked " ++ unit.name
  "Callable(" ++ kind ++ ", " ++ c.signature.text ++ ")"

end Callable

end Barrage
