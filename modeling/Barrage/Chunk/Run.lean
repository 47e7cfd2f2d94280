import Barrage.Chunk.Simplify

/-!
# Running chunks

A function of a chunk is run over its arguments. Names denote the latest binding, operands are evaluated
from left to right, and whatever has no value ends the run; why it ended is not reported. A function can
give its value from within a term, which ends it at once. Looking a timer up may create it, so the host
objects are part of the state, and stay changed when the run fails.

A name that nothing binds denotes the functions of the chunk with this name, if there are any. The
statements outside of functions run before each call of the chunk; functions do not see what they bind.

## Main definitions

* `Chunk.native`: the functions every chunk can call
* `Term.eval`, `Definition.run`: terms and functions, given what calls do
* `Chunk.call`: a function by its name; functions of a chunk can call each other
-/

namespace Barrage

namespace Chunk

/-- How a run ends before its last statement. -/
inductive Halt where
  /-- Something had no value. -/
  | fault
  /-- The function gave a value. -/
  | given (d : Datum)

/-- A computation that may change the host objects and may end early. -/
abbrev Run := ExceptT Halt (StateM Hosts)

/-- A run that ends in a fault. -/
def fault {α : Type} : Run α := throw .fault

/-- A result that may be absent; that is a fault. -/
def ofOption {α : Type} : Option α → Run α
  | some a => pure a
  | none => fault

/-- A result that may be an error; every error is the same fault. -/
def ofExcept {α : Type} : Except EvalError α → Run α
  | .ok a => pure a
  | .error _ => fault

/-- A run up to the value that the function gives, which is kept apart from the value of the run. -/
def untilGiven {α : Type} (run : Run α) : Run (Except Datum α) :=
  tryCatch (Except.ok <$> run) fun
    | .given d => pure (.error d)
    | .fault => fault

/-- A run of which the value is the one it gives, or else its own. -/
def settled (run : Run Datum) : Run Datum := do
  match ← untilGiven run with
  | .ok d => return d
  | .error d => return d

/-- The functions on values alone. Minimum and maximum take two arguments. -/
def pureNative (hosts : Hosts) (name : String) (args : List Value) : Option (Except EvalError Value) :=
  match name, args with
  | "vec2", [_, _] => some (Func.vec2.apply args)
  | "vec_x", [v] => some (v.member hosts .x)
  | "vec_y", [v] => some (v.member hosts .y)
  | "vec_length", [v] => some (v.member hosts .length)
  | "timer_elapsed", [v] => some (v.member hosts .elapsed)
  | "entity_hp", [v] => some (v.member hosts .hp)
  | "entity_position", [v] => some (v.member hosts .position)
  | "neg", [v] => some (Value.unary .neg v)
  | "not", [v] => some (Value.unary .not v)
  | "sin", [_] => some (Func.sin.apply args)
  | "cos", [_] => some (Func.cos.apply args)
  | "sqrt", [_] => some (Func.sqrt.apply args)
  | "floor", [_] => some (Func.floor.apply args)
  | "abs", [_] => some (Func.abs.apply args)
  | "min", [_, _] => some (Func.min.apply args)
  | "max", [_, _] => some (Func.max.apply args)
  | "lerp", [_, _, _] => some (Func.lerp.apply args)
  | "clamp", [_, _, _] => some (Func.clamp.apply args)
  | "to_float", [_] => some (Func.toFloat.apply args)
  | "float_inf", [] => some (.ok (.float (Binary.toFloat (.infinite false))))
  | "float_nan", [] => some (.ok (.float (Binary.toFloat .nan)))
  | _, _ => none

/-- The functions every chunk can call. -/
def native (name : String) (args : List Datum) : Run Datum :=
  match name, args with
  | "get_timer", [.text key] => do
    let handle ← modifyGet fun hosts => hosts.timer key
    return .value (.timer handle)
  | "get_entity", [.text key] => do
    let handle ← ofOption ((← get).entity? key)
    return .value (.entity handle)
  | "-", [.value (.int n)] => return .value (.int (← ofOption (Checked.neg? n)))
  | "-", [.value (.float x)] => return .value (.float (-x))
  | "type_of", [d] => return .text d.innerTypeName
  | "is_shared", [_] => return .ofBool false
  | _, _ => do
    let values ← ofOption (args.mapM Datum.value?)
    let result ← ofOption (pureNative (← get) name values)
    return .value (← ofExcept result)

end Chunk

namespace Term

open Chunk

/-- The truth value a datum has to be. -/
def truth (d : Datum) : Run Bool := ofOption d.truth?

/-- Named data, the innermost first. -/
abbrev Env := List (String × Datum)

/-- What a term can reach outside of itself. -/
structure Calls where
  /-- Calls a function by its name, perhaps on an object. -/
  function : String → (object : Option Datum) → List Datum → Run Datum
  /-- Runs a text where names are bound. -/
  script : Env → String → Run Datum

/-- The datum that a name denotes. -/
def lookup (chunk : Chunk) (env : Env) (x : String) : Run Datum :=
  match env.lookup x with
  | some d => return d
  | none => if chunk.defines x then return .function x [] else fault

/-- Calls a function where names are bound. Some functions ask about names, or handle functions. -/
def invoke (chunk : Chunk) (calls : Calls) (env : Env) (function : String) (args : List Datum) :
    Run Datum :=
  match function, args with
  | "is_def_var", [.text x] => return .ofBool (env.lookup x).isSome
  | "is_def_fn", [.text f, .value (.int n)] =>
    return .ofBool (chunk.definitions.any fun g => g.name == f && (g.params.length : Int) == n.toInt)
  | "Fn", [.text f] => if isFunctionName f then return .function f [] else fault
  | "curry", .function f bound :: arg :: args => return .function f (bound ++ arg :: args)
  | "call", .function f bound :: args => calls.function f none (bound ++ args)
  | "eval", [.text script] => calls.script env script
  | _, _ => calls.function function none args

/-- Calls a function on an object. -/
def invokeOn (calls : Calls) (object : Datum) (function : String) (args : List Datum) : Run Datum :=
  match function, object, args with
  | "call", .function f bound, args => calls.function f none (bound ++ args)
  | "curry", .function f bound, arg :: args => return .function f (bound ++ arg :: args)
  | _, _, _ => calls.function function (some object) args

mutual

/-- Value of a term. -/
def eval (chunk : Chunk) (calls : Calls) (env : Env) : Term → Run Datum
  | unit => return .unit
  | bool b => return .ofBool b
  | int n => return .value (.int n)
  | float x => return .value (.float x)
  | text s => return .text s
  | name x => lookup chunk env x
  | not inner => do
    return .ofBool !(← truth (← eval chunk calls env inner))
  | binary (.func .and) left right => do
    if ← truth (← eval chunk calls env left) then
      return .ofBool (← truth (← eval chunk calls env right))
    else return .ofBool false
  | binary (.func .or) left right => do
    if ← truth (← eval chunk calls env left) then return .ofBool true
    else return .ofBool (← truth (← eval chunk calls env right))
  | binary op left right => do
    let l ← eval chunk calls env left
    let r ← eval chunk calls env right
    ofOption (Datum.operate? op l r)
  | call function args => do
    invoke chunk calls env function (← evalList chunk calls env args)
  | send object function args => do
    let d ← eval chunk calls env object
    invokeOn calls d function (← evalList chunk calls env args)
  | part object _ => do
    let _ ← eval chunk calls env object
    fault
  | choice cond yes no => do
    if ← truth (← eval chunk calls env cond) then evalBody chunk calls env yes
    else evalBody chunk calls env no
  | block body => evalBody chunk calls env body

/-- Values of arguments, from left to right. -/
def evalList (chunk : Chunk) (calls : Calls) (env : Env) : List Term → Run (List Datum)
  | [] => return []
  | t :: ts => do
    let d ← eval chunk calls env t
    let ds ← evalList chunk calls env ts
    return d :: ds

/-- Value of the last statement; a binding and the empty list have the unit value. -/
def evalBody (chunk : Chunk) (calls : Calls) (env : Env) : List Statement → Run Datum
  | [] => return .unit
  | .bind x value :: rest => do
    let d ← eval chunk calls env value
    evalBody chunk calls ((x, d) :: env) rest
  | .give value :: _ => do
    throw (.given (← eval chunk calls env value))
  | [.eval value] => eval chunk calls env value
  | .eval value :: rest => do
    let _ ← eval chunk calls env value
    evalBody chunk calls env rest

end

end Term

/-- Runs a function over arguments of the right number, perhaps on an object. -/
def Definition.run (chunk : Chunk) (calls : Term.Calls) (f : Definition) (object : Option Datum)
    (args : List Datum) : Chunk.Run Datum :=
  let this := (object.map fun d => ("this", d)).toList
  Chunk.settled (Term.evalBody chunk calls ((f.params.zip args).reverse ++ this) f.body)

namespace Chunk

/-- How many calls of functions of a chunk may be open at a time. -/
def maxCalls : Nat := 64

/-- Calls that are possible while so many more may be open. A function of the chunk hides one that every
chunk can call; the object that a function is called on is the first argument of the latter only. A text is
run as it stands, and cannot hold functions. -/
def callsWithin (chunk : Chunk) : (room : Nat) → Term.Calls
  | 0 => {
      function := fun name object args =>
        if (chunk.find? name args.length).isSome then fault else native name (object.toList ++ args)
      script := fun _ _ => fault }
  | room + 1 =>
    let inner := callsWithin chunk room
    { function := fun name object args =>
        match chunk.find? name args.length with
        | none => native name (object.toList ++ args)
        | some f => f.run chunk inner object args
      script := fun env text =>
        match parse? text with
        | some ⟨[], main⟩ => settled (Term.evalBody chunk inner env main)
        | _ => fault }

/-- Calls a function of a chunk by its name. -/
def call (chunk : Chunk) (name : String) (args : List Value) : Run Datum := do
  let calls := chunk.callsWithin maxCalls
  let _ ← settled (Term.evalBody chunk calls [] chunk.main)
  let f ← ofOption (chunk.find? name args.length)
  f.run chunk calls none (args.map .value)

end Chunk

end Barrage
