import Barrage.Expr.Operations

/-!
# Meaning of expressions

The meaning of an expression over an environment of named values. Names denote the innermost binding,
operands are evaluated from left to right, and the first error ends the evaluation. A choice evaluates
one branch only, and a conjunction or disjunction stops at the operand that decides it.

This is the plain reading of a tree. Compiled code, linear forms and printed units are other ways to
compute it.

## Main definitions

* `Expr.Env`: named values, the innermost first
* `Expr.eval`: the value of an expression
-/

namespace Barrage.Expr

/-- Named values, the innermost first. -/
abbrev Env := List (String × Value)

/-- The environment of some arguments; of equal parameter names the last counts. -/
def Env.of (params : List Param) (args : List Value) : Env :=
  ((params.map (·.name)).zip args).reverse

/-- A name that no enclosing binding or parameter has, as an evaluation error. A frame has no slot for
it, so the slot just above the environment stands for it. -/
def unbound (env : Env) : EvalError := .unboundSlot env.length

mutual

/-- Value of an expression over host objects and an environment. -/
def eval (order : FloatOrder) (hosts : Hosts) (env : Env) : Expr → Except EvalError Value
  | const value => .ok value
  | var name =>
    match env.lookup name with
    | some value => .ok value
    | none => .error (unbound env)
  | member inner field => do
    let value ← eval order hosts env inner
    value.member hosts field
  | unary op inner => do
    let value ← eval order hosts env inner
    Value.unary op value
  | binary op left right => do
    let l ← eval order hosts env left
    let r ← eval order hosts env right
    Value.binary order op l r
  | call .and args => do return .bool (← evalDeciding order hosts env false args)
  | call .or args => do return .bool (← evalDeciding order hosts env true args)
  | call func args => do
    let values ← evalList order hosts env args
    func.apply values
  | branch cond yes no => do
    let value ← eval order hosts env cond
    if ← value.toBool then eval order hosts env yes else eval order hosts env no
  | bind name value body => do
    let value ← eval order hosts env value
    eval order hosts ((name, value) :: env) body

/-- Values of a list of expressions, from left to right. -/
def evalList (order : FloatOrder) (hosts : Hosts) (env : Env) : List Expr → Except EvalError (List Value)
  | [] => .ok []
  | e :: es => do
    let value ← eval order hosts env e
    let values ← evalList order hosts env es
    .ok (value :: values)

/-- The truth value of operands of which the first that equals `short` decides. -/
def evalDeciding (order : FloatOrder) (hosts : Hosts) (env : Env) (short : Bool) :
    List Expr → Except EvalError Bool
  | [] => .ok !short
  | e :: es => do
    let value ← eval order hosts env e
    if (← value.toBool) = short then .ok short else evalDeciding order hosts env short es

end

end Barrage.Expr
