import Barrage.Expr.Linear

/-!
# Printed units

A unit is printed as the body of a function of the serving language. Operators are written in
parentheses and everything else as a call, so that a printed expression can stand anywhere. Negative
literals are in parentheses, the special doubles are calls, and the least whole number, which no literal
denotes, is a difference.

## Main definitions

* `Value.literal`: a constant
* `Expr.print`: an expression
* `Linear.print`: the body of a unit
-/

namespace Barrage

/-- Why a unit cannot be printed. -/
inductive PrintError where
  /-- A host object was not replaced by a lookup. -/
  | unhoisted (shown : String)
deriving DecidableEq, Repr

/-- The text of a print error. -/
def PrintError.message : PrintError → String
  | unhoisted shown => "runtime object " ++ shown ++ " must be hoisted before printing"

/-- A double as the serving language writes it. -/
def floatLiteral (x : Float) : String :=
  match Binary.ofFloat x with
  | .nan => "float_nan()"
  | .infinite negative => if negative then "neg(float_inf())" else "float_inf()"
  | .finite negative _ _ =>
    let text := FloatLayout.literal.render x
    if negative then "(" ++ text ++ ")" else text

/-- A whole number as the serving language writes it. -/
def intLiteral (n : Int64) : String :=
  if n = Int64.minValue then "(-9223372036854775807 - 1)"
  else if n < 0 then "(" ++ toString n.toInt ++ ")"
  else toString n.toInt

/-- A constant as the serving language writes it. -/
def Value.literal : Value → Except PrintError String
  | float x => .ok (floatLiteral x)
  | int n => .ok (intLiteral n)
  | bool b => .ok (if b then "true" else "false")
  | vec2 v => .ok ("vec2(" ++ floatLiteral v.x ++ ", " ++ floatLiteral v.y ++ ")")
  | timer handle => .error (.unhoisted (timer handle).text)
  | entity handle => .error (.unhoisted (entity handle).text)

/-- The function that reads a member. -/
def Member.getter : Member → String
  | x => "vec_x"
  | y => "vec_y"
  | length => "vec_length"
  | elapsed => "timer_elapsed"
  | hp => "entity_hp"
  | position => "entity_position"

/-- The function that applies an operator with one operand. -/
def UnOp.function : UnOp → String
  | neg => "neg"
  | not => "not"

/-- The operator that joins the arguments of a function, for functions written with one. -/
def Func.joiner? : Func → Option String
  | add => some " + "
  | mul => some " * "
  | and => some " && "
  | or => some " || "
  | _ => none

namespace Func

/-- Nested calls of two arguments each, for the functions that the serving language has for two only. -/
def foldCalls (name first : String) (rest : List String) : String :=
  rest.foldl (fun acc arg => name ++ "(" ++ acc ++ ", " ++ arg ++ ")") first

/-- A call with printed arguments. -/
def print (func : Func) (args : List String) : String :=
  match func.joiner? with
  | some joiner => "(" ++ joiner.intercalate args ++ ")"
  | none =>
    match func, args with
    | min, [] | max, [] => ""
    | min, first :: rest | max, first :: rest => foldCalls func.name first rest
    | _, _ => func.name ++ "(" ++ ", ".intercalate args ++ ")"

end Func

namespace Expr

mutual

/-- An expression as the serving language writes it. -/
def print : Expr → Except PrintError String
  | const value => value.literal
  | var name => .ok name
  | member inner field => do
    let inner ← print inner
    .ok (field.getter ++ "(" ++ inner ++ ")")
  | unary op inner => do
    let inner ← print inner
    .ok (op.function ++ "(" ++ inner ++ ")")
  | binary op left right => do
    let left ← print left
    let right ← print right
    .ok ("(" ++ left ++ " " ++ op.symbol ++ " " ++ right ++ ")")
  | call func args => do
    let args ← printList args
    .ok (func.print args)
  | branch cond yes no => do
    let cond ← print cond
    let yes ← print yes
    let no ← print no
    .ok ("(if " ++ cond ++ " \x7b " ++ yes ++ " \x7d else \x7b " ++ no ++ " \x7d)")
  | bind name value body => do
    let value ← print value
    let body ← print body
    .ok ("\x7b let " ++ name ++ " = " ++ value ++ "; " ++ body ++ " \x7d")

/-- A list of expressions. -/
def printList : List Expr → Except PrintError (List String)
  | [] => .ok []
  | e :: es => do
    let text ← print e
    let texts ← printList es
    .ok (text :: texts)

end

end Expr

/-- The line that looks an object up. -/
def Hoisted.print (h : Hoisted) : String :=
  "let " ++ h.name ++ " = get_" ++ h.object.kind ++ "(" ++ Text.literal h.object.key ++ ");\n"

/-- The line of a binding; under a condition that does not hold it binds the unit value. -/
def Binding.print (b : Binding) : Except PrintError String := do
  let value ← b.value.print
  match b.guard with
  | none => .ok ("let " ++ b.name ++ " = " ++ value ++ ";\n")
  | some guard =>
    let guard ← guard.print
    .ok ("let " ++ b.name ++ " = if " ++ guard ++ " \x7b " ++ value ++ " \x7d else \x7b () \x7d;\n")

/-- The body of a unit. -/
def Linear.print (unit : Linear) : Except PrintError String := do
  let bindings ← unit.bindings.mapM Binding.print
  let result ← unit.result.print
  .ok (String.join (unit.hoisted.map Hoisted.print) ++ String.join bindings ++ "return " ++ result ++ ";")

end Barrage
