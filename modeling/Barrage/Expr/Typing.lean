import Barrage.Expr.Basic

/-!
# Types of expressions

Every operator and function has a table of the operand types it is defined for; no type is ever
converted into another. The first error met from left to right, operands before the node above them, is
the one reported.

## Main definitions

* `TypeError`: why an expression has no type
* `Member.type?`, `UnOp.type?`, `BinOp.type?`, `Func.type`: the tables
* `Expr.infer`, `Expr.check`: the type of an expression, and the test that it is the wanted one
-/

namespace Barrage

/-- Why an expression has no type, or the wrong one. -/
inductive TypeError where
  | unknownVariable (name : String)
  | arity (func : Func) (actual : Nat)
  | operands (op : String) (types : List ValueType)
  | noMember (type : ValueType) (field : Member)
  | branchMismatch (yes no : ValueType)
  | condition (type : ValueType)
  | result (expected actual : ValueType)
deriving DecidableEq, Repr

/-- The text of a type error. -/
def TypeError.message : TypeError → String
  | unknownVariable name => "unknown variable '" ++ name ++ "'"
  | arity func actual =>
    let expected := match func.arity? with
      | some n => toString n
      | none => "at least 2"
    s!"{func.name} expects {expected} arguments, got {actual}"
  | operands op types => op ++ " is not defined for (" ++ ValueType.names types ++ ")"
  | noMember type field => type.name ++ " has no member '" ++ field.name ++ "'"
  | branchMismatch yes no => "branches disagree: " ++ yes.name ++ " vs " ++ no.name
  | condition type => "branch condition must be Bool, got " ++ type.name
  | result expected actual =>
    "expression has type " ++ actual.name ++ ", expected " ++ expected.name

/-- Type of a member of an object. -/
def Member.type? : Member → ValueType → Option ValueType
  | x, .vec2 | y, .vec2 | length, .vec2 => some .float
  | elapsed, .timer => some .float
  | hp, .entity => some .float
  | position, .entity => some .vec2
  | _, _ => none

/-- Result type of an operator with one operand. -/
def UnOp.type? : UnOp → ValueType → Option ValueType
  | neg, .float => some .float
  | neg, .int => some .int
  | neg, .vec2 => some .vec2
  | not, .bool => some .bool
  | _, _ => none

/-- Spelling of an operator with one operand. -/
def UnOp.symbol : UnOp → String
  | neg => "-"
  | not => "!"

/-- Whether values of a type can be tested for equality. -/
def ValueType.hasEquality : ValueType → Bool
  | float | int | bool | vec2 => true
  | timer | entity => false

/-- Result type of an operator with two operands. -/
def BinOp.type? : BinOp → ValueType → ValueType → Option ValueType
  | sub, .float, .float | div, .float, .float | rem, .float, .float => some .float
  | sub, .int, .int | div, .int, .int | rem, .int, .int => some .int
  | sub, .vec2, .vec2 | div, .vec2, .float => some .vec2
  | lt, .float, .float | le, .float, .float | gt, .float, .float | ge, .float, .float => some .bool
  | lt, .int, .int | le, .int, .int | gt, .int, .int | ge, .int, .int => some .bool
  | eq, a, b | ne, a, b => if a = b ∧ a.hasEquality then some .bool else none
  | _, _, _ => none

namespace Func

/-- Whether all types of a list are the given one. -/
def allOf (type : ValueType) (types : List ValueType) : Bool := types.all (· == type)

/-- Result type of a function for a fitting number of arguments, if it is defined for their types. A
product may scale one vector by any number of floats. -/
def type? (func : Func) (types : List ValueType) : Option ValueType :=
  let first := types.head?
  match func with
  | add => if allOf .float types || allOf .int types || allOf .vec2 types then first else none
  | mul =>
    if allOf .float types || allOf .int types then first
    else if types.count .vec2 == 1 && types.all (fun ty => ty == .float || ty == .vec2) then some .vec2
    else none
  | min | max => if allOf .float types || allOf .int types then first else none
  | and | or => if allOf .bool types then some .bool else none
  | sin | cos | sqrt | floor => if allOf .float types then some .float else none
  | abs => if allOf .float types || allOf .int types then first else none
  | lerp | clamp => if allOf .float types then some .float else none
  | vec2 => if allOf .float types then some .vec2 else none
  | toFloat => if allOf .int types then some .float else none

/-- Whether a function takes a number of arguments. -/
def takes (func : Func) (count : Nat) : Bool :=
  match func.arity? with
  | some n => n == count
  | none => 2 ≤ count

/-- Result type of a function; the number of arguments is tested before their types. -/
def type (func : Func) (types : List ValueType) : Except TypeError ValueType :=
  if func.takes types.length then
    match func.type? types with
    | some ty => .ok ty
    | none => .error (.operands func.name types)
  else .error (.arity func types.length)

end Func

namespace Expr

/-- The types of the names in scope, the innermost first. -/
abbrev Scope := List (String × ValueType)

/-- The result of a table, or the error that names the operands. -/
def orOperands (op : String) (types : List ValueType) : Option ValueType → Except TypeError ValueType
  | some ty => .ok ty
  | none => .error (.operands op types)

mutual

/-- Type of an expression in a scope. -/
def inferIn (scope : Scope) : Expr → Except TypeError ValueType
  | const value => .ok value.type
  | var name =>
    match scope.lookup name with
    | some ty => .ok ty
    | none => .error (.unknownVariable name)
  | member inner field => do
    let ty ← inferIn scope inner
    match field.type? ty with
    | some result => .ok result
    | none => .error (.noMember ty field)
  | unary op inner => do
    let ty ← inferIn scope inner
    orOperands op.symbol [ty] (op.type? ty)
  | binary op left right => do
    let l ← inferIn scope left
    let r ← inferIn scope right
    orOperands op.symbol [l, r] (op.type? l r)
  | call func args => do
    func.type (← inferList scope args)
  | branch cond yes no => do
    let c ← inferIn scope cond
    if c ≠ .bool then .error (.condition c)
    else
      let y ← inferIn scope yes
      let n ← inferIn scope no
      if y = n then .ok y else .error (.branchMismatch y n)
  | bind name value body => do
    let ty ← inferIn scope value
    inferIn ((name, ty) :: scope) body

/-- Types of a list of expressions, from left to right. -/
def inferList (scope : Scope) : List Expr → Except TypeError (List ValueType)
  | [] => .ok []
  | e :: es => do
    let ty ← inferIn scope e
    let tys ← inferList scope es
    .ok (ty :: tys)

end

/-- The scope of a parameter list; of equal names the last counts. -/
def Scope.of (params : List Param) : Scope := (params.map fun p => (p.name, p.type)).reverse

/-- Type of an expression over some parameters. -/
def infer (e : Expr) (params : List Param) : Except TypeError ValueType := inferIn (Scope.of params) e

/-- Tests that an expression has the wanted type. -/
def check (e : Expr) (params : List Param) (returns : ValueType) : Except TypeError Unit := do
  let actual ← e.infer params
  if actual = returns then .ok () else .error (.result returns actual)

end Expr

end Barrage
