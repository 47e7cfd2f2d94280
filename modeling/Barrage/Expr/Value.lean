import Barrage.Hosts

/-!
# Values of expressions

An expression yields a number, a whole number, a truth value, a vector or a host object. This file
holds values, their types, the types of units, and the faults an evaluation can end in.

## Main definitions

* `ValueType`, `Value`: the types and the values of the language
* `Param`, `Signature`: what a unit takes and returns
* `EvalError`: why an evaluation has no value
-/

namespace Barrage

/-- The types of values. -/
inductive ValueType where
  | float | int | bool | vec2 | timer | entity
deriving DecidableEq, Repr

namespace ValueType

/-- Name of a type in messages. -/
def name : ValueType → String
  | float => "Float"
  | int => "Int"
  | bool => "Bool"
  | vec2 => "Vec2"
  | timer => "Timer"
  | entity => "Entity"

/-- Name of a type in documents. -/
def key : ValueType → String
  | float => "float"
  | int => "int"
  | bool => "bool"
  | vec2 => "vec2"
  | timer => "timer"
  | entity => "entity"

/-- All types. -/
def all : List ValueType := [float, int, bool, vec2, timer, entity]

/-- The type with a name as documents write it. -/
def ofKey? (s : String) : Option ValueType := all.find? fun ty => ty.key == s

/-- Names of types with a comma between them. -/
def names (tys : List ValueType) : String := ", ".intercalate (tys.map name)

end ValueType

/-- A value. -/
inductive Value where
  | float (x : Float)
  | int (n : Int64)
  | bool (b : Bool)
  | vec2 (v : Vec2)
  | timer (handle : TimerHandle)
  | entity (handle : EntityHandle)
deriving BEq

namespace Value

/-- Type of a value. -/
def type : Value → ValueType
  | float _ => .float
  | int _ => .int
  | bool _ => .bool
  | vec2 _ => .vec2
  | timer _ => .timer
  | entity _ => .entity

/-- The number a value is, if it is one. -/
def asFloat? : Value → Option Float
  | float x => some x
  | _ => none

/-- The truth value a value is, if it is one. -/
def asBool? : Value → Option Bool
  | bool b => some b
  | _ => none

/-- The text of a value in messages and events. -/
def text : Value → String
  | float x => FloatLayout.plain.render x
  | int n => toString n.toInt
  | bool b => if b then "true" else "false"
  | vec2 v => "<" ++ FloatLayout.plain.render v.x ++ ", " ++ FloatLayout.plain.render v.y ++ ">"
  | timer handle => "timer(" ++ Text.shown handle.name ++ ")"
  | entity handle => "entity(" ++ Text.shown handle.id ++ ")"

/-- A value with its kind; of host objects the present state. -/
def describe (hosts : Hosts) : Value → String
  | float x => "Float(" ++ FloatLayout.marked.render x ++ ")"
  | int n => s!"Int({n.toInt})"
  | bool b => if b then "Bool(true)" else "Bool(false)"
  | vec2 v =>
    "Vec2(DVec2(" ++ FloatLayout.marked.render v.x ++ ", " ++ FloatLayout.marked.render v.y ++ "))"
  | timer handle => "Timer(" ++ (hosts.timerOf handle).describe ++ ")"
  | entity handle => "Entity(" ++ (hosts.entityOf handle).describe ++ ")"

end Value

/-- A named parameter of a unit. -/
structure Param where
  name : String
  type : ValueType
deriving DecidableEq, Repr

/-- The types of a unit's arguments and of its result. -/
structure Signature where
  params : List ValueType
  returns : ValueType
deriving DecidableEq, Repr

namespace Signature

/-- The signature of a unit with named parameters. -/
def of (params : List Param) (returns : ValueType) : Signature := ⟨params.map (·.type), returns⟩

/-- The text of a signature. -/
def text (s : Signature) : String := "Fn(" ++ ValueType.names s.params ++ ") -> " ++ s.returns.name

end Signature

/-- Operations on whole numbers whose result may not fit. -/
inductive Arithmetic where
  | negation | subtraction | division | remainder | addition | multiplication | abs
deriving DecidableEq, Repr

/-- Name of an operation in messages. -/
def Arithmetic.name : Arithmetic → String
  | negation => "negation"
  | subtraction => "subtraction"
  | division => "division"
  | remainder => "remainder"
  | addition => "addition"
  | multiplication => "multiplication"
  | abs => "abs"

/-- Why an evaluation has no value. -/
inductive EvalError where
  /-- A whole number was divided by zero. -/
  | divideByZero
  /-- A whole number left its 64 bits. -/
  | overflow (operation : Arithmetic)
  /-- A call got the wrong number of arguments. -/
  | arity (expected actual : Nat)
  /-- An argument or operand has the wrong type. -/
  | argumentType (index : Nat) (expected actual : ValueType)
  /-- The result is not of the declared type. -/
  | returnType (expected : ValueType) (actual : String)
  /-- A served unit failed in the interpreter. -/
  | baked (unit : String)
  /-- A variable was read from a frame that does not reach to its slot. -/
  | unboundSlot (slot : Nat)
deriving DecidableEq, Repr

/-- The text of an evaluation error. -/
def EvalError.message : EvalError → String
  | divideByZero => "integer division by zero"
  | overflow operation => "integer overflow in " ++ operation.name
  | arity expected actual => s!"expected {expected} arguments, got {actual}"
  | argumentType index expected actual =>
    s!"argument {index} should be {expected.name}, got {actual.name}"
  | returnType expected actual => s!"unit returned {actual}, expected {expected.name}"
  | baked unit => "baked unit '" ++ unit ++ "' failed"
  | unboundSlot slot => s!"slot {slot} is outside the frame"

end Barrage
