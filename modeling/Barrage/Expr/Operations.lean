import Barrage.Expr.Basic
import Barrage.Number.Checked

/-!
# Operations on values

What operators, members and functions do to values. Two evaluators use these definitions: the one
that runs compiled code and the one that runs served units. They differ in how they compare two
floats, so the comparisons are a parameter.

## Main definitions

* `FloatOrder`, `FloatOrder.exact`, `FloatOrder.tolerant`: comparisons of floats
* `Value.member`, `Value.unary`, `Value.binary`: members and operators
* `Func.apply`: a function on evaluated arguments
-/

namespace Barrage

/-- Six comparisons of floats. -/
structure FloatOrder where
  lt : Float → Float → Bool
  le : Float → Float → Bool
  gt : Float → Float → Bool
  ge : Float → Float → Bool
  eq : Float → Float → Bool
  ne : Float → Float → Bool

namespace FloatOrder

/-- The comparisons of doubles themselves. -/
def exact : FloatOrder where
  lt x y := x < y
  le x y := x ≤ y
  gt x y := x > y
  ge x y := x ≥ y
  eq x y := x == y
  ne x y := x != y

/-- The distance from one to the next double. -/
def epsilon : Float := Float.ofBits 0x3cb0000000000000

/-- The scale that two numbers are compared at: the greater magnitude, or one if either is zero. -/
def scale (x y : Float) : Float :=
  if x * y == 0.0 then 1.0 else greater x.abs y.abs

/-- The difference of two numbers at their scale. A scale of zero, which is that of a zero beside a NaN,
has no difference. -/
def offset (x y : Float) : Float :=
  let scale := scale x y
  if scale == 0.0 then 0.0 else (x - y) / scale

/-- Comparisons that disregard a difference of one unit in the last place. Every one of them is false
if both operands are the same infinity, or if one is a NaN and the other is not zero. -/
def tolerant : FloatOrder where
  lt x y := offset y x > epsilon
  le x y := offset y x > -epsilon
  gt x y := offset x y > epsilon
  ge x y := offset x y > -epsilon
  eq x y := (offset x y).abs ≤ epsilon
  ne x y := (offset x y).abs > epsilon

end FloatOrder

namespace Value

/-- The error of an operand of the wrong type. -/
def mismatch (value : Value) (expected : ValueType) : EvalError := .argumentType 0 expected value.type

/-- The truth value an operand has to be. -/
def toBool : Value → Except EvalError Bool
  | bool b => .ok b
  | value => .error (value.mismatch .bool)

/-- The number an operand has to be. -/
def toFloat : Value → Except EvalError Float
  | float x => .ok x
  | value => .error (value.mismatch .float)

/-- A whole number, unless the operation overflowed. -/
def checked (operation : Arithmetic) : Option Int64 → Except EvalError Value
  | some n => .ok (int n)
  | none => .error (.overflow operation)

/-- A member of an object. -/
def member (hosts : Hosts) : Value → Member → Except EvalError Value
  | vec2 v, .x => .ok (float v.x)
  | vec2 v, .y => .ok (float v.y)
  | vec2 v, .length => .ok (float v.length)
  | timer handle, .elapsed => .ok (float (hosts.timerOf handle).elapsed)
  | entity handle, .hp => .ok (float (hosts.entityOf handle).hp)
  | entity handle, .position => .ok (vec2 (hosts.entityOf handle).position)
  | value, _ => .error (value.mismatch .vec2)

/-- An operator with one operand. -/
def unary : UnOp → Value → Except EvalError Value
  | .neg, float x => .ok (float (-x))
  | .neg, int n => checked .negation (Checked.neg? n)
  | .neg, vec2 v => .ok (vec2 (-v))
  | .not, bool b => .ok (bool !b)
  | _, value => .error (value.mismatch .float)

/-- Whether two values are equal; values of different types are not. -/
def equal (order : FloatOrder) : Value → Value → Bool
  | float x, float y => order.eq x y
  | a, b => a == b

/-- Whether two values differ. -/
def unequal (order : FloatOrder) : Value → Value → Bool
  | float x, float y => order.ne x y
  | a, b => a != b

/-- An operator with two operands. -/
def binary (order : FloatOrder) : BinOp → Value → Value → Except EvalError Value
  | .sub, float x, float y => .ok (float (x - y))
  | .sub, int a, int b => checked .subtraction (Checked.sub? a b)
  | .sub, vec2 v, vec2 w => .ok (vec2 (v - w))
  | .div, float x, float y => .ok (float (x / y))
  | .div, int a, int b =>
    if b = 0 then .error .divideByZero else checked .division (Checked.div? a b)
  | .div, vec2 v, float k => .ok (vec2 (v.divide k))
  | .rem, float x, float y => .ok (float (floatRemainder x y))
  | .rem, int a, int b =>
    if b = 0 then .error .divideByZero else checked .remainder (Checked.rem? a b)
  | .lt, float x, float y => .ok (bool (order.lt x y))
  | .le, float x, float y => .ok (bool (order.le x y))
  | .gt, float x, float y => .ok (bool (order.gt x y))
  | .ge, float x, float y => .ok (bool (order.ge x y))
  | .lt, int a, int b => .ok (bool (a < b))
  | .le, int a, int b => .ok (bool (a ≤ b))
  | .gt, int a, int b => .ok (bool (a > b))
  | .ge, int a, int b => .ok (bool (a ≥ b))
  | .eq, a, b => .ok (bool (equal order a b))
  | .ne, a, b => .ok (bool (unequal order a b))
  | _, a, b => .error (b.mismatch a.type)

/-- One step of a sum. -/
def plus : Value → Value → Except EvalError Value
  | float x, float y => .ok (float (x + y))
  | int a, int b => checked .addition (Checked.add? a b)
  | vec2 v, vec2 w => .ok (vec2 (v + w))
  | a, b => .error (b.mismatch a.type)

/-- One step of a product. A vector may be scaled from either side. -/
def times : Value → Value → Except EvalError Value
  | float x, float y => .ok (float (x * y))
  | int a, int b => checked .multiplication (Checked.mul? a b)
  | vec2 v, float k => .ok (vec2 (v.scale k))
  | float k, vec2 v => .ok (vec2 (v.scale k))
  | a, b => .error (b.mismatch a.type)

/-- One step of a minimum. -/
def least : Value → Value → Except EvalError Value
  | float x, float y => .ok (float (lesser x y))
  | int a, int b => .ok (int (min a b))
  | a, b => .error (b.mismatch a.type)

/-- One step of a maximum. -/
def greatest : Value → Value → Except EvalError Value
  | float x, float y => .ok (float (greater x y))
  | int a, int b => .ok (int (max a b))
  | a, b => .error (b.mismatch a.type)

/-- Absolute value of a number. -/
def absolute : Value → Except EvalError Value
  | float x => .ok (float x.abs)
  | int n => checked .abs (Checked.abs? n)
  | value => .error (value.mismatch .float)

/-- The double nearest to a whole number. -/
def ofWhole : Value → Except EvalError Value
  | int n => .ok (float (Float.ofInt n.toInt))
  | value => .error (value.mismatch .int)

end Value

/-- The point a fraction `t` of the way from `a` to `b`. -/
def lerp (a b t : Float) : Float := a + (b - a) * t

/-- A number held between two bounds; the upper one prevails if they are crossed. -/
def clamp (x low high : Float) : Float := lesser (greater x low) high

namespace Func

/-- Joins operands from the left, stopping at the first error. -/
def joinWith (step : Value → Value → Except EvalError Value) (first : Value) (rest : List Value) :
    Except EvalError Value :=
  rest.foldlM step first

/-- A function of numbers given by an argument list that may be too short. -/
def ofFloats (f : List Float → Except EvalError Value) (args : List Value) : Except EvalError Value := do
  f (← args.mapM Value.toFloat)

/-- A conjunction or disjunction of evaluated operands, which stops at the operand that decides it. -/
def decideBy (short : Bool) : Bool → List Value → Except EvalError Bool
  | acc, [] => .ok acc
  | acc, v :: rest => if acc = short then .ok acc else do decideBy short (← v.toBool) rest

/-- A function on evaluated arguments. -/
def apply (func : Func) : List Value → Except EvalError Value
  | [] => .error (.arity 1 0)
  | first :: rest =>
    match func with
    | add => joinWith Value.plus first rest
    | mul => joinWith Value.times first rest
    | min => joinWith Value.least first rest
    | max => joinWith Value.greatest first rest
    | and => do return .bool (← decideBy false (← first.toBool) rest)
    | or => do return .bool (← decideBy true (← first.toBool) rest)
    | abs => first.absolute
    | toFloat => first.ofWhole
    | sin => do return .float (← first.toFloat).sin
    | cos => do return .float (← first.toFloat).cos
    | sqrt => do return .float (← first.toFloat).sqrt
    | floor => do return .float (← first.toFloat).floor
    | vec2 => ofFloats (fun
      | x :: y :: _ => .ok (.vec2 ⟨x, y⟩)
      | xs => .error (.arity (xs.length + 1) xs.length)) (first :: rest)
    | lerp => ofFloats (fun
      | a :: b :: t :: _ => .ok (.float (Barrage.lerp a b t))
      | xs => .error (.arity (xs.length + 1) xs.length)) (first :: rest)
    | clamp => ofFloats (fun
      | x :: low :: high :: _ => .ok (.float (Barrage.clamp x low high))
      | xs => .error (.arity (xs.length + 1) xs.length)) (first :: rest)

end Func

end Barrage
