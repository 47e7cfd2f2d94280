import Barrage.Chunk.Term
import Barrage.Expr.Operations

/-!
# Data of the serving language

A term evaluates to a value of expressions, a text, a function, or the unit value. Operators take data of
every kind.
Data of different kinds are unequal and stand in no order, so that comparing them is not a fault; a whole
number beside a double is converted first. Everything else that has no value is a fault, and why is not
reported.

## Main definitions

* `Datum`: what a term can evaluate to
* `Datum.operate?`: an operator on evaluated operands
-/

namespace Barrage

/-- What a comparison says of operands that stand in an order. Other operators say nothing. -/
def BinOp.holds? : BinOp → Ordering → Option Bool
  | lt, o => some o.isLT
  | le, o => some o.isLE
  | gt, o => some o.isGT
  | ge, o => some o.isGE
  | eq, o => some o.isEq
  | ne, o => some o.isNe
  | sub, _ | div, _ | rem, _ => none

/-- What a comparison says of operands that can be told apart but stand in no order: of equal ones if the
flag says so. -/
def BinOp.holdsUnordered? : BinOp → (equal : Bool) → Option Bool
  | eq, equal => some equal
  | ne, equal => some !equal
  | lt, _ | le, _ | gt, _ | ge, _ => some false
  | sub, _ | div, _ | rem, _ => none

/-- What a term evaluates to: a value of expressions, a text, a function, or the unit value. -/
inductive Datum where
  | unit
  | text (s : String)
  /-- A function by its name, with the first arguments of its calls. -/
  | function (name : String) (bound : List Datum)
  | value (v : Value)

namespace Datum

/-- Name of the type of a datum in messages. -/
def typeName : Datum → String
  | unit => "()"
  | text _ => "string"
  | function _ _ => "Fn"
  | value v => v.type.name

/-- Name of the type of a datum within the serving language. -/
def innerTypeName : Datum → String
  | unit => "()"
  | text _ => "string"
  | function _ _ => "Fn"
  | value (.float _) => "f64"
  | value (.int _) => "i64"
  | value (.bool _) => "bool"
  | value v => v.type.name

/-- The value a datum is, if it is one. -/
def value? : Datum → Option Value
  | value v => some v
  | _ => none

/-- The truth value a datum is, if it is one. -/
def truth? : Datum → Option Bool
  | value (.bool b) => some b
  | _ => none

/-- The datum of a truth value. -/
def ofBool (b : Bool) : Datum := .value (.bool b)

/-- A whole number beside a double is converted to a double. -/
def align : Value → Value → Value × Value
  | .int n, .float y => (.float (Float.ofInt n.toInt), .float y)
  | .float x, .int n => (.float x, .float (Float.ofInt n.toInt))
  | a, b => (a, b)

/-- The order of two truth values; a false one comes first. -/
def orderOfBools (a b : Bool) : Ordering := if a == b then .eq else if b then .lt else .gt

/-- The order of two texts by their characters. -/
def orderOfTexts (s t : String) : Ordering := if s == t then .eq else if s < t then .lt else .gt

/-- A comparison of two values. Values of different types are unequal; host objects of one type cannot be
compared. -/
def compareValues? (op : BinOp) (a b : Value) : Option Bool :=
  match align a b with
  | (.bool a, .bool b) => op.holds? (orderOfBools a b)
  | (.timer _, .timer _) | (.entity _, .entity _) => none
  | (a, b) =>
    if a.type = b.type then (Value.binary .tolerant op a b).toOption.bind Value.asBool?
    else op.holdsUnordered? false

/-- A comparison of two data. -/
def compare? (op : BinOp) : Datum → Datum → Option Bool
  | unit, unit => op.holdsUnordered? true
  | text s, text t => op.holds? (orderOfTexts s t)
  | function _ _, function _ _ => none
  | value a, value b => compareValues? op a b
  | _, _ => op.holdsUnordered? false

/-- A calculation with two values. -/
def calculate? (op : Operator) (a b : Value) : Option Value :=
  let (a, b) := align a b
  match op with
  | .func .add => (a.plus b).toOption
  | .func .mul => (a.times b).toOption
  | .op o => (Value.binary .tolerant o a b).toOption
  | .func _ => none

/-- Whether an operator compares its operands. -/
def isComparison : BinOp → Bool
  | .lt | .le | .gt | .ge | .eq | .ne => true
  | .sub | .div | .rem => false

/-- A text without the places at which some other text stands in it. What is left of an empty text is the
other one. -/
def textWithout (s t : String) : String :=
  if t.isEmpty then s else if s.isEmpty then t else s.replace t ""

/-- An operator on evaluated operands. Sums join texts, to which the unit value adds nothing, and
differences take a text out of another. -/
def operate? (op : Operator) (a b : Datum) : Option Datum :=
  match op, a, b with
  | .func .add, text s, text t => some (text (s ++ t))
  | .func .add, text s, unit | .func .add, unit, text s => some (text s)
  | .op .sub, text s, text t => some (text (textWithout s t))
  | .op o, a, b =>
    if isComparison o then (compare? o a b).map ofBool
    else
      match a, b with
      | value a, value b => (calculate? (.op o) a b).map value
      | _, _ => none
  | op, value a, value b => (calculate? op a b).map value
  | _, _, _ => none

end Datum

end Barrage
