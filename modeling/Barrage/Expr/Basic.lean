import Barrage.Expr.Value

/-!
# Expression trees

An expression is a constant, a variable, an access to a member of an object, an operator, a call, a
choice or a binding. Addition, multiplication, minimum, maximum, conjunction and disjunction are calls
that take any number of arguments from two on; every other function has a fixed arity.

## Main definitions

* `Member`, `UnOp`, `BinOp`, `Func`: the vocabulary of nodes
* `Expr`: trees
* `Expr.depth`: how many nodes lie on the longest path
-/

namespace Barrage

/-- Members of objects. -/
inductive Member where
  | x | y | length | elapsed | hp | position
deriving DecidableEq, Repr

namespace Member

/-- Name of a member. -/
def name : Member → String
  | x => "x"
  | y => "y"
  | length => "length"
  | elapsed => "elapsed"
  | hp => "hp"
  | position => "position"

/-- All members. -/
def all : List Member := [x, y, length, elapsed, hp, position]

/-- The member with a name. -/
def ofName? (s : String) : Option Member := all.find? fun m => m.name == s

end Member

/-- Operators with one operand. -/
inductive UnOp where
  | neg | not
deriving DecidableEq, Repr

/-- Operators with two operands that do not join longer lists of them. -/
inductive BinOp where
  | sub | div | rem | lt | le | gt | ge | eq | ne
deriving DecidableEq, Repr

namespace BinOp

/-- Spelling of an operator. -/
def symbol : BinOp → String
  | sub => "-"
  | div => "/"
  | rem => "%"
  | lt => "<"
  | le => "<="
  | gt => ">"
  | ge => ">="
  | eq => "=="
  | ne => "!="

/-- All operators. -/
def all : List BinOp := [sub, div, rem, lt, le, gt, ge, eq, ne]

end BinOp

/-- Functions. -/
inductive Func where
  | add | mul | min | max | and | or | sin | cos | sqrt | abs | floor | lerp | clamp | vec2 | toFloat
deriving DecidableEq, Repr

namespace Func

/-- Name of a function in messages and printed units. -/
def name : Func → String
  | add => "add"
  | mul => "mul"
  | min => "min"
  | max => "max"
  | and => "and"
  | or => "or"
  | sin => "sin"
  | cos => "cos"
  | sqrt => "sqrt"
  | abs => "abs"
  | floor => "floor"
  | lerp => "lerp"
  | clamp => "clamp"
  | vec2 => "vec2"
  | toFloat => "to_float"

/-- All functions. -/
def all : List Func :=
  [add, mul, min, max, and, or, sin, cos, sqrt, abs, floor, lerp, clamp, vec2, toFloat]

/-- The functions that source text calls by a name, with that name; the others are operators. -/
def callable : List (String × Func) :=
  [("min", min), ("max", max), ("sin", sin), ("cos", cos), ("sqrt", sqrt), ("abs", abs),
    ("floor", floor), ("lerp", lerp), ("clamp", clamp), ("vec2", vec2), ("float", toFloat)]

/-- The function that source text calls by a name. -/
def ofName? (s : String) : Option Func := callable.lookup s

/-- Number of arguments; absent for the functions that take two or more. -/
def arity? : Func → Option Nat
  | add | mul | min | max | and | or => none
  | sin | cos | sqrt | abs | floor | toFloat => some 1
  | vec2 => some 2
  | lerp | clamp => some 3

/-- Whether nested calls of the function may be joined into one. -/
def isAssociative (f : Func) : Bool := f.arity?.isNone

end Func

/-- Expression trees. -/
inductive Expr where
  | const (value : Value)
  | var (name : String)
  | member (inner : Expr) (field : Member)
  | unary (op : UnOp) (inner : Expr)
  | binary (op : BinOp) (left right : Expr)
  | call (func : Func) (args : List Expr)
  | branch (cond yes no : Expr)
  | bind (name : String) (value body : Expr)
deriving BEq

namespace Expr

mutual

/-- Number of nodes on the longest path from the root. -/
def depth : Expr → Nat
  | const _ | var _ => 1
  | member inner _ | unary _ inner => 1 + inner.depth
  | binary _ left right => 1 + Nat.max left.depth right.depth
  | call _ args => 1 + depthList args
  | branch cond yes no => 1 + Nat.max (Nat.max cond.depth yes.depth) no.depth
  | bind _ value body => 1 + Nat.max value.depth body.depth

/-- The greatest depth in a list; zero for the empty one. -/
def depthList : List Expr → Nat
  | [] => 0
  | e :: es => Nat.max e.depth (depthList es)

end

end Expr

end Barrage
